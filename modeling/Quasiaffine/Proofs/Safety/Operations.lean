import Quasiaffine.Proofs.Parse.Sets

set_option autoImplicit false

namespace Quasiaffine

/-- The errors that a text may lead to: all but those for arguments that do not fit together. -/
def Error.Ordinary : Error → Prop
  | argument _ => False
  | _ => True

def Sure {α : Type} (P : α → Prop) : Except Error α → Prop
  | .ok a => P a
  | .error e => e.Ordinary

section Sure

variable {α β : Type} {P : α → Prop} {Q : β → Prop} {r : Except Error α}

theorem sure_of_eq_ok (h : ∃ a, r = .ok a ∧ P a) : Sure P r := by
  obtain ⟨a, rfl, ha⟩ := h
  exact ha

theorem sure_of_eq_ok_or {fault : Unsupported}
    (h : (∃ a, r = .ok a ∧ P a) ∨ r = .error (.unsupported fault)) : Sure P r := by
  rcases h with h | rfl
  · exact sure_of_eq_ok h
  · trivial

theorem Sure.bind {k : α → Except Error β} (h : Sure P r) (hk : ∀ a, P a → Sure Q (k a)) :
    Sure Q (r >>= k) := by
  cases r with
  | ok a => exact hk a h
  | error e => exact h

theorem sure_foldlM {f : β → α → Except Error β} {l : List α} {b : β}
    (step : ∀ b, ∀ a ∈ l, Q b → Sure Q (f b a)) (h : Q b) : Sure Q (l.foldlM f b) := by
  induction l generalizing b with
  | nil => exact h
  | cons a l ih =>
    rw [List.foldlM_cons]
    exact (step b a List.mem_cons_self h).bind fun b' hb' =>
      ih (fun b a ha => step b a (List.mem_cons_of_mem _ ha)) hb'

theorem sure_mapM {f : α → Except Error β} {l : List α} (step : ∀ a ∈ l, Sure Q (f a)) :
    Sure (fun bs => ∀ b ∈ bs, Q b) (l.mapM f) := by
  induction l with
  | nil => exact nofun
  | cons a l ih =>
    rw [List.mapM_cons]
    rw [List.forall_mem_cons] at step
    exact step.1.bind fun b hb => (ih step.2).bind fun bs hbs => List.forall_mem_cons.2 ⟨hb, hbs⟩

end Sure

variable {F G : Frame}

namespace Relation

variable {a b : Relation}

theorem LiesOver.sure_intersect (ha : a.LiesOver F) (hb : b.WellFormed) (hs : b.space = F.space) :
    Sure (LiesOver F) (a.intersect b) := by
  have hagrees : a.space.agrees b.space = true := by
    rw [ha.space, hs]
    exact F.space.agrees_refl
  obtain ⟨r, hok, -⟩ := intersect_eq_ok ha.wellFormed hb hagrees
  exact sure_of_eq_ok ⟨r, hok, (ha.intersect hb hok).1⟩

theorem LiesOver.sure_union (ha : a.LiesOver F) (hb : b.LiesOver F) :
    Sure (LiesOver F) (a.union b) := by
  obtain ⟨r, hok, -⟩ := Describes.union_eq_ok ha hb
  exact sure_of_eq_ok ⟨r, hok, (ha.union hb hok).1⟩

theorem LiesOver.sure_subtract (ha : a.LiesOver F) (hb : b.LiesOver F) :
    Sure (LiesOver F) (a.subtract b) := by
  refine sure_of_eq_ok_or ((Describes.subtract_spec ha hb).imp ?_ And.left)
  rintro ⟨r, hok, -⟩
  exact ⟨r, hok, (ha.subtract hb hok).1⟩

theorem LiesOver.sure_recoverDefinitions (ha : a.LiesOver F) :
    Sure (fun r : Recovery => r.relation.LiesOver F) a.recoverDefinitions := by
  obtain ⟨r, hok, -⟩ := Describes.recoverDefinitions_eq_ok ha
  exact sure_of_eq_ok ⟨r, hok, (ha.recoverDefinitions hok).1⟩

theorem LiesOver.sure_addDim {kind : DimKind} (ha : a.LiesOver F) (hF : F.Admits kind)
    (label : Label) : Sure (LiesOver (F.declareAs kind label)) (a.addDims kind 1) := by
  obtain ⟨r, hok, -⟩ := addDims_eq_ok kind 1 ha.wellFormed
    (by rcases hF with rfl | ⟨rfl, -⟩ <;> decide)
    (by rcases hF with rfl | ⟨rfl, -⟩
        · exact .inr (by rw [ha.space]; rfl)
        · exact .inl rfl) Nat.one_pos
  exact sure_of_eq_ok ⟨r, hok, (ha.addDim hF label hok).1⟩

theorem LiesOver.sure_projectOut (ha : a.LiesOver G) (hFG : F.Extends G) :
    Sure (LiesOver F) (a.projectOut .output (F.size - F.params) (G.size - F.size)) := by
  have hd := ha
  rw [LiesOver, hFG.space] at hd
  obtain ⟨r, hok, -⟩ := Describes.projectOut_eq_ok hd
  exact sure_of_eq_ok ⟨r, hok, (ha.projectOut hFG hok).1⟩

theorem LiesOver.sure_resetSpace (ha : a.LiesOver F) {s : Space} (hs : s.Proper)
    (ht : s.total = F.size) :
    Sure (fun r : Relation => r.space = s ∧ r.WellFormed) (a.resetSpace s) := by
  obtain ⟨r, hok, hspace, hwf, -⟩ := resetSpace_eq_ok ha.wellFormed hs
    (by rw [ht, ha.space, F.total_space])
  exact sure_of_eq_ok ⟨r, hok, hspace, hwf⟩

end Relation

namespace Piecewise

variable {f g : Piecewise}

structure LiesOver (F : Frame) (f : Piecewise) : Prop where
  regular : f.Regular
  space : f.space = F.space

theorem LiesOver.agrees (hf : f.LiesOver F) (hg : g.LiesOver F) :
    f.space.agrees g.space = true := by
  rw [hf.space, hg.space]
  exact F.space.agrees_refl

theorem liesOver_const (F : Frame) (c : Int) : (const F.space c).LiesOver F :=
  ⟨(regular_const F.proper_space c).1, rfl⟩

theorem LiesOver.sure (hf : f.LiesOver F) {r : Except Error Piecewise} {v : Row → Option ℚ}
    (h : ∃ g, r = .ok g ∧ g.space = f.space ∧ g.Tidy ∧ g.Maps v) : Sure (LiesOver F) r := by
  obtain ⟨g, hok, hs, ht, hm⟩ := h
  exact sure_of_eq_ok ⟨g, hok, (hm.regular ht).1, hs.trans hf.space⟩

section Operations

theorem LiesOver.sure_add (hf : f.LiesOver F) (hg : g.LiesOver F) : Sure (LiesOver F) (f.add g) :=
  hf.sure (hf.regular.maps.add_eq_ok hg.regular.maps (hf.agrees hg))

theorem LiesOver.sure_sub (hf : f.LiesOver F) (hg : g.LiesOver F) : Sure (LiesOver F) (f.sub g) :=
  hf.sure (hf.regular.maps.sub_eq_ok hg.regular.maps (hf.agrees hg))

theorem LiesOver.sure_min (hf : f.LiesOver F) (hg : g.LiesOver F) : Sure (LiesOver F) (f.min g) :=
  hf.sure (hf.regular.maps.min_eq_ok hg.regular.maps (hf.agrees hg))

theorem LiesOver.sure_max (hf : f.LiesOver F) (hg : g.LiesOver F) : Sure (LiesOver F) (f.max g) :=
  hf.sure (hf.regular.maps.max_eq_ok hg.regular.maps (hf.agrees hg))

theorem LiesOver.scale (hf : f.LiesOver F) (c : Int) : (f.scale c).LiesOver F :=
  ⟨(hf.regular.scale c).1, hf.space⟩

theorem LiesOver.sure_mapValuesM (hf : f.LiesOver F) {op : Affine → Except Error Affine} {o : ℚ → ℚ}
    (step : ∀ (a : Affine) (s : Space) (u : Row → ℚ), a.Denotes s u →
      ∃ b, op a = .ok b ∧ b.Denotes s fun x => o (u x)) : Sure (LiesOver F) (f.mapValuesM op) := by
  obtain ⟨g, hok, ht, hm⟩ := hf.regular.maps.mapValuesM_eq_ok step
  refine hf.sure ⟨g, hok, ?_, ht hf.regular.tidy, hm⟩
  obtain ⟨_, -, hg⟩ := bind_eq_ok_iff.1 hok
  obtain rfl := Except.ok.inj hg
  rfl

theorem LiesOver.sure_floor (hf : f.LiesOver F) : Sure (LiesOver F) f.floor :=
  hf.sure_mapValuesM (o := fun q => (⌊q⌋ : ℚ)) fun _ _ _ ha => ha.floor_eq_ok

theorem LiesOver.sure_ceil (hf : f.LiesOver F) : Sure (LiesOver F) f.ceil :=
  hf.sure_mapValuesM (o := fun q => (⌈q⌉ : ℚ)) fun _ _ _ ha => ha.ceil_eq_ok

variable {d : Int}

theorem LiesOver.sure_scaleDown (hf : f.LiesOver F) (hd : 0 < d) :
    Sure (LiesOver F) (f.scaleDown d) :=
  hf.sure_mapValuesM (o := fun q => q / d) fun _ _ _ ha => ha.scaleDown_eq_ok hd

theorem LiesOver.sure_mod (hf : f.LiesOver F) (hd : 0 < d) : Sure (LiesOver F) (f.mod d) :=
  hf.sure_mapValuesM (o := fun q => q - d * ⌊q / d⌋) fun _ _ _ ha => ha.mod_eq_ok hd

theorem sure_foldList {op : Piecewise → Piecewise → Except Error Piecewise} {fs : List Piecewise}
    (step : ∀ f g : Piecewise, f.LiesOver F → g.LiesOver F → Sure (LiesOver F) (op f g))
    (hne : fs ≠ []) (hfs : ∀ f ∈ fs, f.LiesOver F) : Sure (LiesOver F) (foldList op fs) := by
  obtain ⟨f, fs, rfl⟩ := List.exists_cons_of_ne_nil hne
  rw [List.forall_mem_cons] at hfs
  exact sure_foldlM (fun f g hg hf => step f g hf (hfs.2 g hg)) hfs.1

end Operations

section Sets

variable {set : Relation} {op : Comparison}

theorem LiesOver.sure_compareSet (hf : f.LiesOver F) (hg : g.LiesOver F) (op : Comparison) :
    Sure (fun r : Relation => r.WellFormed ∧ r.space = F.space) (f.compareSet g op) := by
  obtain ⟨r, hok, hs, hwf, -⟩ :=
    hf.regular.maps.compareSet_eq_ok hg.regular.maps (hf.agrees hg) op
  exact sure_of_eq_ok ⟨r, hok, hwf, hs.trans hf.space⟩

theorem sure_compareListSet {fs gs : List Piecewise} (hne : fs ≠ [])
    (hfs : ∀ f ∈ fs, f.LiesOver F) (hgs : ∀ g ∈ gs, g.LiesOver F) (op : Comparison) :
    Sure (fun r : Relation => r.WellFormed ∧ r.space = F.space) (compareListSet fs gs op) := by
  obtain ⟨first, rest, rfl⟩ := List.exists_cons_of_ne_nil hne
  have hfirst := (hfs first List.mem_cons_self).space
  refine sure_foldlM (fun set pair hpair ⟨hset, hs⟩ => ?_)
    ⟨hfirst ▸ Relation.wellFormed_full F.proper_space, hfirst⟩
  obtain ⟨f, hf, hpair⟩ := List.mem_flatMap.1 hpair
  obtain ⟨g, hg, rfl⟩ := List.mem_map.1 hpair
  refine ((hfs f hf).sure_compareSet (hgs g hg) op).bind fun r ⟨hr, hrs⟩ => ?_
  obtain ⟨both, hok, hspace, hwf, -⟩ := Relation.intersect_eq_ok hset hr
    (by rw [hs, hrs]; exact F.space.agrees_refl)
  exact sure_of_eq_ok ⟨both, hok, hwf, hspace.trans hs⟩

theorem LiesOver.sure_intersectDomain (hf : f.LiesOver F) (hset : set.LiesOver F) :
    Sure (LiesOver F) (f.intersectDomain set) :=
  hf.sure (hf.regular.maps.intersectDomain_eq_ok hset.wellFormed
    (by rw [hf.space, hset.space]; exact F.space.agrees_refl))

theorem LiesOver.sure_select (hset : set.LiesOver F) (hf : f.LiesOver F) (hg : g.LiesOver F) :
    Sure (LiesOver F) (select set f g) := by
  rcases select_spec hset.wellFormed hset.tidy hf.regular.maps hg.regular.maps (hf.agrees hg)
    (by rw [hf.space, hset.space]; exact F.space.agrees_refl) with h | h
  · exact hf.sure h
  · exact sure_of_eq_ok_or (.inr h)

theorem Regular.sure_unionAdd (hf : f.Regular) (hg : g.Regular)
    (hs : f.space.agrees g.space = true) : Sure Regular (f.unionAdd g) := by
  refine sure_of_eq_ok_or ((hf.maps.unionAdd_spec hg.maps hf.tidy hg.tidy hs).imp_left ?_)
  rintro ⟨h, hok, -, ht, hm⟩
  exact ⟨h, hok, (hm.regular ht).1⟩

theorem LiesOver.sure_resetSpace (hf : f.LiesOver F) {s : Space} (hs : s.Proper)
    (ht : s.total = F.size) : Sure Regular (f.resetSpace s) := by
  have hstep : ∀ p ∈ f.pieces, Sure (fun _ => True) (do
      return Piece.mk (← p.domain.resetSpace s) (← p.value.resetSpace s)) := by
    intro p hp
    have hlies := hf.regular.maps.pieces p hp
    have htotal : s.total = f.space.total := by rw [ht, hf.space, F.total_space]
    obtain ⟨dom, hdom, -⟩ := Relation.resetSpace_eq_ok hlies.domain hs
      (htotal.trans (Space.total_eq_of_agrees hlies.agrees hf.regular.proper hlies.domain.proper))
    have hvalue : s.total = p.value.ls.space.total :=
      htotal.trans (Space.total_eq_of_agrees hlies.value.agrees hf.regular.proper hlies.value.proper)
    simp only [hdom, Affine.resetSpace, LocalSpace.resetSpace, require, hvalue, bind, Except.bind,
      beq_self_eq_true, if_true, pure, Except.pure, Sure]
  have hall : Sure (fun _ => True) (f.resetSpace s) :=
    (sure_mapM hstep).bind fun _ _ => trivial
  cases hok : f.resetSpace s with
  | ok g => exact (hf.regular.resetSpace hs hok).1
  | error e =>
    rw [hok] at hall
    exact hall

end Sets

end Piecewise

theorem Frame.sure_variableAt {pos : Nat} (h : pos < F.size) :
    Sure (Piecewise.LiesOver F) (Grammar.variableAt F.space pos) := by
  obtain ⟨f, hok, hf⟩ := F.variableAt_eq_ok h
  exact sure_of_eq_ok ⟨f, hok, (F.regular_variableAt h hok).1, hf.space⟩

end Quasiaffine
