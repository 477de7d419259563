import Quasiaffine.Proofs.Piecewise.Graph

set_option autoImplicit false

namespace Quasiaffine.Piecewise

variable {f g c : Piecewise} {s : Space} {v w u : Row → Option ℚ} {op : Comparison}

theorem requireSameSpace_eq_ok (hs : f.space.agrees g.space = true) :
    f.requireSameSpace g = .ok () := by
  simp [requireSameSpace, require, hs]

theorem Maps.pieces_of_agrees (hg : g.Maps w) (hs : f.space.agrees g.space = true) :
    ∀ q ∈ g.pieces, q.LiesIn f.space := fun q hq => (hg.pieces q hq).trans hs

theorem isEmpty_iff : f.isEmpty = true ↔ f.pieces = [] := List.isEmpty_iff

theorem Maps.eq_none_of_isEmpty (h : f.Maps v) (hempty : f.isEmpty = true) (x : Row) :
    v x = none := by
  refine h.undefined x fun p hp => ?_
  rw [isEmpty_iff.1 hempty] at hp
  cases hp

theorem Maps.eq_none_of_length_ne (h : f.Maps v) {x : Row} (hx : x.length ≠ f.space.total) :
    v x = none := by
  refine h.undefined x fun p hp hxp => hx ?_
  have hlies := h.pieces p hp
  rw [hlies.domain.length_of_mem hxp,
    Space.total_eq_of_agrees hlies.agrees h.proper hlies.domain.proper]

section Insert

variable {ps : List Piece}

theorem tidy_insertAll (hf : f.Tidy) (hps : ∀ p ∈ ps, p.domain.Tidy) : (f.insertAll ps).Tidy :=
  fun p hp => (mem_pieces_insertAll.1 hp).elim (hf p) fun h => hps p h.1

theorem tidy_empty (s : Space) : (empty s).Tidy := by simp [Tidy, empty]

theorem maps_insertAll (hf : f.space.Proper)
    (hpieces : ∀ p ∈ f.pieces, p.LiesIn f.space ∧ ∀ x ∈ p.domain, v x = some (p.value.valueAt x))
    (hps : ∀ p ∈ ps, p.LiesIn f.space ∧ ∀ x ∈ p.domain, v x = some (p.value.valueAt x))
    (hundefined : ∀ x, (∀ p ∈ f.pieces, x ∉ p.domain) → (∀ p ∈ ps, x ∉ p.domain) → v x = none) :
    (f.insertAll ps).Maps v := by
  have hspace := space_insertAll f ps
  have hall : ∀ p ∈ (f.insertAll ps).pieces,
      p.LiesIn f.space ∧ ∀ x ∈ p.domain, v x = some (p.value.valueAt x) :=
    fun p hp => (mem_pieces_insertAll.1 hp).elim (hpieces p) fun h => hps p h.1
  refine ⟨hspace ▸ hf, fun p hp => hspace ▸ (hall p hp).1, fun p hp => (hall p hp).2,
    fun x hx => hundefined x (fun p hp => hx p (mem_pieces_insertAll.2 (.inl hp)))
      fun p hp hxp => ?_⟩
  have hempty : p.domain.isObviouslyEmpty = false :=
    Bool.eq_false_iff.2 fun h => notMem_of_isObviouslyEmpty h hxp
  exact hx p (mem_pieces_insertAll.2 (.inr ⟨hp, hempty⟩)) hxp

theorem maps_insertAll_empty (hs : s.Proper)
    (hps : ∀ p ∈ ps, p.LiesIn s ∧ ∀ x ∈ p.domain, v x = some (p.value.valueAt x))
    (hundefined : ∀ x, (∀ p ∈ ps, x ∉ p.domain) → v x = none) :
    ((empty s).insertAll ps).Maps v :=
  maps_insertAll hs (by simp [empty]) hps fun x _ => hundefined x

end Insert

section Combine

/-- What a pair of pieces contributes: pieces of its common set, with one value at each point. -/
structure Shares (s : Space) (shared : Relation) (ps : List Piece) (value : Row → ℚ) : Prop where
  liesIn : ∀ p ∈ ps, p.LiesIn s
  tidy : ∀ p ∈ ps, p.domain.Tidy
  subset : ∀ p ∈ ps, ∀ x ∈ p.domain, x ∈ shared
  value : ∀ p ∈ ps, ∀ x ∈ p.domain, p.value.valueAt x = value x
  covers : ∀ x ∈ shared, ∃ p ∈ ps, x ∈ p.domain

variable {o : ℚ → ℚ → ℚ} {make : Relation → Affine → Affine → Except Error (List Piece)}

/-- A way to combine two expressions on a set that computes `o` of their values. -/
def Computes (s : Space) (make : Relation → Affine → Affine → Except Error (List Piece))
    (o : ℚ → ℚ → ℚ) : Prop :=
  ∀ shared a b, shared.WellFormed → shared.Tidy → s.agrees shared.space = true → a.LiesIn s →
    b.LiesIn s → ∃ ps, make shared a b = .ok ps ∧
      Shares s shared ps fun x => o (a.valueAt x) (b.valueAt x)

theorem overlap_spec (hmake : Computes s make o) {pair : Piece × Piece} (hp : pair.1.LiesIn s)
    (hq : pair.2.LiesIn s) :
    ∃ shared ps, overlap make pair = .ok ps ∧
      Shares s shared ps (fun x => o (pair.1.value.valueAt x) (pair.2.value.valueAt x)) ∧
      ∀ x, x ∈ shared ↔ x ∈ pair.1.domain ∧ x ∈ pair.2.domain := by
  obtain ⟨shared, hok, hspace, hwf, htidy, -, hmem⟩ := Relation.intersect_eq_ok hp.domain hq.domain
    (Space.agrees_trans (Space.agrees_symm hp.agrees) hq.agrees)
  simp only [overlap, hok, bind, Except.bind]
  by_cases hempty : shared.isObviouslyEmpty = true
  · refine ⟨shared, [], by rw [if_pos hempty]; rfl,
      ⟨by simp, by simp, by simp, by simp, fun x hx => ?_⟩, hmem⟩
    exact absurd hx (notMem_of_isObviouslyEmpty hempty)
  · rw [if_neg hempty]
    obtain ⟨ps, hps, hshares⟩ := hmake shared _ _ hwf htidy (hspace ▸ hp.agrees) hp.value hq.value
    exact ⟨shared, ps, hps, hshares, hmem⟩

theorem Maps.combine_eq_ok (hf : f.Maps v) (hg : g.Maps w) (hs : f.space.agrees g.space = true)
    (hmake : Computes f.space make o) :
    ∃ h, f.combine g make = .ok h ∧ h.space = f.space ∧ h.Tidy ∧
      h.Maps fun x => Option.map₂ o (v x) (w x) := by
  obtain ⟨pss, hok, hpss⟩ := mapM_eq_ok (f := overlap make) (l := pairs f g)
    (R := fun pair ps => ∃ shared, Shares f.space shared ps
      (fun x => o (pair.1.value.valueAt x) (pair.2.value.valueAt x)) ∧
        ∀ x, x ∈ shared ↔ x ∈ pair.1.domain ∧ x ∈ pair.2.domain) fun pair hpair => by
      obtain ⟨hp, hq⟩ := mem_pairs_iff.1 hpair
      obtain ⟨shared, ps, hps, hshares⟩ :=
        overlap_spec hmake (hf.pieces _ hp) (hg.pieces_of_agrees hs _ hq)
      exact ⟨ps, hps, shared, hshares⟩
  have hall : ∀ p ∈ pss.flatten, (p.LiesIn f.space ∧
      ∀ x ∈ p.domain, Option.map₂ o (v x) (w x) = some (p.value.valueAt x)) ∧ p.domain.Tidy := by
    intro p hp
    obtain ⟨pair, hpair, ps, ⟨shared, hshares, hmem⟩, hp⟩ := exists_of_mem_flatten hpss hp
    obtain ⟨hpf, hpg⟩ := mem_pairs_iff.1 hpair
    refine ⟨⟨hshares.liesIn p hp, fun x hx => ?_⟩, hshares.tidy p hp⟩
    obtain ⟨hx₁, hx₂⟩ := (hmem x).1 (hshares.subset p hp x hx)
    rw [hf.value _ hpf x hx₁, hg.value _ hpg x hx₂, Option.map₂_coe_coe, hshares.value p hp x hx]
  refine ⟨(empty f.space).insertAll pss.flatten, ?_, space_insertAll _ _,
    tidy_insertAll (tidy_empty _) fun p hp => (hall p hp).2,
    maps_insertAll_empty hf.proper (fun p hp => (hall p hp).1) fun x hx => ?_⟩
  · simp only [combine, requireSameSpace_eq_ok hs, hok, bind, Except.bind, pure, Except.pure]
  · by_contra hdefined
    simp only [Option.map₂_eq_none_iff, hf.eq_none_iff, hg.eq_none_iff] at hdefined
    push Not at hdefined
    obtain ⟨⟨p, hp, hxp⟩, q, hq, hxq⟩ := hdefined
    obtain ⟨ps, ⟨shared, hshares, hmem⟩, hsub⟩ :=
      exists_subset_flatten hpss (mem_pairs_iff.2 ⟨hp, hq⟩ : (p, q) ∈ _)
    obtain ⟨r, hr, hxr⟩ := hshares.covers x ((hmem x).2 ⟨hxp, hxq⟩)
    exact hx r (hsub hr) hxr

theorem shares_single {shared : Relation} {a : Affine} {value : Row → ℚ} (hwf : shared.WellFormed)
    (ht : shared.Tidy) (hs : s.agrees shared.space = true) (ha : a.LiesIn s)
    (hvalue : ∀ x, x.length = a.space.total → a.valueAt x = value x) :
    Shares s shared [⟨shared, a⟩] value where
  liesIn := List.forall_mem_singleton.2 ⟨hwf, hs, ha⟩
  tidy := List.forall_mem_singleton.2 ht
  subset := List.forall_mem_singleton.2 fun _ hx => hx
  value := List.forall_mem_singleton.2 fun x hx => by
    refine hvalue x ((hwf.length_of_mem hx).trans ?_)
    exact Space.total_eq_of_agrees (Space.agrees_trans (Space.agrees_symm hs) ha.agrees) hwf.proper
      ha.proper
  covers x hx := ⟨_, List.mem_singleton_self _, hx⟩

theorem Maps.add_eq_ok (hf : f.Maps v) (hg : g.Maps w) (hs : f.space.agrees g.space = true) :
    ∃ h, f.add g = .ok h ∧ h.space = f.space ∧ h.Tidy ∧
      h.Maps fun x => Option.map₂ (· + ·) (v x) (w x) := by
  refine hf.combine_eq_ok hg hs fun shared a b hwf ht hss ha hb => ?_
  obtain ⟨d, hok, hd, hspace, hvalue⟩ := ha.add_spec hb
  exact ⟨_, by simp only [hok, bind, Except.bind, pure, Except.pure],
    shares_single hwf ht hss hd (hspace ▸ hvalue)⟩

theorem Maps.sub_eq_ok (hf : f.Maps v) (hg : g.Maps w) (hs : f.space.agrees g.space = true) :
    ∃ h, f.sub g = .ok h ∧ h.space = f.space ∧ h.Tidy ∧
      h.Maps fun x => Option.map₂ (· - ·) (v x) (w x) := by
  refine hf.combine_eq_ok hg hs fun shared a b hwf ht hss ha hb => ?_
  obtain ⟨d, hok, hd, hspace, hvalue⟩ := ha.sub_spec hb
  exact ⟨_, by simp only [hok, bind, Except.bind, pure, Except.pure],
    shares_single hwf ht hss hd (hspace ▸ hvalue)⟩

theorem intersect_compareZero {shared : Relation} {a : Affine} (hwf : shared.WellFormed)
    (hs : s.agrees shared.space = true) (ha : a.LiesIn s) (op : Comparison) :
    ∃ sign r, a.compareZero op = .ok sign ∧ shared.intersect sign = .ok r ∧
      r.space = shared.space ∧ r.WellFormed ∧ r.Tidy ∧
        ∀ x, x ∈ r ↔ x ∈ shared ∧ op.holds (a.valueAt x) 0 = true := by
  obtain ⟨sign, hsok, hspace, hsign, -, hpoints⟩ := ha.compareZero_spec op
  have hagrees := Space.agrees_trans (Space.agrees_symm hs) ha.agrees
  obtain ⟨r, hok, hrs, hr, ht, -, hmem⟩ :=
    Relation.intersect_eq_ok hwf hsign (by rw [hspace]; exact hagrees)
  refine ⟨sign, r, hsok, hok, hrs, hr, ht, fun x => ?_⟩
  rw [hmem, hpoints]
  refine and_congr_right fun hx => and_iff_right ?_
  rw [hwf.length_of_mem hx, Space.total_eq_of_agrees hagrees hwf.proper ha.proper]

theorem Maps.choose_eq_ok (hf : f.Maps v) (hg : g.Maps w) (hs : f.space.agrees g.space = true)
    (op : Comparison) :
    ∃ h, f.choose g op = .ok h ∧ h.space = f.space ∧ h.Tidy ∧
      h.Maps fun x => Option.map₂ (chosen op) (v x) (w x) := by
  refine hf.combine_eq_ok hg hs fun shared a b hwf ht hss ha hb => ?_
  obtain ⟨d, hdok, hd, hspace, hvalue⟩ := ha.sub_spec hb
  obtain ⟨sign₁, first, hs₁, hok₁, hsp₁, hwf₁, ht₁, hmem₁⟩ := intersect_compareZero hwf hss hd op
  obtain ⟨sign₂, second, hs₂, hok₂, hsp₂, hwf₂, ht₂, hmem₂⟩ :=
    intersect_compareZero hwf hss hd op.negate
  have hlength : ∀ x ∈ shared, x.length = a.space.total := fun x hx =>
    (hwf.length_of_mem hx).trans (Space.total_eq_of_agrees
      (Space.agrees_trans (Space.agrees_symm hss) ha.agrees) hwf.proper ha.proper)
  -- The comparison of the values is that of their difference with zero.
  have hfirst : ∀ x, x ∈ first ↔ x ∈ shared ∧ op.holds (a.valueAt x) (b.valueAt x) = true :=
    fun x => (hmem₁ x).trans (and_congr_right fun hx => by
      rw [hvalue x (hlength x hx), Comparison.holds_sub])
  have hsecond : ∀ x, x ∈ second ↔ x ∈ shared ∧ op.holds (a.valueAt x) (b.valueAt x) = false :=
    fun x => (hmem₂ x).trans (and_congr_right fun hx => by
      rw [hvalue x (hlength x hx), Comparison.holds_sub, Comparison.holds_negate,
        Bool.not_eq_true'])
  refine ⟨[⟨first, a⟩, ⟨second, b⟩], by
    simp only [hdok, hs₁, hok₁, hs₂, hok₂, bind, Except.bind, pure, Except.pure], ?_⟩
  constructor
  case liesIn =>
    exact List.forall_mem_cons.2 ⟨⟨hwf₁, hsp₁ ▸ hss, ha⟩,
      List.forall_mem_singleton.2 ⟨hwf₂, hsp₂ ▸ hss, hb⟩⟩
  case tidy => exact List.forall_mem_cons.2 ⟨ht₁, List.forall_mem_singleton.2 ht₂⟩
  case subset =>
    exact List.forall_mem_cons.2 ⟨fun x hx => ((hfirst x).1 hx).1,
      List.forall_mem_singleton.2 fun x hx => ((hsecond x).1 hx).1⟩
  case value =>
    exact List.forall_mem_cons.2 ⟨fun x hx => by simp [chosen, ((hfirst x).1 hx).2],
      List.forall_mem_singleton.2 fun x hx => by simp [chosen, ((hsecond x).1 hx).2]⟩
  case covers =>
    intro x hx
    cases hop : op.holds (a.valueAt x) (b.valueAt x) with
    | true => exact ⟨_, List.mem_cons_self, (hfirst x).2 ⟨hx, hop⟩⟩
    | false => exact ⟨_, List.mem_cons_of_mem _ List.mem_cons_self, (hsecond x).2 ⟨hx, hop⟩⟩

theorem Maps.min_eq_ok (hf : f.Maps v) (hg : g.Maps w) (hs : f.space.agrees g.space = true) :
    ∃ h, f.min g = .ok h ∧ h.space = f.space ∧ h.Tidy ∧
      h.Maps fun x => Option.map₂ Min.min (v x) (w x) := by
  simp only [← funext₂ chosen_le]
  exact hf.choose_eq_ok hg hs .le

theorem Maps.max_eq_ok (hf : f.Maps v) (hg : g.Maps w) (hs : f.space.agrees g.space = true) :
    ∃ h, f.max g = .ok h ∧ h.space = f.space ∧ h.Tidy ∧
      h.Maps fun x => Option.map₂ Max.max (v x) (w x) := by
  simp only [← funext₂ chosen_ge]
  exact hf.choose_eq_ok hg hs .ge

end Combine

section Sets

variable {r₀ set : Relation} {ps : List Piece}

theorem foldlM_union_eq_ok (found : Piece → Except Error Relation) {Q : Piece → Row → Prop}
    (hr₀ : r₀.WellFormed) (htidy : r₀.Tidy)
    (hfound : ∀ p ∈ ps, ∃ c, found p = .ok c ∧ c.WellFormed ∧ c.Tidy ∧
      r₀.space.agrees c.space = true ∧ ∀ x, x ∈ c ↔ Q p x) :
    ∃ r, ps.foldlM (fun r p => do r.union (← found p)) r₀ = .ok r ∧ r.space = r₀.space ∧
      r.WellFormed ∧ r.Tidy ∧ ∀ x, x ∈ r ↔ x ∈ r₀ ∨ ∃ p ∈ ps, Q p x := by
  induction ps generalizing r₀ with
  | nil => exact ⟨r₀, rfl, rfl, hr₀, htidy, by simp⟩
  | cons p ps ih =>
    rw [List.forall_mem_cons] at hfound
    obtain ⟨⟨c, hc, hcwf, hct, hcs, hcmem⟩, hfound⟩ := hfound
    obtain ⟨r₁, hok₁, hs₁, hwf₁, ht₁, -, hmem₁⟩ := hr₀.union_eq_ok hcwf hcs
    obtain ⟨r, hok, hs, hwf, ht, hmem⟩ := ih hwf₁ (ht₁ htidy hct) (hs₁ ▸ hfound)
    refine ⟨r, ?_, hs.trans hs₁, hwf, ht, fun x => ?_⟩
    · rw [List.foldlM_cons, hc]
      simp only [bind, Except.bind, hok₁]
      exact hok
    · rw [hmem, hmem₁, hcmem, List.exists_mem_cons_iff, or_assoc]

theorem Maps.domain_eq_ok (hf : f.Maps v) (htidy : f.Tidy) :
    ∃ r, f.domain = .ok r ∧ r.space = f.space ∧ r.WellFormed ∧ r.Tidy ∧
      ∀ x, x ∈ r ↔ (v x).isSome = true := by
  obtain ⟨r, hok, hs, hwf, ht, hmem⟩ := foldlM_union_eq_ok (fun p => .ok p.domain)
    (Q := fun p x => x ∈ p.domain) (Relation.wellFormed_empty hf.proper)
    (Relation.tidy_empty _) fun p hp =>
      ⟨_, rfl, (hf.pieces p hp).domain, htidy p hp, (hf.pieces p hp).agrees, fun _ => Iff.rfl⟩
  refine ⟨r, hok, hs, hwf, ht, fun x => ?_⟩
  rw [hmem, or_iff_right (Relation.notMem_empty _), hf.isSome_iff]

theorem Maps.valueSet_eq_ok (hf : f.Maps v) (op : Comparison) :
    ∃ r, f.valueSet op = .ok r ∧ r.space = f.space ∧ r.WellFormed ∧
      ∀ x, x ∈ r ↔ ∃ q ∈ v x, op.holds q 0 = true := by
  obtain ⟨r, hok, hs, hwf, -, hmem⟩ := foldlM_union_eq_ok
    (fun p => do p.domain.intersect (← p.value.compareZero op))
    (Q := fun p x => x ∈ p.domain ∧ op.holds (p.value.valueAt x) 0 = true)
    (Relation.wellFormed_empty hf.proper) (Relation.tidy_empty _) fun p hp => by
      have hlies := hf.pieces p hp
      obtain ⟨sign, r, hsok, hok, hspace, hwf, ht, hmem⟩ :=
        intersect_compareZero hlies.domain hlies.agrees hlies.value op
      exact ⟨r, by simp only [hsok, bind, Except.bind, hok], hwf, ht, hspace ▸ hlies.agrees, hmem⟩
  refine ⟨r, by simpa only [valueSet, bind_assoc] using hok, hs, hwf, fun x => ?_⟩
  rw [hmem, or_iff_right (Relation.notMem_empty _)]
  constructor
  · rintro ⟨p, hp, hx, hop⟩
    exact ⟨_, hf.value p hp x hx, hop⟩
  · rintro ⟨q, hq, hop⟩
    obtain ⟨p, hp, hx⟩ := hf.isSome_iff.1 (Option.isSome_of_mem hq)
    rw [hf.value p hp x hx] at hq
    exact ⟨p, hp, hx, Option.some.inj hq ▸ hop⟩

/-- One piece is what another one is on the points with `P`. -/
structure Cut (s : Space) (P : Row → Prop) (p q : Piece) : Prop where
  liesIn : q.LiesIn s
  value : q.value = p.value
  points : ∀ x, x ∈ q.domain ↔ x ∈ p.domain ∧ P x

theorem Maps.value_of_cut {P : Row → Prop} (hf : f.Maps v)
    (hps : List.Forall₂ (Cut s P) f.pieces ps) :
    ∀ q ∈ ps, q.LiesIn s ∧ ∀ x ∈ q.domain, P x ∧ v x = some (q.value.valueAt x) := by
  refine forall_mem_of_forall₂ hps fun p hp q hq => ⟨hq.liesIn, fun x hx => ?_⟩
  obtain ⟨hxp, hP⟩ := (hq.points x).1 hx
  exact ⟨hP, by rw [hq.value, hf.value p hp x hxp]⟩

theorem Maps.undefined_of_cut {P : Row → Prop} {x : Row} (hf : f.Maps v)
    (hps : List.Forall₂ (Cut s P) f.pieces ps) (hP : P x) (hx : ∀ q ∈ ps, x ∉ q.domain) :
    v x = none := by
  refine hf.undefined x fun p hp hxp => ?_
  obtain ⟨q, hq, hcut⟩ := exists_mem_of_forall₂ hps hp
  exact hx q hq ((hcut.points x).2 ⟨hxp, hP⟩)

open Classical in
noncomputable def restrict (v : Row → Option ℚ) (P : Row → Prop) (x : Row) : Option ℚ :=
  if P x then v x else none

theorem Maps.intersectDomain_eq_ok (hf : f.Maps v) (hset : set.WellFormed)
    (hs : f.space.agrees set.space = true) :
    ∃ g, f.intersectDomain set = .ok g ∧ g.space = f.space ∧ g.Tidy ∧
      g.Maps (restrict v (· ∈ set)) := by
  obtain ⟨ps, hok, hps⟩ := mapM_eq_ok
    (f := fun p : Piece => do return { p with domain := ← p.domain.intersect set })
    (R := fun p q => Cut f.space (· ∈ set) p q ∧ q.domain.Tidy) fun p hp => by
      have hlies := hf.pieces p hp
      obtain ⟨r, hok, hspace, hwf, ht, -, hmem⟩ := Relation.intersect_eq_ok hlies.domain hset
        (Space.agrees_trans (Space.agrees_symm hlies.agrees) hs)
      exact ⟨{ p with domain := r }, by simp only [hok, bind, Except.bind, pure, Except.pure],
        ⟨⟨hwf, hspace ▸ hlies.agrees, hlies.value⟩, rfl, hmem⟩, ht⟩
  have hcut := hps.imp fun _ _ h => h.1
  refine ⟨(empty f.space).insertAll ps, by rw [intersectDomain, hok]; rfl, space_insertAll _ _,
    tidy_insertAll (tidy_empty _) (forall_mem_of_forall₂ hps fun _ _ _ h => h.2),
    maps_insertAll_empty hf.proper (fun q hq => ?_) fun x hx => ?_⟩
  · obtain ⟨hlies, hvalue⟩ := hf.value_of_cut hcut q hq
    exact ⟨hlies, fun x hx => by rw [restrict, if_pos (hvalue x hx).1, (hvalue x hx).2]⟩
  · rw [restrict]
    split
    · exact hf.undefined_of_cut hcut ‹_› hx
    · rfl

def conditional (q : ℚ) (a b : Option ℚ) : Option ℚ := if q ≠ 0 then a else b

theorem Maps.cond_eq_ok (hc : c.Maps u) (hf : f.Maps v) (hg : g.Maps w)
    (hs : f.space.agrees g.space = true) (hsc : f.space.agrees c.space = true) :
    ∃ h, c.cond f g = .ok h ∧ h.space = f.space ∧ h.Tidy ∧
      h.Maps fun x => (u x).bind fun q => conditional q (v x) (w x) := by
  obtain ⟨nonZero, hnok, hns, hnwf, hnmem⟩ := hc.valueSet_eq_ok .ne
  obtain ⟨zero, hzok, hzs, hzwf, hzmem⟩ := hc.valueSet_eq_ok .eq
  obtain ⟨taken, htok, hts, htt, htm⟩ := hf.intersectDomain_eq_ok hnwf (by rw [hns, hsc])
  obtain ⟨skipped, hkok, hks, hkt, hkm⟩ := hg.intersectDomain_eq_ok hzwf
    (by rw [hzs]; exact Space.agrees_trans (Space.agrees_symm hs) hsc)
  have hvalue : ∀ x, ((u x).bind fun q => conditional q (v x) (w x)) =
      (restrict v (· ∈ nonZero) x).or (restrict w (· ∈ zero) x) := by
    intro x
    simp only [restrict, hnmem, hzmem, Comparison.holds, conditional]
    cases u x with
    | none => simp
    | some q => by_cases hq : q = 0 <;> simp [hq]
  -- A value is either zero or not, so no point is taken twice.
  have hdisjoint : ∀ x, restrict v (· ∈ nonZero) x ≠ none → restrict w (· ∈ zero) x = none := by
    intro x hx
    simp only [restrict, hnmem, hzmem, Comparison.holds] at hx ⊢
    cases hux : u x with
    | none => simp
    | some q => by_cases hq : q = 0 <;> simp_all
  simp only [hvalue]
  refine ⟨taken.insertAll skipped.pieces, ?_, (space_insertAll _ _).trans hts,
    tidy_insertAll htt hkt, maps_insertAll htm.proper (fun p hp => ⟨htm.pieces p hp, fun x hx => ?_⟩)
      (fun q hq => ⟨(hkm.pieces q hq).trans (by rw [hts, hks, hs]), fun x hx => ?_⟩) fun x h₁ h₂ => ?_⟩
  · simp only [cond, requireSameSpace_eq_ok hs, requireSameSpace_eq_ok hsc, nonZeroSet, zeroSet, hnok,
      hzok, htok, hkok, bind, Except.bind, pure, Except.pure]
  · rw [htm.value p hp x hx, Option.some_or]
  · have hsome := hkm.value q hq x hx
    have hnone : restrict v (· ∈ nonZero) x = none := by
      by_contra hne
      rw [hdisjoint x hne] at hsome
      cases hsome
    rw [hnone, Option.none_or, hsome]
  · rw [htm.undefined x h₁, hkm.undefined x h₂, Option.none_or]

open Classical in
noncomputable def indicatorValue (set : Relation) (x : Row) : Option ℚ :=
  if x.length = set.space.total then some (if x ∈ set then 1 else 0) else none

theorem indicator_spec (hset : set.WellFormed) (ht : set.Tidy) :
    (∃ c, indicator set = .ok c ∧ c.space = set.space ∧ c.Maps (indicatorValue set)) ∨
      indicator set = .error (.unsupported .subtractingQuantified) := by
  have hproper := hset.proper
  have hlies : ∀ n, (Affine.const (.ofSpace set.space) n).LiesIn set.space := fun n =>
    ⟨(Affine.denotes_const set.space n).wellFormed, hproper, set.space.agrees_refl⟩
  have hvalue : ∀ n x, x.length = set.space.total →
      (Affine.const (.ofSpace set.space) n).valueAt x = n := fun n x hx =>
    (Affine.denotes_const set.space n).valueAt_eq hx
  have hzero : Affine.zero (.ofSpace set.space) = .const (.ofSpace set.space) 0 := by
    simp only [Affine.zero, Affine.const, Nat.add_comm 1, Row.zeros, List.replicate_succ]
  rcases Relation.subtract_spec (Relation.wellFormed_full hproper) hset set.space.agrees_refl with
    ⟨rest, hok, -, hspace, hwf, -, -, hmem, hall⟩ | ⟨herr, -⟩
  · refine .inl ⟨(empty set.space).insertAll [⟨set, .const (.ofSpace set.space) 1⟩,
      ⟨rest, .const (.ofSpace set.space) 0⟩], by rw [indicator, hok, hzero]; rfl,
      space_insertAll _ _, maps_insertAll_empty hproper ?_ fun x hx => ?_⟩
    · refine List.forall_mem_cons.2 ⟨⟨⟨hset, set.space.agrees_refl, hlies 1⟩, fun x hx => ?_⟩,
        List.forall_mem_singleton.2
          ⟨⟨hwf, hspace ▸ set.space.agrees_refl, hlies 0⟩, fun x hx => ?_⟩⟩
      · have hl := hset.length_of_mem hx
        rw [indicatorValue, if_pos hl, if_pos hx, hvalue 1 x hl, Int.cast_one]
      · have hl := Relation.mem_full_iff.1 (hmem x hx).1
        rw [indicatorValue, if_pos hl, if_neg (hmem x hx).2, hvalue 0 x hl, Int.cast_zero]
    · rw [List.forall_mem_cons, List.forall_mem_singleton] at hx
      rw [indicatorValue, if_neg]
      exact fun hl => hx.2 (hall ht x (Relation.mem_full_iff.2 hl) hx.1)
  · exact .inr (by rw [indicator, herr]; rfl)

open Classical in
theorem select_spec (hset : set.WellFormed) (ht : set.Tidy) (hf : f.Maps v) (hg : g.Maps w)
    (hs : f.space.agrees g.space = true) (hss : f.space.agrees set.space = true) :
    (∃ h, select set f g = .ok h ∧ h.space = f.space ∧ h.Tidy ∧
      h.Maps fun x => if x ∈ set then v x else w x) ∨
      select set f g = .error (.unsupported .subtractingQuantified) := by
  rcases indicator_spec hset ht with ⟨c, hok, hspace, hc⟩ | herr
  · obtain ⟨h, hhok, hhs, hht, hm⟩ := hc.cond_eq_ok hf hg hs (hspace ▸ hss)
    refine .inl ⟨h, by rw [select, hok]; exact hhok, hhs, hht, ?_⟩
    convert hm using 2 with x
    rw [indicatorValue]
    by_cases hl : x.length = set.space.total
    · rw [if_pos hl]
      split <;> simp [conditional, *]
    · have hf' := Space.total_eq_of_agrees hss hf.proper hset.proper
      have hg' := Space.total_eq_of_agrees hs hf.proper hg.proper
      rw [hf.eq_none_of_length_ne (by rwa [hf']), hg.eq_none_of_length_ne (by rwa [← hg', hf']),
        if_neg hl, ite_self]
      rfl
  · exact .inr (by rw [select, herr]; rfl)

end Sets

section UnionAdd

variable {set : Relation}

theorem Maps.piecesOutside_spec (hf : f.Maps v) (hset : set.WellFormed) (ht : set.Tidy)
    (hs : f.space.agrees set.space = true) :
    (∃ ps, f.piecesOutside set = .ok ps ∧ List.Forall₂ (fun p q => Cut f.space (· ∉ set) p q ∧
      (p.domain.Tidy → q.domain.Tidy)) f.pieces ps) ∨
      f.piecesOutside set = .error (.unsupported .subtractingQuantified) := by
  refine mapM_eq_ok_or fun p hp => ?_
  have hlies := hf.pieces p hp
  rcases Relation.subtract_spec hlies.domain hset
    (Space.agrees_trans (Space.agrees_symm hlies.agrees) hs) with
    ⟨r, hok, -, hspace, hwf, htidy, -, hmem, hall⟩ | ⟨herr, -⟩
  · exact .inl ⟨{ p with domain := r }, by simp only [hok, bind, Except.bind, pure, Except.pure],
      ⟨⟨hwf, hspace ▸ hlies.agrees, hlies.value⟩, rfl,
        fun x => ⟨hmem x, fun h => hall ht x h.1 h.2⟩⟩, htidy⟩
  · exact .inr (by rw [herr]; rfl)

theorem unionAdd_eq {both : Piecewise} (hs : f.space.agrees g.space = true)
    (hboth : f.add g = .ok both) :
    f.unionAdd g = if both.isEmpty then do
        return f.insertAll
          (← g.pieces.mapM fun p => do return { p with domain := ← p.domain.resetSpace f.space })
      else do
        let domF ← f.domain
        let domG ← g.domain
        return (both.insertAll (← f.piecesOutside domG)).insertAll (← g.piecesOutside domF) := by
  rw [unionAdd, requireSameSpace_eq_ok hs, hboth]
  rfl

theorem Maps.unionAdd_of_isEmpty {both : Piecewise} (hf : f.Maps v) (hg : g.Maps w) (hft : f.Tidy)
    (hgt : g.Tidy) (hs : f.space.agrees g.space = true) (hok : f.add g = .ok both)
    (hempty : both.isEmpty = true) (hnone : ∀ x, v x = none ∨ w x = none) :
    ∃ h, f.unionAdd g = .ok h ∧ h.space = f.space ∧ h.Tidy ∧
      h.Maps fun x => Option.merge (· + ·) (v x) (w x) := by
  obtain ⟨ps, hps, hcuts⟩ := mapM_eq_ok
    (f := fun p : Piece => do return { p with domain := ← p.domain.resetSpace f.space })
    (R := fun p q => Cut f.space (fun _ => True) p q ∧ (p.domain.Tidy → q.domain.Tidy))
    fun p hp => by
      have hlies := hg.pieces_of_agrees hs p hp
      obtain ⟨r, hok, hspace, hwf, ht, hmem⟩ := Relation.resetSpace_eq_ok hlies.domain hf.proper
        (Space.total_eq_of_agrees hlies.agrees hf.proper hlies.domain.proper)
      exact ⟨{ p with domain := r }, by simp only [hok, bind, Except.bind, pure, Except.pure],
        ⟨⟨hwf, hspace ▸ f.space.agrees_refl, hlies.value⟩, rfl, by simpa using hmem⟩, ht⟩
  have hcut := hcuts.imp fun _ _ h => h.1
  refine ⟨f.insertAll ps, ?_, space_insertAll _ _, tidy_insertAll hft
    (forall_mem_of_forall₂ hcuts fun p hp _ h => h.2 (hgt p hp)),
    maps_insertAll hf.proper (fun p hp => ⟨hf.pieces p hp, fun x hx => ?_⟩)
      (fun q hq => ⟨(hg.value_of_cut hcut q hq).1, fun x hx => ?_⟩) fun x h₁ h₂ => ?_⟩
  · rw [unionAdd_eq hs hok, if_pos hempty, hps]
    rfl
  · have hv := hf.value p hp x hx
    rw [(hnone x).resolve_left (by simp [hv]), Option.merge_none_right, hv]
  · have hw := ((hg.value_of_cut hcut q hq).2 x hx).2
    rw [(hnone x).resolve_right (by simp [hw]), Option.merge_none_left, hw]
  · rw [hf.undefined x h₁, hg.undefined_of_cut hcut trivial h₂, Option.merge_none_left]

/-- What both functions have in common is summed, and of each the part is kept that lies outside
of the other. -/
theorem Maps.unionAdd_of_not_isEmpty {both : Piecewise} (hf : f.Maps v) (hg : g.Maps w)
    (hft : f.Tidy) (hgt : g.Tidy) (hs : f.space.agrees g.space = true) (hok : f.add g = .ok both)
    (hspace : both.space = f.space) (hbt : both.Tidy)
    (hboth : both.Maps fun x => Option.map₂ (· + ·) (v x) (w x)) (hempty : ¬both.isEmpty = true) :
    (∃ h, f.unionAdd g = .ok h ∧ h.space = f.space ∧ h.Tidy ∧
      h.Maps fun x => Option.merge (· + ·) (v x) (w x)) ∨
      f.unionAdd g = .error (.unsupported .subtractingQuantified) := by
  obtain ⟨domF, hFok, hFs, hFwf, hFt, hFmem⟩ := hf.domain_eq_ok hft
  obtain ⟨domG, hGok, hGs, hGwf, hGt, hGmem⟩ := hg.domain_eq_ok hgt
  simp only [unionAdd_eq hs hok, if_neg hempty, hFok, hGok]
  rcases hf.piecesOutside_spec hGwf hGt (by rw [hGs, hs]) with ⟨psF, hpsF, hcutsF⟩ | herr
  case inr => exact .inr (by simp only [herr, bind, Except.bind])
  rcases hg.piecesOutside_spec hFwf hFt (by rw [hFs, Space.agrees_symm hs])
    with ⟨psG, hpsG, hcutsG⟩ | herr
  case inr => exact .inr (by simp only [hpsF, herr, bind, Except.bind])
  have hcutF := hcutsF.imp fun _ _ h => h.1
  have hcutG := hcutsG.imp fun _ _ h => h.1
  -- The domains are where the functions are defined, so a piece cut back to the outside of one
  -- meets none of its values.
  have hnoneG : ∀ x, x ∉ domG ↔ w x = none := fun x => by
    rw [hGmem, Option.not_isSome_iff_eq_none]
  have hnoneF : ∀ x, x ∉ domF ↔ v x = none := fun x => by
    rw [hFmem, Option.not_isSome_iff_eq_none]
  have hinsert : (both.insertAll psF).insertAll psG = both.insertAll (psF ++ psG) := by
    rw [insertAll, insertAll, insertAll, List.foldl_append]
  refine .inl ⟨both.insertAll (psF ++ psG), ?_, (space_insertAll _ _).trans hspace,
    tidy_insertAll hbt fun q hq => ?_, maps_insertAll hboth.proper
      (fun p hp => ⟨hboth.pieces p hp, fun x hx => ?_⟩) (fun q hq => ?_) fun x hx hno => ?_⟩
  · simp only [hpsF, hpsG, bind, Except.bind, pure, Except.pure, hinsert]
  · rcases List.mem_append.1 hq with hq | hq
    · exact forall_mem_of_forall₂ hcutsF (fun p hp q h => h.2 (hft p hp)) q hq
    · exact forall_mem_of_forall₂ hcutsG (fun p hp q h => h.2 (hgt p hp)) q hq
  · have hsum := hboth.value p hp x hx
    obtain ⟨a, b, ha, hb, hab⟩ := Option.map₂_eq_some_iff.1 hsum
    rw [ha, hb, ← hab]
    rfl
  · rcases List.mem_append.1 hq with hq | hq
    · obtain ⟨hlies, hvalue⟩ := hf.value_of_cut hcutF q hq
      refine ⟨hspace ▸ hlies, fun x hx => ?_⟩
      obtain ⟨hout, hv⟩ := hvalue x hx
      rw [(hnoneG x).1 hout, Option.merge_none_right, hv]
    · obtain ⟨hlies, hvalue⟩ := hg.value_of_cut hcutG q hq
      refine ⟨hspace ▸ hlies.trans hs, fun x hx => ?_⟩
      obtain ⟨hout, hw⟩ := hvalue x hx
      rw [(hnoneF x).1 hout, Option.merge_none_left, hw]
  · simp only [List.forall_mem_append] at hno
    have hsum := hboth.undefined x hx
    rcases Option.map₂_eq_none_iff.1 hsum with hv | hw
    · rw [hv, hg.undefined_of_cut hcutG ((hnoneF x).2 hv) hno.2, Option.merge_none_left]
    · rw [hw, hf.undefined_of_cut hcutF ((hnoneG x).2 hw) hno.1, Option.merge_none_left]

theorem Maps.unionAdd_spec (hf : f.Maps v) (hg : g.Maps w) (hft : f.Tidy) (hgt : g.Tidy)
    (hs : f.space.agrees g.space = true) :
    (∃ h, f.unionAdd g = .ok h ∧ h.space = f.space ∧ h.Tidy ∧
      h.Maps fun x => Option.merge (· + ·) (v x) (w x)) ∨
      f.unionAdd g = .error (.unsupported .subtractingQuantified) := by
  obtain ⟨both, hok, hspace, hbt, hboth⟩ := hf.add_eq_ok hg hs
  by_cases hempty : both.isEmpty = true
  · exact .inl (hf.unionAdd_of_isEmpty hg hft hgt hs hok hempty fun x =>
      Option.map₂_eq_none_iff.1 (hboth.eq_none_of_isEmpty hempty x))
  · exact hf.unionAdd_of_not_isEmpty hg hft hgt hs hok hspace hbt hboth hempty

end UnionAdd

end Quasiaffine.Piecewise
