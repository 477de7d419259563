import Quasiaffine.Piecewise.Choice
import Quasiaffine.Proofs.Affine
import Quasiaffine.Proofs.Relation.Sets

set_option autoImplicit false

namespace Quasiaffine

namespace Affine

variable {a : Affine} {s : Space} {v : Row → ℚ}

def signCondition : ConstraintKind → ℚ → Prop
  | .inequality, q => 0 ≤ q
  | .equality, q => q = 0

theorem Denotes.proper (h : a.Denotes s v) (hs : s.Proper) : a.space.Proper := h.space ▸ hs

theorem admits_iff_signCondition {kind : ConstraintKind} {n m : Int} (hm : 0 < m) :
    kind.admits n = true ↔ signCondition kind ((n : ℚ) / (m : ℚ)) := by
  have hm' : (0 : ℚ) < m := by exact_mod_cast hm
  rw [ConstraintKind.admits_iff]
  cases kind with
  | inequality =>
    simp only [signCondition]
    rw [le_div_iff₀ hm', zero_mul]
    exact_mod_cast Iff.rfl
  | equality =>
    simp only [signCondition, div_eq_zero_iff, hm'.ne', or_false]
    exact_mod_cast Iff.rfl

theorem Denotes.ofAffine_eq_ok (h : a.Denotes s v) (kind : ConstraintKind) :
    ∃ b, BasicRelation.ofAffine a kind = .ok b ∧ b.ls = a.ls ∧ b.WellFormed ∧ b.EachSolvable ∧
      ∀ x, x ∈ b ↔ x.length = s.total ∧ signCondition kind (v x) := by
  have hpos : ∀ r ∈ a.ls.divs.rows, 0 ≤ r.entry 0 := fun r hr =>
    Int.le_of_lt (h.wellFormed.positive r hr)
  have hfull := BasicRelation.wellFormed_ofLocalSpace h.wellFormed.divisions hpos
  have hls := BasicRelation.ls_ofLocalSpace a.ls
  obtain ⟨b, hok, hbls, hwf, hsolv, -, hadm⟩ := BasicRelation.addConstraint_eq_ok
    (c := ⟨a.numerator, kind⟩) hfull (by
      have := h.wellFormed.length
      simp only [Constraint.width, numerator, List.length_drop, BasicRelation.width, hls]
      omega)
  have hbls : b.ls = a.ls := hbls.trans hls
  have hspace : b.space = s := by
    rw [BasicRelation.space, hbls]
    exact h.space
  refine ⟨b, hok, hbls, hwf,
    hsolv (BasicRelation.eachSolvable_ofLocalSpace h.wellFormed.divisions hpos), fun x => ?_⟩
  rw [BasicRelation.mem_iff, hspace]
  refine and_congr_right fun hx => ?_
  have hxa : x.length = a.ls.space.total := by rw [hx, ← h.space]; rfl
  -- All divisions have definitions, so whichever values make the point a member are the ones
  -- that the expression is computed with.
  have hiff : ∀ d, a.ls.Assigns x d → (b.Holds x d ↔ signCondition kind (v x)) := by
    intro d hd
    have hvalue : v x = (Row.dot a.numerator (1 :: (x ++ d)) : ℚ) / (a.row.entry 0 : ℚ) :=
      (h.value x d hx hd).symm
    have hin := (BasicRelation.holds_ofLocalSpace_iff h.wellFormed.divisions hpos hxa).2 hd
    rw [hvalue, ← admits_iff_signCondition h.wellFormed.denominator]
    exact ⟨fun hb => ((hadm _).1 hb.admits).2, fun hk => ⟨hbls ▸ hd, (hadm _).2 ⟨hin.admits, hk⟩⟩⟩
  constructor
  · rintro ⟨d, hd⟩
    exact (hiff d (hbls ▸ hd.assigns)).1 hd
  · intro hv
    obtain ⟨d, hd⟩ := LocalSpace.exists_assigns h.wellFormed.divisions hxa
    exact ⟨d, (hiff d hd).2 hv⟩

theorem Denotes.signSet_eq_ok (h : a.Denotes s v) (hs : s.Proper) (kind : ConstraintKind) :
    ∃ r, a.signSet kind = .ok r ∧ r.Describes s (fun x => signCondition kind (v x)) ∧ r.Known := by
  obtain ⟨b, hok, hbls, hwf, hsolv, hmem⟩ := h.ofAffine_eq_ok kind
  have hspace : b.space = s := by
    rw [BasicRelation.space, hbls]
    exact h.space
  have hlies : b.LiesIn b.space := ⟨hwf, hspace ▸ hs, b.space.agrees_refl⟩
  refine ⟨(Relation.empty b.space).insertAll [b], ?_, ⟨?_, ?_, ?_, fun x => ?_⟩, ?_⟩
  · simp only [signSet, hok, bind, Except.bind, pure, Except.pure]
    rfl
  · rw [Relation.space_insertAll]
    exact hspace
  · exact (Relation.wellFormed_empty (hspace ▸ hs)).insertAll (List.forall_mem_singleton.2 hlies)
  · exact (Relation.tidy_empty _).insertAll (by simpa using hsolv)
  · rw [Relation.mem_insertAll_iff, or_iff_right (Relation.notMem_empty _)]
    simp only [List.mem_singleton, exists_eq_left]
    exact hmem x
  · exact (Relation.known_empty _).insertAll (by
      simpa only [List.mem_singleton, forall_eq, hbls] using h.wellFormed.allKnown)

/-- A value is positive just if its numerator less one is not negative. -/
theorem Denotes.shrink_eq_ok (h : a.Denotes s v) :
    ∃ b w, a.shrink = .ok b ∧ b.Denotes s w ∧
      ∀ x, x.length = s.total → (0 ≤ w x ↔ 0 < v x) := by
  obtain ⟨ls, row⟩ := a
  have hlen := h.wellFormed.length
  cases row with
  | nil => simp at hlen; omega
  | cons m row =>
    cases row with
    | nil => simp at hlen; omega
    | cons c row =>
      have hm : 0 < m := h.wellFormed.denominator
      have hm' : (0 : ℚ) < m := by exact_mod_cast hm
      have hlen' : (m :: (c - 1) :: row).length = 2 + ls.total := by simpa using hlen
      have hquotient : ∀ v, quotient (lowestTerms (m :: (c - 1) :: row)) (1 :: v) =
          quotient (m :: c :: row) (1 :: v) - 1 / m := by
        intro v
        rw [quotient_lowestTerms]
        simp only [quotient, List.drop_one, List.tail_cons, Row.entry_cons_zero, Row.dot_cons]
        rw [← sub_div]
        push_cast
        ring
      have hw : Denotes ⟨ls, lowestTerms (m :: (c - 1) :: row)⟩ s fun x => v x - 1 / m :=
        h.withRow (g := fun q => q - 1 / m) ⟨h.wellFormed.divisions, h.wellFormed.positive,
          (length_lowestTerms _).trans hlen', denominator_lowestTerms hm⟩ hquotient
      refine ⟨_, _, ?_, hw, fun x hx => ?_⟩
      · simp [shrink, ofRow, constant, require, hlen', hm, bind, Except.bind, pure, Except.pure]
      · obtain ⟨d, hd⟩ := LocalSpace.exists_assigns h.wellFormed.divisions
          (hx.trans (by rw [← h.space]; rfl))
        rw [← h.value x d hx hd, quotient]
        simp only [Row.entry_cons_zero]
        rw [← sub_div, le_div_iff₀ hm', lt_div_iff₀ hm', zero_mul, sub_nonneg]
        norm_cast

theorem Denotes.compareZero_eq_ok (h : a.Denotes s v) (hs : s.Proper) (op : Comparison) :
    ∃ r, a.compareZero op = .ok r ∧ r.Describes s (fun x => op.holds (v x) 0 = true) ∧
      r.Known := by
  obtain ⟨above, va, hak, ha, hva⟩ := h.shrink_eq_ok
  obtain ⟨below, vb, hbk, hb, hvb⟩ := h.neg.shrink_eq_ok
  have hvb : ∀ x, x.length = s.total → (0 ≤ vb x ↔ v x < 0) := fun x hx => by rw [hvb x hx, neg_pos]
  obtain ⟨ra, hrak, hra, hka⟩ := ha.signSet_eq_ok hs .inequality
  obtain ⟨rb, hrbk, hrb, hkb⟩ := hb.signSet_eq_ok hs .inequality
  cases op with
  | eq =>
    obtain ⟨r, hok, hr, hk⟩ := h.signSet_eq_ok hs .equality
    exact ⟨r, hok, hr.congr fun x _ => by simp [signCondition, Comparison.holds], hk⟩
  | ge =>
    obtain ⟨r, hok, hr, hk⟩ := h.signSet_eq_ok hs .inequality
    exact ⟨r, hok, hr.congr fun x _ => by simp [signCondition, Comparison.holds], hk⟩
  | le =>
    obtain ⟨r, hok, hr, hk⟩ := h.neg.signSet_eq_ok hs .inequality
    exact ⟨r, hok, hr.congr fun x _ => by simp [signCondition, Comparison.holds], hk⟩
  | gt =>
    refine ⟨ra, by simp only [compareZero, hak, bind, Except.bind, hrak], hra.congr fun x hx => ?_,
      hka⟩
    simp [signCondition, Comparison.holds, hva x hx]
  | lt =>
    refine ⟨rb, by simp only [compareZero, hbk, bind, Except.bind, hrbk], hrb.congr fun x hx => ?_,
      hkb⟩
    simp [signCondition, Comparison.holds, hvb x hx]
  | ne =>
    obtain ⟨r, hok, hr, hk⟩ := hra.union_eq_ok hrb
    refine ⟨r, by simp only [compareZero, hak, hbk, bind, Except.bind, hrak, hrbk, hok],
      hr.congr fun x hx => ?_, hk hka hkb⟩
    simp only [signCondition, hva x hx, hvb x hx, Comparison.holds, decide_eq_true_eq]
    exact ne_iff_gt_or_lt.symm

end Affine

structure Piece.Denotes (p : Piece) (s : Space) (v : Row → ℚ) : Prop where
  domain : ∃ P, p.domain.Describes s P
  known : p.domain.Known
  value : ∃ u, p.value.Denotes s u ∧ ∀ x ∈ p.domain, u x = v x

theorem Piece.Denotes.congr {p : Piece} {s : Space} {v w : Row → ℚ} (h : p.Denotes s v)
    (hvw : ∀ x ∈ p.domain, v x = w x) :
    p.Denotes s w := by
  obtain ⟨u, hu, huv⟩ := h.value
  exact ⟨h.domain, h.known, u, hu, fun x hx => (huv x hx).trans (hvw x hx)⟩

namespace Piecewise

structure Denotes (f : Piecewise) (s : Space) (v : Row → ℚ) : Prop where
  space : f.space = s
  proper : s.Proper
  pieces : ∀ p ∈ f.pieces, p.Denotes s v
  defined : ∀ x, x.length = s.total → ∃ p ∈ f.pieces, x ∈ p.domain

variable {f g : Piecewise} {s : Space} {u v w : Row → ℚ} {o : ℚ → ℚ}

theorem denotes_ofAffine {a : Affine} (h : a.Denotes s v) (hs : s.Proper) :
    (ofAffine a).Denotes s v where
  space := h.space
  proper := hs
  pieces p hp := by
    obtain rfl := List.mem_singleton.1 hp
    rw [h.space]
    exact ⟨⟨_, Relation.describes_full hs⟩, Relation.known_full s, v, h, fun _ _ => rfl⟩
  defined x hx := ⟨_, List.mem_singleton_self _, by rw [h.space, Relation.mem_full_iff, hx]⟩

theorem denotes_const (hs : s.Proper) (c : Int) : (const s c).Denotes s fun _ => c :=
  denotes_ofAffine (Affine.denotes_const s c) hs

section Map

theorem Denotes.mapValues {h : Affine → Affine} (hf : f.Denotes s v)
    (step : ∀ a u, a.Denotes s u → (h a).Denotes s fun x => o (u x)) :
    (f.mapValues h).Denotes s fun x => o (v x) where
  space := hf.space
  proper := hf.proper
  pieces p hp := by
    obtain ⟨q, hq, rfl⟩ := List.mem_map.1 hp
    obtain ⟨hdom, hk, u, hu, hv⟩ := hf.pieces q hq
    exact ⟨hdom, hk, _, step _ u hu, fun x hx => congrArg o (hv x hx)⟩
  defined x hx := by
    obtain ⟨p, hp, hxp⟩ := hf.defined x hx
    exact ⟨_, List.mem_map.2 ⟨p, hp, rfl⟩, hxp⟩

theorem Denotes.mapValuesM_eq_ok {h : Affine → Except Error Affine} (hf : f.Denotes s v)
    (step : ∀ a u, a.Denotes s u → ∃ b, h a = .ok b ∧ b.Denotes s fun x => o (u x)) :
    ∃ g, f.mapValuesM h = .ok g ∧ g.Denotes s fun x => o (v x) := by
  obtain ⟨ps, hok, hps⟩ := mapM_eq_ok
    (f := fun p : Piece => do return { p with value := ← h p.value }) (l := f.pieces)
    (R := fun p q => q.domain = p.domain ∧ q.Denotes s fun x => o (v x)) fun p hp => by
      obtain ⟨hdom, hk, u, hu, hv⟩ := hf.pieces p hp
      obtain ⟨b, hok, hb⟩ := step p.value u hu
      exact ⟨{ p with value := b }, by simp only [hok, bind, Except.bind, pure, Except.pure], rfl,
        hdom, hk, _, hb, fun x hx => congrArg o (hv x hx)⟩
  refine ⟨{ f with pieces := ps }, ?_, hf.space, hf.proper,
    forall_mem_of_forall₂ hps fun _ _ _ h => h.2, fun x hx => ?_⟩
  · rw [mapValuesM, hok]
    rfl
  · refine (exists_mem_iff_of_forall₂ (p := fun p => x ∈ p.domain) hps fun p q h => ?_).2
      (hf.defined x hx)
    rw [h.1]

theorem Denotes.neg (hf : f.Denotes s v) : f.neg.Denotes s fun x => -v x :=
  hf.mapValues (o := fun q => -q) fun _ _ h => h.neg

theorem Denotes.scale (hf : f.Denotes s v) (c : Int) : (f.scale c).Denotes s fun x => c * v x :=
  hf.mapValues (o := fun q => c * q) fun _ _ h => h.scale c

theorem Denotes.scaleDown_eq_ok (hf : f.Denotes s v) {d : Int} (hd : 0 < d) :
    ∃ g, f.scaleDown d = .ok g ∧ g.Denotes s fun x => v x / d :=
  hf.mapValuesM_eq_ok (o := fun q => q / d) fun _ _ h => h.scaleDown_eq_ok hd

theorem Denotes.floor_eq_ok (hf : f.Denotes s v) :
    ∃ g, f.floor = .ok g ∧ g.Denotes s fun x => ⌊v x⌋ :=
  hf.mapValuesM_eq_ok (o := fun q => ⌊q⌋) fun _ _ h => h.floor_eq_ok

theorem Denotes.ceil_eq_ok (hf : f.Denotes s v) :
    ∃ g, f.ceil = .ok g ∧ g.Denotes s fun x => ⌈v x⌉ :=
  hf.mapValuesM_eq_ok (o := fun q => ⌈q⌉) fun _ _ h => h.ceil_eq_ok

theorem Denotes.mod_eq_ok (hf : f.Denotes s v) {m : Int} (hm : 0 < m) :
    ∃ g, f.mod m = .ok g ∧ g.Denotes s fun x => v x - m * ⌊v x / m⌋ :=
  hf.mapValuesM_eq_ok (o := fun q => q - m * ⌊q / m⌋) fun _ _ h => h.mod_eq_ok hm

end Map

section Combine

theorem mem_pairs_iff {pair : Piece × Piece} :
    pair ∈ pairs f g ↔ pair.1 ∈ f.pieces ∧ pair.2 ∈ g.pieces := by
  obtain ⟨p, q⟩ := pair
  simp [pairs]

theorem mem_pieces_insertAll {ps : List Piece} {p : Piece} :
    p ∈ (f.insertAll ps).pieces ↔ p ∈ f.pieces ∨ p ∈ ps ∧ p.domain.isObviouslyEmpty = false := by
  induction ps generalizing f with
  | nil => simp [insertAll]
  | cons q ps ih =>
    rw [insertAll, List.foldl_cons, ← insertAll, ih, insert]
    split
    · rename_i hq
      rw [List.mem_cons, or_and_right]
      refine or_congr_right (or_iff_right ?_).symm
      rintro ⟨rfl, hp⟩
      rw [hq] at hp
      cases hp
    · rename_i hq
      rw [Bool.not_eq_true] at hq
      rw [List.mem_append, List.mem_singleton, List.mem_cons, or_and_right, or_assoc]
      refine or_congr_right (or_congr_left ?_)
      exact ⟨fun h => ⟨h, h ▸ hq⟩, And.left⟩

theorem space_insertAll (f : Piecewise) (ps : List Piece) : (f.insertAll ps).space = f.space := by
  induction ps generalizing f with
  | nil => rfl
  | cons q ps ih =>
    rw [insertAll, List.foldl_cons, ← insertAll, ih, insert]
    split <;> rfl

theorem notMem_of_isObviouslyEmpty {r : Relation} {x : Row} (h : r.isObviouslyEmpty = true) :
    x ∉ r := by
  rintro ⟨b, hb, hx⟩
  exact BasicRelation.notMem_of_isObviouslyEmpty (List.all_eq_true.1 h b hb) hx

/-- What a pair of pieces contributes to a combination of two functions. -/
structure Combines (s : Space) (shared : Relation) (ps : List Piece) (v : Row → ℚ) : Prop where
  denotes : ∀ p ∈ ps, p.Denotes s v
  subset : ∀ p ∈ ps, ∀ x ∈ p.domain, x ∈ shared
  covers : ∀ x ∈ shared, ∃ p ∈ ps, x ∈ p.domain

variable {o : ℚ → ℚ → ℚ} {make : Relation → Affine → Affine → Except Error (List Piece)}

theorem overlap_eq_ok (hf : f.Denotes s u) (hg : g.Denotes s w) {pair : Piece × Piece}
    (hpair : pair ∈ pairs f g)
    (step : ∀ shared P a b ua ub, shared.Describes s P → shared.Known → a.Denotes s ua →
      b.Denotes s ub →
        ∃ ps, make shared a b = .ok ps ∧ Combines s shared ps fun x => o (ua x) (ub x)) :
    ∃ ps, overlap make pair = .ok ps ∧ (∀ p ∈ ps, p.Denotes s fun x => o (u x) (w x)) ∧
      ∀ x, x ∈ pair.1.domain → x ∈ pair.2.domain → ∃ p ∈ ps, x ∈ p.domain := by
  obtain ⟨hp, hq⟩ := mem_pairs_iff.1 hpair
  obtain ⟨⟨P, hP⟩, hpk, ua, hua, hpv⟩ := hf.pieces _ hp
  obtain ⟨⟨Q, hQ⟩, hqk, ub, hub, hqv⟩ := hg.pieces _ hq
  obtain ⟨shared, hok, hshared, hk⟩ := hP.intersect_eq_ok hQ
  have hmem : ∀ x, x ∈ shared ↔ x ∈ pair.1.domain ∧ x ∈ pair.2.domain := fun x => by
    rw [hshared.points, hP.points, hQ.points]
    tauto
  simp only [overlap, hok, bind, Except.bind]
  by_cases hempty : shared.isObviouslyEmpty = true
  · refine ⟨[], by rw [if_pos hempty]; rfl, by simp, fun x hx hy => ?_⟩
    exact absurd ((hmem x).2 ⟨hx, hy⟩) (notMem_of_isObviouslyEmpty hempty)
  · obtain ⟨ps, hmake, hps⟩ := step shared _ _ _ ua ub hshared (hk hpk hqk) hua hub
    refine ⟨ps, by rw [if_neg hempty, hmake], fun p hp => ?_, fun x hx hy =>
      hps.covers x ((hmem x).2 ⟨hx, hy⟩)⟩
    refine (hps.denotes p hp).congr fun x hx => ?_
    obtain ⟨hx₁, hx₂⟩ := (hmem x).1 (hps.subset p hp x hx)
    rw [hpv x hx₁, hqv x hx₂]

theorem Denotes.combine_eq_ok (hf : f.Denotes s u) (hg : g.Denotes s w)
    (step : ∀ shared P a b ua ub, shared.Describes s P → shared.Known → a.Denotes s ua →
      b.Denotes s ub →
        ∃ ps, make shared a b = .ok ps ∧ Combines s shared ps fun x => o (ua x) (ub x)) :
    ∃ h, f.combine g make = .ok h ∧ h.Denotes s fun x => o (u x) (w x) := by
  obtain ⟨pss, hok, hpss⟩ := mapM_eq_ok (f := overlap make) (l := pairs f g)
    fun pair hpair => overlap_eq_ok hf hg hpair step
  have hspace : f.requireSameSpace g = .ok () := by
    simp [requireSameSpace, require, hf.space, hg.space, Space.agrees_refl]
  refine ⟨(empty f.space).insertAll pss.flatten, ?_, ?_, hf.proper, fun p hp => ?_, fun x hx => ?_⟩
  · simp only [combine, hspace, hok, bind, Except.bind, pure, Except.pure]
  · rw [space_insertAll]
    exact hf.space
  · have hp := (mem_pieces_insertAll.1 hp).resolve_left (by simp [empty])
    obtain ⟨pair, hpair, ps, h, hp⟩ := exists_of_mem_flatten hpss hp.1
    exact h.1 p hp
  · obtain ⟨p, hp, hxp⟩ := hf.defined x hx
    obtain ⟨q, hq, hxq⟩ := hg.defined x hx
    obtain ⟨ps, h, hsub⟩ := exists_subset_flatten hpss (mem_pairs_iff.2 ⟨hp, hq⟩ : (p, q) ∈ _)
    obtain ⟨r, hr, hxr⟩ := h.2 x hxp hxq
    refine ⟨r, mem_pieces_insertAll.2 (.inr ⟨hsub hr, ?_⟩), hxr⟩
    exact Bool.eq_false_iff.2 fun h => notMem_of_isObviouslyEmpty h hxr

theorem combines_singleton {shared : Relation} {P : Row → Prop} {a : Affine}
    (hs : shared.Describes s P) (hk : shared.Known) (ha : a.Denotes s v) :
    Combines s shared [⟨shared, a⟩] v where
  denotes := by simpa using ⟨⟨P, hs⟩, hk, v, ha, fun _ _ => rfl⟩
  subset := by simp
  covers x hx := by simpa using hx

theorem Denotes.add_eq_ok (hf : f.Denotes s u) (hg : g.Denotes s w) :
    ∃ h, f.add g = .ok h ∧ h.Denotes s fun x => u x + w x :=
  hf.combine_eq_ok (o := (· + ·)) hg fun shared P a b ua ub hs hk ha hb => by
    obtain ⟨c, hok, hc⟩ := ha.add_eq_ok hb
    exact ⟨_, by simp only [hok, bind, Except.bind, pure, Except.pure], combines_singleton hs hk hc⟩

theorem Denotes.sub_eq_ok (hf : f.Denotes s u) (hg : g.Denotes s w) :
    ∃ h, f.sub g = .ok h ∧ h.Denotes s fun x => u x - w x :=
  hf.combine_eq_ok (o := (· - ·)) hg fun shared P a b ua ub hs hk ha hb => by
    obtain ⟨c, hok, hc⟩ := ha.sub_eq_ok hb
    exact ⟨_, by simp only [hok, bind, Except.bind, pure, Except.pure], combines_singleton hs hk hc⟩

end Combine

end Piecewise

end Quasiaffine
