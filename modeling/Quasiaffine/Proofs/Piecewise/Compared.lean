import Quasiaffine.Proofs.Piecewise.Arithmetic

set_option autoImplicit false

namespace Quasiaffine.Piecewise

variable {f g : Piecewise} {s : Space} {v w : Row → Option ℚ} {set : Relation} {op : Comparison}

def Compare (op : Comparison) (a b : Option ℚ) : Prop := ∃ p ∈ a, ∃ q ∈ b, op.holds p q = true

section Pair

theorem addComparison_spec {pair : Piece × Piece} (hp : pair.1.LiesIn s) (hq : pair.2.LiesIn s)
    (hset : set.WellFormed) (hs : s.agrees set.space = true) (op : Comparison) :
    ∃ r, addComparison op set pair = .ok r ∧ r.space = set.space ∧ r.WellFormed ∧
      ∀ x, x ∈ r ↔ x ∈ set ∨ (x ∈ pair.1.domain ∧ x ∈ pair.2.domain) ∧
        op.holds (pair.1.value.valueAt x) (pair.2.value.valueAt x) = true := by
  obtain ⟨shared, hok, hspace, hwf, -, -, hmem⟩ := Relation.intersect_eq_ok hp.domain hq.domain
    (Space.agrees_trans (Space.agrees_symm hp.agrees) hq.agrees)
  have hss : s.agrees shared.space = true := hspace ▸ hp.agrees
  simp only [addComparison, hok, bind, Except.bind]
  by_cases hempty : shared.isObviouslyEmpty = true
  · refine ⟨set, by rw [if_pos hempty]; rfl, rfl, hset, fun x => (or_iff_left ?_).symm⟩
    rintro ⟨hx, -⟩
    exact notMem_of_isObviouslyEmpty hempty ((hmem x).2 hx)
  · obtain ⟨d, hdok, hd, hdspace, hdvalue⟩ := hp.value.sub_spec hq.value
    obtain ⟨sign, both, hsok, hbok, hbspace, hbwf, -, hbmem⟩ :=
      intersect_compareZero hwf hss hd op
    obtain ⟨r, hrok, hrspace, hrwf, -, -, hrmem⟩ := hset.union_eq_ok hbwf
      (hbspace ▸ Space.agrees_trans (Space.agrees_symm hs) hss)
    refine ⟨r, by simp only [if_neg hempty, hdok, hsok, hbok, hrok], hrspace, hrwf, fun x => ?_⟩
    rw [hrmem, hbmem, ← hmem]
    refine or_congr_right (and_congr_right fun hx => ?_)
    have hlength := (hwf.length_of_mem hx).trans (Space.total_eq_of_agrees
      (Space.agrees_trans (Space.agrees_symm hss) hp.value.agrees) hwf.proper hp.value.proper)
    rw [hdvalue x hlength, Comparison.holds_sub]

theorem foldlM_addComparison_spec (ps : List (Piece × Piece))
    (hps : ∀ pair ∈ ps, pair.1.LiesIn s ∧ pair.2.LiesIn s) (hset : set.WellFormed)
    (hs : s.agrees set.space = true) (op : Comparison) :
    ∃ r, ps.foldlM (addComparison op) set = .ok r ∧ r.space = set.space ∧ r.WellFormed ∧
      ∀ x, x ∈ r ↔ x ∈ set ∨ ∃ pair ∈ ps, (x ∈ pair.1.domain ∧ x ∈ pair.2.domain) ∧
        op.holds (pair.1.value.valueAt x) (pair.2.value.valueAt x) = true := by
  induction ps generalizing set with
  | nil => exact ⟨set, rfl, rfl, hset, by simp⟩
  | cons pair ps ih =>
    rw [List.forall_mem_cons] at hps
    obtain ⟨r₁, hok₁, hs₁, hwf₁, hmem₁⟩ := addComparison_spec hps.1.1 hps.1.2 hset hs op
    obtain ⟨r, hok, hspace, hwf, hmem⟩ := ih hps.2 hwf₁ (hs₁ ▸ hs)
    refine ⟨r, by rw [List.foldlM_cons, hok₁]; exact hok, hspace.trans hs₁, hwf, fun x => ?_⟩
    rw [hmem, hmem₁, List.exists_mem_cons_iff, or_assoc]

theorem Maps.compareSet_eq_ok (hf : f.Maps v) (hg : g.Maps w) (hs : f.space.agrees g.space = true)
    (op : Comparison) :
    ∃ r, f.compareSet g op = .ok r ∧ r.space = f.space ∧ r.WellFormed ∧
      ∀ x, x ∈ r ↔ Compare op (v x) (w x) := by
  obtain ⟨r, hok, hspace, hwf, hmem⟩ := foldlM_addComparison_spec (pairs f g)
    (fun pair hpair => (mem_pairs_iff.1 hpair).imp (hf.pieces _) (hg.pieces_of_agrees hs _))
    (Relation.wellFormed_empty hf.proper) f.space.agrees_refl op
  refine ⟨r, by rw [compareSet, requireSameSpace_eq_ok hs]; exact hok, hspace, hwf, fun x => ?_⟩
  rw [hmem, or_iff_right (Relation.notMem_empty _)]
  constructor
  · rintro ⟨pair, hpair, ⟨hx, hx'⟩, hop⟩
    obtain ⟨hp, hq⟩ := mem_pairs_iff.1 hpair
    exact ⟨_, hf.value _ hp x hx, _, hg.value _ hq x hx', hop⟩
  · rintro ⟨a, ha, b, hb, hop⟩
    obtain ⟨p, hp, hx⟩ := hf.isSome_iff.1 (Option.isSome_of_mem ha)
    obtain ⟨q, hq, hx'⟩ := hg.isSome_iff.1 (Option.isSome_of_mem hb)
    rw [Option.mem_def, hf.value p hp x hx, Option.some.injEq] at ha
    rw [Option.mem_def, hg.value q hq x hx', Option.some.injEq] at hb
    exact ⟨(p, q), mem_pairs_iff.2 ⟨hp, hq⟩, ⟨hx, hx'⟩, by rw [ha, hb, hop]⟩

end Pair

section Lists

variable {fs gs : List Piecewise}

theorem foldlM_compareSet_spec (ps : List (Piecewise × Piecewise))
    (hps : ∀ pair ∈ ps, (pair.1.Separate ∧ pair.2.Separate) ∧
      s.agrees pair.1.space = true ∧ s.agrees pair.2.space = true) (hset : set.WellFormed)
    (hs : s.agrees set.space = true) (op : Comparison) :
    ∃ r, ps.foldlM (fun set pair => do set.intersect (← pair.1.compareSet pair.2 op)) set = .ok r ∧
      ∀ x, x ∈ r ↔ x ∈ set ∧ ∀ pair ∈ ps, Compare op (pair.1.valueAt x) (pair.2.valueAt x) := by
  induction ps generalizing set with
  | nil => exact ⟨set, rfl, by simp⟩
  | cons pair ps ih =>
    rw [List.forall_mem_cons] at hps
    obtain ⟨⟨⟨hf, hg⟩, hsf, hsg⟩, hps⟩ := hps
    obtain ⟨c, hcok, hcs, hcwf, hcmem⟩ := hf.maps.compareSet_eq_ok hg.maps
      (Space.agrees_trans (Space.agrees_symm hsf) hsg) op
    obtain ⟨r₁, hok₁, hs₁, hwf₁, -, -, hmem₁⟩ := Relation.intersect_eq_ok hset hcwf
      (hcs ▸ Space.agrees_trans (Space.agrees_symm hs) hsf)
    obtain ⟨r, hok, hmem⟩ := ih hps hwf₁ (hs₁ ▸ hs)
    refine ⟨r, ?_, fun x => ?_⟩
    · simp only [List.foldlM_cons, hcok, hok₁, bind, Except.bind]
      exact hok
    · rw [hmem, hmem₁, hcmem, List.forall_mem_cons, and_assoc]

theorem compareListSet_spec (hs : s.Proper) (hne : fs ++ gs ≠ [])
    (hfs : ∀ f ∈ fs ++ gs, f.Separate ∧ s.agrees f.space = true) (op : Comparison) :
    ∃ r, compareListSet fs gs op = .ok r ∧ ∀ x, x ∈ r ↔ x.length = s.total ∧
      ∀ f ∈ fs, ∀ g ∈ gs, Compare op (f.valueAt x) (g.valueAt x) := by
  obtain ⟨first, hfirst⟩ := Option.ne_none_iff_exists'.1 (mt List.head?_eq_none_iff.1 hne)
  obtain ⟨hsep, hagrees⟩ := hfs first (List.mem_of_head? hfirst)
  obtain ⟨r, hok, hmem⟩ := foldlM_compareSet_spec
    (fs.flatMap fun f => gs.map fun g => (f, g)) (s := s) (fun pair hpair => by
      obtain ⟨f, hf, hpair⟩ := List.mem_flatMap.1 hpair
      obtain ⟨g, hg, rfl⟩ := List.mem_map.1 hpair
      have hf := hfs f (List.mem_append_left _ hf)
      have hg := hfs g (List.mem_append_right _ hg)
      exact ⟨⟨hf.1, hg.1⟩, hf.2, hg.2⟩) (Relation.wellFormed_full hsep.proper) hagrees op
  refine ⟨r, by rw [compareListSet, hfirst]; exact hok, fun x => ?_⟩
  rw [hmem, Relation.mem_full_iff, Space.total_eq_of_agrees hagrees hs hsep.proper]
  refine and_congr_right fun _ => ⟨fun h f hf g hg => ?_, fun h pair hpair => ?_⟩
  · exact h (f, g) (List.mem_flatMap.2 ⟨f, hf, List.mem_map_of_mem hg⟩)
  · obtain ⟨f, hf, hpair⟩ := List.mem_flatMap.1 hpair
    obtain ⟨g, hg, rfl⟩ := List.mem_map.1 hpair
    exact h f hf g hg

/-- Comparison sets can always be had and have the points they should. Values are rational numbers,
and a strict comparison of them is one of numerators with 1. -/
theorem compareSet_exact (hs : s.Proper) (op : Comparison) :
    (∀ f g : Piecewise, f.Separate → g.Separate → f.space.agrees g.space = true →
      ∃ r, f.compareSet g op = .ok r ∧ ∀ x, x ∈ r ↔
        ∃ p q, f.valueAt x = some p ∧ g.valueAt x = some q ∧ op.holds p q = true) ∧
    ∀ fs gs : List Piecewise, fs ++ gs ≠ [] →
      (∀ f ∈ fs ++ gs, f.Separate ∧ s.agrees f.space = true) →
      ∃ r, compareListSet fs gs op = .ok r ∧ ∀ x, x ∈ r ↔ x.length = s.total ∧
        ∀ f ∈ fs, ∀ g ∈ gs,
          ∃ p q, f.valueAt x = some p ∧ g.valueAt x = some q ∧ op.holds p q = true := by
  have hcompare : ∀ a b : Option ℚ, Compare op a b ↔
      ∃ p q, a = some p ∧ b = some q ∧ op.holds p q = true := by
    simp only [Compare, Option.mem_def]
    tauto
  simp only [← hcompare]
  refine ⟨fun f g hf hg hfg => ?_, fun fs gs hne hfs => compareListSet_spec hs hne hfs op⟩
  obtain ⟨r, hok, -, -, hmem⟩ := hf.maps.compareSet_eq_ok hg.maps hfg op
  exact ⟨r, hok, hmem⟩

/-- Rounding down makes the half of 5 no greater than a third of 6, and that of -5 less than a third
of -4. -/
theorem compareSet_exact_halfThird :
    (LocalSpace.overOneVariable []).space.Proper ∧
      (∃ r, (ofAffine half).compareSet (ofAffine third) .lt = .ok r ∧ [-5] ∈ r ∧ [5] ∉ r) ∧
      ∃ r, compareListSet [ofAffine half] [ofAffine half, ofAffine third] .lt = .ok r ∧
        [-5] ∉ r := by
  obtain ⟨hpair, hlists⟩ := compareSet_exact proper_line .lt
  have hvalue : ∀ {x : Row} {p q : ℚ}, x.length = 1 → half.eval x = .ok p → third.eval x = .ok q →
      (ofAffine half).valueAt x = some p ∧ (ofAffine third).valueAt x = some q :=
    fun hx hp hq => ⟨valueAt_ofAffine wellFormed_half proper_line hp hx,
      valueAt_ofAffine wellFormed_third proper_line hq hx⟩
  have hbelow := hvalue (x := [-5]) (p := -3) (q := -4 / 3) rfl (by decide +kernel) (by decide +kernel)
  have habove := hvalue (x := [5]) (p := 2) (q := 2) rfl (by decide +kernel) (by decide +kernel)
  obtain ⟨r, hok, hmem⟩ := hpair _ _ separate_half separate_third rfl
  obtain ⟨r', hok', hmem'⟩ := hlists [ofAffine half] [ofAffine half, ofAffine third] (by simp)
    (by simp [separate_half, separate_third]; decide)
  refine ⟨proper_line, ⟨r, hok, (hmem _).2 ⟨_, _, hbelow.1, hbelow.2, by decide +kernel⟩, fun h => ?_⟩,
    r', hok', fun h => ?_⟩
  · obtain ⟨p, q, hp, hq, hop⟩ := (hmem _).1 h
    obtain rfl := Option.some.inj (hp.symm.trans habove.1)
    obtain rfl := Option.some.inj (hq.symm.trans habove.2)
    exact absurd hop (by decide +kernel)
  · obtain ⟨p, q, hp, hq, hop⟩ := ((hmem' _).1 h).2 _ List.mem_cons_self _ List.mem_cons_self
    obtain rfl := Option.some.inj (hp.symm.trans hq)
    exact absurd hop (by simp [Comparison.holds])

end Lists

end Quasiaffine.Piecewise
