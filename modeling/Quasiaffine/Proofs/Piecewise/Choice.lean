import Quasiaffine.Proofs.Piecewise.Values

set_option autoImplicit false

namespace Quasiaffine

namespace Comparison

theorem holds_sub (op : Comparison) (p q : ℚ) : op.holds (p - q) 0 = op.holds p q := by
  cases op <;> simp [holds, sub_eq_zero]

theorem holds_negate (op : Comparison) (p q : ℚ) : op.negate.holds p q = !op.holds p q := by
  cases op <;> simp only [holds, negate, ← decide_not] <;> simp

end Comparison

namespace Piecewise

variable {f g : Piecewise} {s : Space} {u w : Row → ℚ}

section Choose

def chosen (op : Comparison) (p q : ℚ) : ℚ := if op.holds p q then p else q

theorem chosen_le (p q : ℚ) : chosen .le p q = Min.min p q := by
  simp [chosen, Comparison.holds, min_def]

theorem chosen_ge (p q : ℚ) : chosen .ge p q = Max.max p q := by
  simp only [chosen, Comparison.holds, decide_eq_true_eq, max_comm p q, max_def]

theorem Denotes.choose_eq_ok (hf : f.Denotes s u) (hg : g.Denotes s w) (op : Comparison) :
    ∃ h, f.choose g op = .ok h ∧ h.Denotes s fun x => chosen op (u x) (w x) := by
  refine hf.combine_eq_ok hg fun shared P a b ua ub hs hk ha hb => ?_
  obtain ⟨d, hdok, hd⟩ := ha.sub_eq_ok hb
  obtain ⟨p, hpok, hp, hpk⟩ := hd.compareZero_eq_ok hf.proper op
  obtain ⟨q, hqok, hq, hqk⟩ := hd.compareZero_eq_ok hf.proper op.negate
  obtain ⟨first, hfok, hfirst, hfk⟩ := hs.intersect_eq_ok hp
  obtain ⟨second, hsok, hsecond, hsk⟩ := hs.intersect_eq_ok hq
  have hmem₁ : ∀ x, x ∈ first ↔ x ∈ shared ∧ op.holds (ua x) (ub x) = true := fun x => by
    rw [hfirst.points, hs.points, and_assoc, Comparison.holds_sub]
  have hmem₂ : ∀ x, x ∈ second ↔ x ∈ shared ∧ op.holds (ua x) (ub x) = false := fun x => by
    rw [hsecond.points, hs.points, and_assoc, Comparison.holds_negate, Comparison.holds_sub,
      Bool.not_eq_true']
  refine ⟨[⟨first, a⟩, ⟨second, b⟩], by simp only [hdok, hpok, hqok, hfok, hsok, bind, Except.bind,
    pure, Except.pure], ⟨?_, ?_, fun x hx => ?_⟩⟩
  · rw [List.forall_mem_cons, List.forall_mem_singleton]
    refine ⟨⟨⟨_, hfirst⟩, hfk hk hpk, ua, ha, fun x hx => ?_⟩,
      ⟨⟨_, hsecond⟩, hsk hk hqk, ub, hb, fun x hx => ?_⟩⟩
    · simp [chosen, ((hmem₁ x).1 hx).2]
    · simp [chosen, ((hmem₂ x).1 hx).2]
  · rw [List.forall_mem_cons, List.forall_mem_singleton]
    exact ⟨fun x hx => ((hmem₁ x).1 hx).1, fun x hx => ((hmem₂ x).1 hx).1⟩
  · cases hop : op.holds (ua x) (ub x) with
    | true => exact ⟨_, List.mem_cons_self, (hmem₁ x).2 ⟨hx, hop⟩⟩
    | false => exact ⟨_, List.mem_cons_of_mem _ List.mem_cons_self, (hmem₂ x).2 ⟨hx, hop⟩⟩

theorem Denotes.min_eq_ok (hf : f.Denotes s u) (hg : g.Denotes s w) :
    ∃ h, f.min g = .ok h ∧ h.Denotes s fun x => Min.min (u x) (w x) := by
  simp only [← chosen_le]
  exact hf.choose_eq_ok hg .le

theorem Denotes.max_eq_ok (hf : f.Denotes s u) (hg : g.Denotes s w) :
    ∃ h, f.max g = .ok h ∧ h.Denotes s fun x => Max.max (u x) (w x) := by
  simp only [← chosen_ge]
  exact hf.choose_eq_ok hg .ge

abbrev DenoteAll (s : Space) : List Piecewise → List (Row → ℚ) → Prop :=
  List.Forall₂ fun f v => f.Denotes s v

variable {op : Piecewise → Piecewise → Except Error Piecewise} {op₂ : ℚ → ℚ → ℚ}
  {fs gs : List Piecewise} {us ws : List (Row → ℚ)}

theorem foldlM_eq_ok_of_denotes
    (step : ∀ f g u w, f.Denotes s u → g.Denotes s w →
      ∃ h, op f g = .ok h ∧ h.Denotes s fun x => op₂ (u x) (w x))
    (hf : f.Denotes s u) (hfs : DenoteAll s fs us) :
    ∃ h, fs.foldlM op f = .ok h ∧
      h.Denotes s fun x => (us.map (· x)).foldl op₂ (u x) := by
  induction hfs generalizing f u with
  | nil => exact ⟨f, rfl, hf⟩
  | cons hg _ ih =>
    obtain ⟨h, hok, hh⟩ := step _ _ _ _ hf hg
    obtain ⟨r, hrok, hr⟩ := ih hh
    exact ⟨r, by simp only [List.foldlM_cons, hok, bind, Except.bind, hrok], hr⟩

theorem minList_eq_ok (hfs : DenoteAll s (f :: fs) (u :: us)) :
    ∃ h, minList (f :: fs) = .ok h ∧ h.Denotes s fun x => (us.map (· x)).foldl Min.min (u x) := by
  cases hfs with
  | cons hf hfs =>
    exact foldlM_eq_ok_of_denotes (fun _ _ _ _ hf hg => hf.min_eq_ok hg) hf hfs

theorem maxList_eq_ok (hfs : DenoteAll s (f :: fs) (u :: us)) :
    ∃ h, maxList (f :: fs) = .ok h ∧ h.Denotes s fun x => (us.map (· x)).foldl Max.max (u x) := by
  cases hfs with
  | cons hf hfs =>
    exact foldlM_eq_ok_of_denotes (fun _ _ _ _ hf hg => hf.max_eq_ok hg) hf hfs

end Choose

section Compare

variable {op : Comparison} {set : Relation} {P : Row → Prop}

theorem addComparison_eq_ok (hf : f.Denotes s u) (hg : g.Denotes s w) (op : Comparison)
    {pair : Piece × Piece} (hpair : pair ∈ pairs f g) (hset : set.Describes s P)
    (hk : set.Known) :
    ∃ r, addComparison op set pair = .ok r ∧ r.Known ∧
      r.Describes s fun x => P x ∨ (x ∈ pair.1.domain ∧ x ∈ pair.2.domain) ∧
        op.holds (u x) (w x) = true := by
  obtain ⟨hp, hq⟩ := mem_pairs_iff.1 hpair
  obtain ⟨⟨P', hP⟩, hpk, ua, hua, hpv⟩ := hf.pieces _ hp
  obtain ⟨⟨Q', hQ⟩, hqk, ub, hub, hqv⟩ := hg.pieces _ hq
  obtain ⟨shared, hok, hshared, hsk⟩ := hP.intersect_eq_ok hQ
  have hmem : ∀ x, x ∈ shared ↔ x ∈ pair.1.domain ∧ x ∈ pair.2.domain := fun x => by
    rw [hshared.points, hP.points, hQ.points]
    tauto
  simp only [addComparison, hok, bind, Except.bind]
  by_cases hempty : shared.isObviouslyEmpty = true
  · refine ⟨set, by rw [if_pos hempty]; rfl, hk, hset.congr fun x _ => (or_iff_left ?_).symm⟩
    rintro ⟨hx, -⟩
    exact notMem_of_isObviouslyEmpty hempty ((hmem x).2 hx)
  · obtain ⟨d, hdok, hd⟩ := hua.sub_eq_ok hub
    obtain ⟨sign, hsok, hsign, hsignk⟩ := hd.compareZero_eq_ok hf.proper op
    obtain ⟨both, hbok, hboth, hbk⟩ := hshared.intersect_eq_ok hsign
    obtain ⟨r, hrok, hr, hrk⟩ := hset.union_eq_ok hboth
    refine ⟨r, by simp only [hempty, hdok, hsok, hbok, hrok, Bool.false_eq_true, if_false],
      hrk hk (hbk (hsk hpk hqk) hsignk), hr.congr fun x hx => or_congr_right ?_⟩
    rw [Comparison.holds_sub, ← hmem, hshared.points, and_iff_right hx]
    refine and_congr_right fun hxs => ?_
    obtain ⟨hx₁, hx₂⟩ := (hmem x).1 ((hshared.points x).2 ⟨hx, hxs⟩)
    rw [hpv x hx₁, hqv x hx₂]

theorem foldlM_addComparison_eq_ok (hf : f.Denotes s u) (hg : g.Denotes s w) (op : Comparison)
    (ps : List (Piece × Piece)) (hps : ∀ pair ∈ ps, pair ∈ pairs f g) (hset : set.Describes s P)
    (hk : set.Known) :
    ∃ r, ps.foldlM (addComparison op) set = .ok r ∧ r.Known ∧
      r.Describes s fun x => P x ∨ (∃ pair ∈ ps, x ∈ pair.1.domain ∧ x ∈ pair.2.domain) ∧
        op.holds (u x) (w x) = true := by
  induction ps generalizing set P with
  | nil => exact ⟨set, rfl, hk, hset.congr fun x _ => by simp⟩
  | cons pair ps ih =>
    rw [List.forall_mem_cons] at hps
    obtain ⟨r, hok, hrk, hr⟩ := addComparison_eq_ok hf hg op hps.1 hset hk
    obtain ⟨r', hok', hrk', hr'⟩ := ih hps.2 hr hrk
    refine ⟨r', by simp only [List.foldlM_cons, hok, bind, Except.bind, hok'], hrk',
      hr'.congr fun x _ => ?_⟩
    rw [List.exists_mem_cons_iff, or_assoc, or_and_right]

theorem Denotes.compareSet_eq_ok (hf : f.Denotes s u) (hg : g.Denotes s w) (op : Comparison) :
    ∃ r, f.compareSet g op = .ok r ∧ r.Known ∧
      r.Describes s fun x => op.holds (u x) (w x) = true := by
  have hspace : f.requireSameSpace g = .ok () := by
    simp [requireSameSpace, require, hf.space, hg.space, Space.agrees_refl]
  obtain ⟨r, hok, hk, hr⟩ := foldlM_addComparison_eq_ok hf hg op (pairs f g) (fun _ h => h)
    (Relation.describes_empty hf.proper) (Relation.known_empty s)
  refine ⟨r, by simp only [compareSet, hspace, bind, Except.bind, hf.space, hok], hk,
    hr.congr fun x hx => ?_⟩
  rw [false_or, and_iff_right_iff_imp]
  intro _
  obtain ⟨p, hp, hxp⟩ := hf.defined x hx
  obtain ⟨q, hq, hxq⟩ := hg.defined x hx
  exact ⟨(p, q), mem_pairs_iff.2 ⟨hp, hq⟩, hxp, hxq⟩

variable {fs gs : List Piecewise} {us ws : List (Row → ℚ)}

theorem foldlM_compareSet_eq_ok (op : Comparison) {pairs : List (Piecewise × Piecewise)}
    {values : List ((Row → ℚ) × (Row → ℚ))}
    (h : List.Forall₂ (fun pair value => pair.1.Denotes s value.1 ∧ pair.2.Denotes s value.2) pairs
      values) (hset : set.Describes s P) (hk : set.Known) :
    ∃ r, pairs.foldlM (fun set pair => do set.intersect (← pair.1.compareSet pair.2 op)) set =
        .ok r ∧ r.Known ∧
      r.Describes s fun x => P x ∧ ∀ value ∈ values, op.holds (value.1 x) (value.2 x) = true := by
  induction h generalizing set P with
  | nil => exact ⟨set, rfl, hk, hset.congr fun x _ => by simp⟩
  | cons hpair _ ih =>
    obtain ⟨c, hcok, hck, hc⟩ := hpair.1.compareSet_eq_ok hpair.2 op
    obtain ⟨r, hok, hr, hrk⟩ := hset.intersect_eq_ok hc
    obtain ⟨r', hok', hrk', hr'⟩ := ih hr (hrk hk hck)
    refine ⟨r', by simp only [List.foldlM_cons, hcok, hok, bind, Except.bind]; exact hok', hrk',
      hr'.congr fun x _ => ?_⟩
    rw [List.forall_mem_cons, and_assoc]

theorem forall₂_flatMap_pairs (hfs : DenoteAll s fs us) (hgs : DenoteAll s gs ws) :
    List.Forall₂ (fun pair value => pair.1.Denotes s value.1 ∧ pair.2.Denotes s value.2)
      (fs.flatMap fun f => gs.map fun g => (f, g)) (us.flatMap fun u => ws.map fun w => (u, w)) := by
  induction hfs with
  | nil => exact .nil
  | cons hf _ ih =>
    simp only [List.flatMap_cons]
    refine List.rel_append ?_ ih
    rw [List.forall₂_map_left_iff, List.forall₂_map_right_iff]
    exact hgs.imp fun _ _ hg => ⟨hf, hg⟩

theorem compareListSet_eq_ok (hfs : DenoteAll s fs us) (hgs : DenoteAll s gs ws) (hne : fs ≠ [])
    (op : Comparison) :
    ∃ r, compareListSet fs gs op = .ok r ∧ r.Known ∧
      r.Describes s fun x => ∀ u ∈ us, ∀ w ∈ ws, op.holds (u x) (w x) = true := by
  have hpairs := forall₂_flatMap_pairs hfs hgs
  cases hfs with
  | nil => exact absurd rfl hne
  | cons hf hfs =>
    obtain ⟨r, hok, hk, hr⟩ := foldlM_compareSet_eq_ok op hpairs
      (Relation.describes_full hf.proper) (Relation.known_full s)
    refine ⟨r, ?_, hk, hr.congr fun x _ => ?_⟩
    · simp only [compareListSet, List.cons_append, List.head?_cons, hf.space]
      exact hok
    · simp only [true_and, List.mem_flatMap, List.mem_map]
      constructor
      · intro h u hu w hw
        exact h (u, w) ⟨u, hu, w, hw, rfl⟩
      · rintro h _ ⟨u, hu, w, hw, rfl⟩
        exact h u hu w hw

end Compare

end Piecewise

end Quasiaffine
