import Quasiaffine.BasicRelation.Membership
import Quasiaffine.Proofs.BasicRelation.Definitions

/-!
The values that the membership test tries for a division. An equality fixes the value. Without one
the inequalities leave the integers between a least and a greatest one, and the test tries those not
too far from one of the two, from the least if there is one, or from zero if there is neither.
-/

set_option autoImplicit false

namespace Quasiaffine.BasicRelation

variable {b : BasicRelation} {c : Constraint} {cs : List Constraint} {div values : Row}
  {low high : Option Int} {a n v radius : Int}

section Bounds

def lowerBounds (b : BasicRelation) (pos : Nat) : List Constraint :=
  b.constraints.filter fun c => boundsLast pos c && c.isInequality && decide (0 < c.row.entry pos)

def upperBounds (b : BasicRelation) (pos : Nat) : List Constraint :=
  b.constraints.filter fun c => boundsLast pos c && c.isInequality && decide (c.row.entry pos < 0)

def solutions (cs : List Constraint) (values : Row) : Set Int :=
  {v | ∀ c ∈ cs, c.isSatisfied (values ++ [v]) = true}

/-- The division behind `values` has a value that is fixed or not too far from where the test starts
to look. -/
inductive Reaches (b : BasicRelation) (radius : Int) (values : Row) (v : Int) : Prop
  | fixed {c : Constraint} (mem : c ∈ b.constraints) (equality : c.isEquality = true)
      (last : boundsLast values.length c = true)
  | free (noLower : b.lowerBounds values.length = []) (noUpper : b.upperBounds values.length = [])
      (near : |v| ≤ radius)
  | above {l : Int} (least : IsLeast (solutions (b.lowerBounds values.length) values) l)
      (near : v ≤ l + 2 * radius)
  | below {h : Int} (noLower : b.lowerBounds values.length = [])
      (greatest : IsGreatest (solutions (b.upperBounds values.length) values) h)
      (near : h - 2 * radius ≤ v)

theorem dot_concat_of_boundsLast (h : boundsLast values.length c = true) (v : Int) :
    c.row.dot (values ++ [v]) =
      c.row.entry values.length * v + Row.dot (c.row.take values.length) values := by
  have hlt := Row.lt_length_of_entry_ne_zero (boundsLast_iff.1 h).1
  have hdrop : c.row.drop values.length =
      c.row.entry values.length :: c.row.drop (values.length + 1) := by
    rw [List.drop_eq_getElem_cons hlt]
    simp [Row.entry, hlt]
  conv_lhs => rw [← List.take_append_drop values.length c.row]
  rw [Row.dot_append (by simp; omega), hdrop, Row.dot_cons, Row.dot_nil_right, Int.add_zero,
    Int.add_comm]

theorem ceilDiv_le_iff (ha : 0 < a) : ceilDiv n a ≤ v ↔ n ≤ a * v := by
  rw [ceilDiv, Int.fdiv_eq_ediv_of_nonneg _ (Int.le_of_lt ha), neg_le,
    Int.le_ediv_iff_mul_le ha, Int.neg_mul, Int.neg_le_neg_iff, Int.mul_comm]

theorem le_fdiv_neg_iff (ha : a < 0) : v ≤ n.fdiv (-a) ↔ 0 ≤ a * v + n := by
  rw [Int.fdiv_eq_ediv_of_nonneg _ (by omega), Int.le_ediv_iff_mul_le (by omega), Int.mul_neg,
    Int.mul_comm]
  omega

end Bounds

namespace Window

theorem forall_raise_iff :
    (∀ l ∈ raise low n, l ≤ v) ↔ (∀ l ∈ low, l ≤ v) ∧ n ≤ v := by
  cases low with
  | none => simp [raise]
  | some l =>
    simp only [raise, Option.mem_def, Option.some.injEq, forall_eq']
    split <;> omega

theorem forall_lower_iff :
    (∀ h ∈ lower high n, v ≤ h) ↔ (∀ h ∈ high, v ≤ h) ∧ v ≤ n := by
  cases high with
  | none => simp [lower]
  | some h =>
    simp only [lower, Option.mem_def, Option.some.injEq, forall_eq']
    split <;> omega

theorem eq_some_of_isLeast {s : Set Int} {l : Int} (hlow : ∀ v, (∀ l ∈ low, l ≤ v) ↔ v ∈ s)
    (h : IsLeast s l) : low = some l := by
  cases low with
  | none =>
    have := h.2 ((hlow (l - 1)).1 nofun)
    omega
  | some l' =>
    have hle : l' ≤ l := (hlow l).2 h.1 l' rfl
    have hge : l ≤ l' := h.2 ((hlow l').1 fun m hm => Int.le_of_eq (Option.some.inj hm).symm)
    rw [Int.le_antisymm hle hge]

theorem eq_some_of_isGreatest {s : Set Int} {u : Int} (hhigh : ∀ v, (∀ h ∈ high, v ≤ h) ↔ v ∈ s)
    (h : IsGreatest s u) : high = some u := by
  cases high with
  | none =>
    have := h.2 ((hhigh (u + 1)).1 nofun)
    omega
  | some u' =>
    have hle : u ≤ u' := (hhigh u).2 h.1 u' rfl
    have hge : u' ≤ u := h.2 ((hhigh u').1 fun m hm => Int.le_of_eq (Option.some.inj hm))
    rw [Int.le_antisymm hge hle]

theorem raise_ne_none : raise low n ≠ none := by cases low <;> simp [raise]

theorem lower_ne_none : lower high n ≠ none := by cases high <;> simp [lower]

theorem mem_integers_iff {first last : Int} : v ∈ integers first last ↔ first ≤ v ∧ v ≤ last := by
  simp only [integers, List.mem_map, List.mem_range]
  constructor
  · rintro ⟨i, hi, rfl⟩
    omega
  · intro h
    exact ⟨(v - first).toNat, by omega, by omega⟩

theorem candidates_mono {window : Window} {radius' : Int} (hr : radius ≤ radius')
    (h : v ∈ window.candidates radius) : v ∈ window.candidates radius' := by
  match window with
  | solved _ => exact h
  | between (some l) (some u) =>
    simp only [candidates, mem_integers_iff] at h ⊢
    split at h <;> split <;> omega
  | between (some l) none =>
    simp only [candidates, mem_integers_iff] at h ⊢
    omega
  | between none (some u) =>
    simp only [candidates, mem_integers_iff] at h ⊢
    omega
  | between none none =>
    simp only [candidates, mem_integers_iff] at h ⊢
    omega

/-- What a constraint leaves of the window of the division behind `values`. -/
def narrowBy (values : Row) (window : Window) (c : Constraint) : Window :=
  window.narrow c.kind (c.row.entry values.length) (Row.dot (c.row.take values.length) values)

theorem narrowBy_between (values : Row) (low high : Option Int) (c : Constraint) :
    narrowBy values (between low high) c =
      let a := c.row.entry values.length
      let rest := Row.dot (c.row.take values.length) values
      match c.kind with
      | .equality => solved (if (-rest).tmod a = 0 then [(-rest).tdiv a] else [])
      | .inequality =>
        if 0 < a then between (raise low (ceilDiv (-rest) a)) high
        else between low (lower high (rest.fdiv (-a))) := by
  rw [narrowBy]
  cases c.kind <;> rfl

theorem foldl_narrowBy_solved (cs : List Constraint) (vs : List Int) :
    cs.foldl (narrowBy values) (solved vs) = solved vs := by
  induction cs with
  | nil => rfl
  | cons c cs ih => exact ih

theorem foldl_narrowBy_of_equality (hlast : ∀ c ∈ cs, boundsLast values.length c = true)
    (hsat : v ∈ solutions cs values) (heq : ∃ c ∈ cs, c.kind = .equality) (low high : Option Int) :
    cs.foldl (narrowBy values) (between low high) = solved [v] := by
  induction cs generalizing low high with
  | nil => simp at heq
  | cons c cs ih =>
    have hc := hsat c List.mem_cons_self
    rw [Constraint.isSatisfied_iff, ConstraintKind.admits_iff,
      dot_concat_of_boundsLast (hlast c List.mem_cons_self)] at hc
    have ha := (boundsLast_iff.1 (hlast c List.mem_cons_self)).1
    cases hkind : c.kind with
    | equality =>
      rw [hkind] at hc
      have hrest : -Row.dot (c.row.take values.length) values = c.row.entry values.length * v := by
        simp only at hc
        omega
      rw [List.foldl_cons, narrowBy_between, hkind]
      simp only [hrest, Int.mul_tmod_right, if_true, Int.mul_tdiv_cancel_left _ ha]
      exact foldl_narrowBy_solved cs [v]
    | inequality =>
      obtain ⟨c', hc', hk'⟩ := heq
      have hmem : c' ∈ cs := (List.mem_cons.1 hc').resolve_left fun h => by
        rw [← h, hk'] at hkind
        cases hkind
      rw [List.foldl_cons, narrowBy_between, hkind]
      dsimp only
      split <;> exact ih (fun c hc => hlast c (List.mem_cons_of_mem _ hc))
        (fun c hc => hsat c (List.mem_cons_of_mem _ hc)) ⟨c', hmem, hk'⟩ _ _

theorem foldl_narrowBy_of_inequalities (hlast : ∀ c ∈ cs, boundsLast values.length c = true)
    (hkind : ∀ c ∈ cs, c.kind = .inequality) (low high : Option Int) :
    ∃ low' high', cs.foldl (narrowBy values) (between low high) = between low' high' ∧
      (∀ v, (∀ l ∈ low', l ≤ v) ↔ (∀ l ∈ low, l ≤ v) ∧
        v ∈ solutions (cs.filter fun c => 0 < c.row.entry values.length) values) ∧
      (∀ v, (∀ h ∈ high', v ≤ h) ↔ (∀ h ∈ high, v ≤ h) ∧
        v ∈ solutions (cs.filter fun c => c.row.entry values.length < 0) values) ∧
      (low' = none ↔ low = none ∧ cs.filter (fun c => 0 < c.row.entry values.length) = []) ∧
      (high' = none ↔
        high = none ∧ cs.filter (fun c => c.row.entry values.length < 0) = []) := by
  induction cs generalizing low high with
  | nil => exact ⟨low, high, rfl, by simp [solutions]⟩
  | cons c cs ih =>
    rw [List.forall_mem_cons] at hlast hkind
    have hne := (boundsLast_iff.1 hlast.1).1
    have hsat : ∀ v, c.isSatisfied (values ++ [v]) = true ↔
        0 ≤ c.row.entry values.length * v + Row.dot (c.row.take values.length) values := by
      intro v
      rw [Constraint.isSatisfied_iff, ConstraintKind.admits_iff, hkind.1,
        dot_concat_of_boundsLast hlast.1]
    simp only [List.foldl_cons, narrowBy_between, hkind.1]
    -- A negative coefficient bounds the value from above and a positive one from below.
    rcases Int.lt_or_gt_of_ne hne with hneg | hpos
    · obtain ⟨low', high', hok, hlow, hhigh, hnl, hnh⟩ := ih hlast.2 hkind.2 low
        (lower high (Row.dot (c.row.take values.length) values |>.fdiv
          (-c.row.entry values.length)))
      have hnot : ¬0 < c.row.entry values.length := by omega
      refine ⟨low', high', ?_, fun v => ?_, fun v => ?_, ?_, ?_⟩
      · simpa [hnot] using hok
      · simpa [hnot] using hlow v
      · rw [hhigh, forall_lower_iff, le_fdiv_neg_iff hneg, ← hsat]
        simp [solutions, hneg, and_assoc]
      · simpa [hnot] using hnl
      · simp [hnh, lower_ne_none, hneg]
    · obtain ⟨low', high', hok, hlow, hhigh, hnl, hnh⟩ := ih hlast.2 hkind.2
        (raise low (ceilDiv (-Row.dot (c.row.take values.length) values)
          (c.row.entry values.length))) high
      have hnot : ¬c.row.entry values.length < 0 := by omega
      refine ⟨low', high', ?_, fun v => ?_, fun v => ?_, ?_, ?_⟩
      · simpa [hpos] using hok
      · rw [hlow, forall_raise_iff, ceilDiv_le_iff hpos, ← Int.sub_nonneg, Int.sub_neg, ← hsat]
        simp [solutions, hpos, and_assoc]
      · simpa [hnot] using hhigh v
      · simp [hnl, raise_ne_none, hpos]
      · simpa [hnot] using hnh

end Window

theorem candidates_eq (hdiv : Division.isKnown div = false) :
    b.candidates radius div values =
      ((b.constraints.filter (boundsLast values.length)).foldl (Window.narrowBy values)
        (.between none none)).candidates radius := by
  simp only [candidates, hdiv, Bool.false_eq_true, if_false]
  rfl

theorem filter_boundsLast (hkind : ∀ c ∈ b.constraints.filter (boundsLast values.length),
    c.kind = .inequality) (side : Constraint → Bool) :
    (b.constraints.filter (boundsLast values.length)).filter side =
      b.constraints.filter fun c => boundsLast values.length c && c.isInequality && side c := by
  rw [List.filter_filter]
  refine List.filter_congr fun c hc => ?_
  cases hlast : boundsLast values.length c with
  | false => simp
  | true => simp [Constraint.isInequality, hkind c (List.mem_filter.2 ⟨hc, hlast⟩)]

/-- Inequalities leave the values between two bounds, either of which is missing if there is no
inequality for it. -/
theorem candidates_of_inequalities (hdiv : Division.isKnown div = false)
    (hkind : ∀ c ∈ b.constraints.filter (boundsLast values.length), c.kind = .inequality) :
    ∃ low high, b.candidates radius div values = (Window.between low high).candidates radius ∧
      (∀ v, (∀ l ∈ low, l ≤ v) ↔ v ∈ solutions (b.lowerBounds values.length) values) ∧
      (∀ v, (∀ h ∈ high, v ≤ h) ↔ v ∈ solutions (b.upperBounds values.length) values) ∧
      (low = none ↔ b.lowerBounds values.length = []) ∧
      (high = none ↔ b.upperBounds values.length = []) := by
  have hlower : _ = b.lowerBounds values.length := filter_boundsLast hkind _
  have hupper : _ = b.upperBounds values.length := filter_boundsLast hkind _
  obtain ⟨low, high, hok, hlow, hhigh, hnl, hnh⟩ :=
    Window.foldl_narrowBy_of_inequalities (fun c hc => (List.mem_filter.1 hc).2) hkind none none
  rw [hlower] at hlow hnl
  rw [hupper] at hhigh hnh
  simp only [Option.not_mem_none, false_imp_iff, implies_true, true_and] at hlow hhigh hnl hnh
  exact ⟨low, high, by rw [candidates_eq hdiv, hok], hlow, hhigh, hnl, hnh⟩

/-- A value with which the constraints hold is tried if it lies within reach. -/
theorem mem_candidates (hdiv : Division.isKnown div = false)
    (hsat : v ∈ solutions (b.constraints.filter (boundsLast values.length)) values)
    (hv : b.Reaches radius values v) : v ∈ b.candidates radius div values := by
  by_cases heq : ∃ c ∈ b.constraints.filter (boundsLast values.length), c.kind = .equality
  · rw [candidates_eq hdiv,
      Window.foldl_narrowBy_of_equality (fun c hc => (List.mem_filter.1 hc).2) hsat heq]
    exact List.mem_singleton_self v
  have hkind : ∀ c ∈ b.constraints.filter (boundsLast values.length), c.kind = .inequality := by
    intro c hc
    cases hk : c.kind with
    | equality => exact absurd ⟨c, hc, hk⟩ heq
    | inequality => rfl
  obtain ⟨low, high, hok, hlow, hhigh, hnl, hnh⟩ := candidates_of_inequalities hdiv hkind
  have hside : ∀ side : Constraint → Bool, v ∈ solutions (b.constraints.filter fun c =>
      boundsLast values.length c && c.isInequality && side c) values := fun side c hc =>
    hsat c (List.mem_of_mem_filter (filter_boundsLast hkind side ▸ hc))
  have hge := (hlow v).2 (hside _)
  have hle := (hhigh v).2 (hside _)
  rw [hok]
  cases hv with
  | fixed hc he hl =>
    exact absurd ⟨_, List.mem_filter.2 ⟨hc, hl⟩, by simpa [Constraint.isEquality] using he⟩ heq
  | free hnoLower hnoUpper hnear =>
    rw [hnl.2 hnoLower, hnh.2 hnoUpper]
    exact Window.mem_integers_iff.2 (abs_le.1 hnear)
  | above hleast hnear =>
    obtain rfl := Window.eq_some_of_isLeast hlow hleast
    have := hge _ rfl
    cases high with
    | none => exact Window.mem_integers_iff.2 ⟨this, by omega⟩
    | some u =>
      have := hle _ rfl
      refine Window.mem_integers_iff.2 ⟨hge _ rfl, ?_⟩
      split <;> omega
  | below hnoLower hgreatest hnear =>
    obtain rfl := Window.eq_some_of_isGreatest hhigh hgreatest
    have := hle _ rfl
    rw [hnl.2 hnoLower]
    exact Window.mem_integers_iff.2 ⟨by omega, this⟩

end Quasiaffine.BasicRelation
