import Quasiaffine.Proofs.Piecewise.Graph

/-!
Evaluation where some divisions have no definition. It fails if the expression has a coefficient for
one of them, but one that only the definitions of other divisions mention counts as zero. If the
expression depends on none of them, not even through others, evaluation answers with the value that
the expression has whatever the values of these divisions are.
-/

set_option autoImplicit false

namespace Quasiaffine.Affine

structure Shaped (a : Affine) : Prop where
  divisions : a.ls.WellFormed
  length : a.row.length = 2 + a.ls.total
  denominator : 0 < a.row.entry 0

/-- The divisions on which the value of an expression depends: those with a coefficient, and those
that the definition of such a division mentions. -/
inductive DependsOn (a : Affine) : Nat → Prop
  | coefficient {k : Nat} (h : a.row.entry (a.ls.column .div k) ≠ 0) : DependsOn a k
  | definition {j k : Nat} (hj : DependsOn a j) (known : a.ls.isKnown j = true)
      (h : (a.ls.divs.row j).entry (a.ls.column .div k) ≠ 0) : DependsOn a k

def Determined (a : Affine) : Prop := ∀ k, a.DependsOn k → a.ls.isKnown k = true

variable {a : Affine} {x d d' : Row} {k : Nat} {r : Row}

theorem column_div (a : Affine) (k : Nat) : a.ls.column .div k = 2 + a.space.total + k := rfl

theorem isKnown_eq (hr : a.ls.divs.rows[k]? = some r) :
    a.ls.isKnown k = Division.isKnown r := by
  rw [LocalSpace.isKnown, LocalSpace.div?, hr, Option.any_some]

/-- Values that agree on the divisions without a definition that matter agree on all divisions that
matter. -/
theorem DependsOn.entry_eq (h : a.ls.WellFormed) (hx : x.length = a.space.total)
    (hd : a.ls.Assigns x d) (hd' : a.ls.Assigns x d')
    (hu : ∀ k, a.DependsOn k → a.ls.isKnown k = false → d.entry k = d'.entry k)
    (hk : a.DependsOn k) : d.entry k = d'.entry k := by
  induction k using Nat.strong_induction_on with
  | _ k ih =>
    cases hknown : a.ls.isKnown k with
    | false => exact hu k hk hknown
    | true =>
      obtain ⟨r, hr, hrk⟩ := (Option.any_eq_true _ _).1 hknown
      rw [LocalSpace.div?] at hr
      rw [hd.value k r hr hrk, hd'.value k r hr hrk]
      -- The definition mentions earlier divisions only, on all of which the expression depends.
      refine LocalSpace.value_congr_divs (w := 2 + a.space.total) (by omega) fun t ht => ih t ?_ ?_
      · by_contra hge
        exact ht (h.triangular.zero_from k r hr _ (by change 2 + a.space.total + k ≤ _; omega))
      · refine .definition hk hknown ?_
        rwa [column_div, Matrix.row, List.getD_eq_getElem?_getD, hr]

/-- The value at a point depends on the values of these divisions alone. -/
theorem quotient_eq_of_dependsOn (hx : x.length = a.space.total)
    (h : ∀ k, a.DependsOn k → d.entry k = d'.entry k) :
    quotient a.row (1 :: (x ++ d)) = quotient a.row (1 :: (x ++ d')) := by
  rw [quotient, quotient, LocalSpace.dot_congr_divs (w := 2 + a.space.total) (by omega)]
  exact fun k hk => h k (.coefficient hk)

theorem Shaped.valueAt_eq (h : a.Shaped) (hx : x.length = a.space.total) (hd : a.ls.Assigns x d)
    (hu : ∀ k, a.DependsOn k → a.ls.isKnown k = false → d.entry k = 0) :
    quotient a.row (1 :: (x ++ d)) = a.valueAt x := by
  obtain ⟨z, hz, hlen, hrow⟩ := LocalSpace.floors_spec h.divisions hx
  have hassigns : a.ls.Assigns x z := ⟨hlen, fun k r hr _ => hrow k r hr⟩
  have hzero : ∀ k, a.ls.isKnown k = false → z.entry k = 0 := by
    intro k hk
    cases hr : a.ls.divs.rows[k]? with
    | none => exact Row.entry_eq_zero (hlen ▸ List.getElem?_eq_none_iff.1 hr)
    | some r =>
      rw [isKnown_eq hr] at hk
      rw [hrow k r hr, Division.value, show r.entry 0 = 0 by simpa [Division.isKnown] using hk,
        Int.fdiv_zero]
  rw [valueAt, hz]
  refine quotient_eq_of_dependsOn hx fun k hk => ?_
  exact hk.entry_eq h.divisions hx hd hassigns fun k hk hunknown => by
    rw [hu k hk hunknown, hzero k hunknown]

theorem Determined.eval_eq_ok (hdet : a.Determined) (hx : x.length = a.space.total) :
    a.eval x = .ok (a.valueAt x) := by
  refine (eval_eq_ok_iff hx).2 ⟨rfl, fun k r hr hu => ?_⟩
  by_contra hne
  rw [← isKnown_eq hr, hdet k (.coefficient hne)] at hu
  cases hu

/-- Evaluation answers if the expression has no coefficient for a division without a definition. The
answer is the value of the expression for all values of the divisions that give zero to those
without a definition on which the expression depends. If it depends on none, there is an answer, and
it is the value for all values of the divisions. -/
theorem eval_value (h : a.Shaped) (hx : x.length = a.space.total) :
    ((∃ q, a.eval x = .ok q) ↔ ∀ k < a.ls.divCount, a.ls.isKnown k = false →
      a.row.entry (a.ls.column .div k) = 0) ∧
    (∀ q, a.eval x = .ok q → ∀ d, a.ls.Assigns x d →
      (∀ k, a.DependsOn k → a.ls.isKnown k = false → d.entry k = 0) →
        quotient a.row (1 :: (x ++ d)) = q) ∧
    (a.Determined → ∃ q, a.eval x = .ok q ∧
      ∀ d, a.ls.Assigns x d → quotient a.row (1 :: (x ++ d)) = q) := by
  refine ⟨?answers, fun q hq d hd hu => ?value, fun hdet => ⟨_, hdet.eval_eq_ok hx, fun d hd => ?_⟩⟩
  case answers =>
    simp only [eval_eq_ok_iff hx, exists_eq_left]
    constructor
    · intro hall k hk hu
      have hr := List.getElem?_eq_getElem (show k < a.ls.divs.rows.length from hk)
      exact hall k _ hr (isKnown_eq hr ▸ hu)
    · intro hall k r hr hu
      exact hall k (List.getElem?_eq_some_iff.1 hr).1 ((isKnown_eq hr).trans hu)
  case value =>
    rw [((eval_eq_ok_iff hx).1 hq).1]
    exact h.valueAt_eq hx hd hu
  · refine h.valueAt_eq hx hd fun k hk hu => ?_
    rw [hdet k hk] at hu
    cases hu

/-- `i + ⌊⌊i / 2⌋ / 3⌋` beside a division `e` without a definition and `⌊(e + i) / 2⌋`. -/
theorem eval_value_nested :
    let a : Affine := ⟨.overOneVariable [[0, 0, 0, 0, 0, 0, 0], [2, 0, 1, 0, 0, 0, 0],
      [3, 0, 0, 0, 1, 0, 0], [2, 0, 1, 1, 0, 0, 0]], [1, 0, 1, 0, 0, 1, 0]⟩
    a.Shaped ∧ a.Determined ∧ a.eval [7] = .ok 8 ∧
      ∀ d, a.ls.Assigns [7] d → quotient a.row (1 :: ([7] ++ d)) = 8 := by
  intro a
  have hshaped : a.Shaped :=
    ⟨LocalSpace.wellFormed_overOneVariable (by decide) (by decide), rfl, by decide⟩
  have hlt : ∀ {r : Row} {k : Nat}, r.length = 7 → r.entry (a.ls.column .div k) ≠ 0 → k < 4 := by
    intro r k hr hk
    have hcolumn := Row.lt_length_of_entry_ne_zero hk
    rw [hr, column_div] at hcolumn
    exact Nat.lt_of_add_lt_add_left hcolumn
  have hdepends : ∀ k, a.DependsOn k → k = 1 ∨ k = 2 := by
    intro k hk
    induction hk with
    | @coefficient k h =>
      have hrow : ∀ k < 4, a.row.entry (a.ls.column .div k) ≠ 0 → k = 1 ∨ k = 2 := by decide
      exact hrow k (hlt rfl h) h
    | @definition j k _ _ h ih =>
      have hdefinition : ∀ j < 3, 0 < j → ∀ k < 4,
          (a.ls.divs.row j).entry (a.ls.column .div k) ≠ 0 → k = 1 ∨ k = 2 := by decide
      refine hdefinition j (by omega) (by omega) k (hlt ?_ h) h
      rcases ih with rfl | rfl <;> rfl
  have hdet : a.Determined := by
    intro k hk
    rcases hdepends k hk with rfl | rfl <;> rfl
  obtain ⟨-, -, hanswer⟩ := eval_value hshaped (x := [7]) rfl
  obtain ⟨q, hq, hvalues⟩ := hanswer hdet
  have heval : a.eval [7] = .ok 8 := by decide +kernel
  obtain rfl := Except.ok.inj (heval.symm.trans hq)
  exact ⟨hshaped, hdet, heval, hvalues⟩

/-- `⌊e / 2⌋` is found to be zero, though it is one for `e = 2`. -/
theorem eval_depends_on_unknown :
    let a : Affine := ⟨.overOneVariable [[0, 0, 0, 0, 0], [2, 0, 0, 1, 0]], [1, 0, 0, 0, 1]⟩
    (a.Shaped ∧ a.eval [0] = .ok 0 ∧ a.ls.Assigns [0] [2, 1] ∧
      quotient a.row (1 :: ([0] ++ [2, 1])) = 1) ∧
    ¬∀ (a : Affine) (x d : Row) (q : ℚ), a.Shaped → x.length = a.space.total → a.eval x = .ok q →
      a.ls.Assigns x d → quotient a.row (1 :: (x ++ d)) = q := by
  intro a
  have hshaped : a.Shaped :=
    ⟨LocalSpace.wellFormed_overOneVariable (by decide) (by decide), rfl, by decide⟩
  have heval : a.eval [0] = .ok 0 := by decide +kernel
  have hassigns : a.ls.Assigns [0] [2, 1] := by
    refine ⟨rfl, fun k r hr hk => ?_⟩
    match k, hr with
    | 0, hr =>
      obtain rfl := Option.some.inj hr
      cases hk
    | 1, hr =>
      obtain rfl := Option.some.inj hr
      rfl
    | k + 2, hr => cases hr
  have hvalue : quotient a.row (1 :: ([0] ++ [2, 1])) = 1 := by decide +kernel
  refine ⟨⟨hshaped, heval, hassigns, hvalue⟩, fun h => ?_⟩
  have hzero := h a [0] [2, 1] 0 hshaped rfl heval hassigns
  rw [hvalue] at hzero
  exact absurd hzero one_ne_zero

end Quasiaffine.Affine
