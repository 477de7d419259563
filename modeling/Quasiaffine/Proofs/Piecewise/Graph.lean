import Quasiaffine.Proofs.Piecewise.Pairs

/-!
Piecewise functions as partial functions on integer points. The value at a point is that of a piece
that has the point; pieces that share a point agree there. The sets of the pieces may have divisions
without a definition, the expressions may not.
-/

set_option autoImplicit false

namespace Quasiaffine

namespace Affine

/-- The value at a point, with the divisions computed one after the other. -/
def valueAt (a : Affine) (x : Row) : ℚ :=
  quotient a.row (LocalSpace.floors (1 :: x) a.ls.divs.rows)

variable {a b : Affine} {s : Space} {v : Row → ℚ} {x : Row}

theorem Denotes.valueAt_eq (h : a.Denotes s v) (hx : x.length = s.total) : a.valueAt x = v x := by
  obtain ⟨d, hd, hassigns⟩ := LocalSpace.assigns_floors h.wellFormed.divisions
    (hx.trans (by rw [← h.space]; rfl))
  rw [valueAt, hd, h.value x d hx hassigns]

theorem WellFormed.denotes (h : a.WellFormed) : a.Denotes a.space a.valueAt := by
  obtain ⟨v, hv⟩ := h.exists_denotes
  exact ⟨rfl, h, fun x d hx hd => by rw [hv.value x d hx hd, hv.valueAt_eq hx]⟩

theorem divValues_eq_ok_iff {rows : List Row} {k : Nat} {values w : Row} :
    a.divValues k values rows = .ok w ↔ w = LocalSpace.floors values rows ∧
      ∀ (i : Nat) (r : Row), rows[i]? = some r → Division.isKnown r = false →
        a.row.entry (a.ls.column .div (k + i)) = 0 := by
  induction rows generalizing k values with
  | nil =>
    constructor
    · intro h
      exact ⟨(Except.ok.inj h).symm, by simp⟩
    · rintro ⟨rfl, -⟩
      rfl
  | cons r rows ih =>
    have hfloors : LocalSpace.floors values (r :: rows) =
        LocalSpace.floors (values ++ [Division.value r values]) rows := rfl
    have hrest : (∀ (i : Nat) (s : Row), (r :: rows)[i]? = some s → Division.isKnown s = false →
        a.row.entry (a.ls.column .div (k + i)) = 0) ↔
        (Division.isKnown r = false → a.row.entry (a.ls.column .div k) = 0) ∧
          ∀ (i : Nat) (s : Row), rows[i]? = some s → Division.isKnown s = false →
            a.row.entry (a.ls.column .div (k + 1 + i)) = 0 := by
      constructor
      · intro h
        refine ⟨h 0 r rfl, fun i s hs hu => ?_⟩
        rw [Nat.add_assoc, Nat.add_comm 1 i]
        exact h (i + 1) s hs hu
      · rintro ⟨hr, h⟩ i s hs hu
        cases i with
        | zero => exact hr (by rwa [Option.some.inj hs])
        | succ i =>
          rw [show k + (i + 1) = k + 1 + i by omega]
          exact h i s hs hu
    rw [divValues, hfloors, hrest]
    by_cases hr : Division.isKnown r = true
    · rw [if_pos hr, ih]
      simp [hr]
    · rw [if_neg hr]
      rw [Bool.not_eq_true] at hr
      -- The computation takes zero for a division without a definition, and so does `floors`: its
      -- denominator is zero.
      have hzero : Division.value r values = 0 := by
        rw [Division.value, show r.entry 0 = 0 by simpa [Division.isKnown] using hr, Int.fdiv_zero]
      rw [hzero]
      split
      · rename_i hentry
        rw [ih]
        simp [hentry]
      · rename_i hentry
        simp [hr, hentry]

/-- Evaluation computes this value, unless the expression mentions a division without a
definition. -/
theorem eval_eq_ok_iff (hx : x.length = a.space.total) {q : ℚ} :
    a.eval x = .ok q ↔ q = a.valueAt x ∧ ∀ (k : Nat) (r : Row), a.ls.divs.rows[k]? = some r →
      Division.isKnown r = false → a.row.entry (a.ls.column .div k) = 0 := by
  have hrun : a.eval x = a.divValues 0 (1 :: x) a.ls.divs.rows >>= fun values =>
      .ok (Rat.divInt (Row.dot a.numerator values) a.denominator) := by
    simp [eval, require, hx, bind, Except.bind, pure, Except.pure]
  simp only [hrun, bind_eq_ok_iff, divValues_eq_ok_iff, Nat.zero_add, Except.ok.injEq,
    Rat.divInt_eq_div]
  constructor
  · rintro ⟨_, ⟨rfl, hu⟩, rfl⟩
    exact ⟨rfl, hu⟩
  · rintro ⟨rfl, hu⟩
    exact ⟨_, ⟨rfl, hu⟩, rfl⟩

theorem WellFormed.eval_eq_ok (h : a.WellFormed) (hx : x.length = a.space.total) :
    a.eval x = .ok (a.valueAt x) := by
  refine (eval_eq_ok_iff hx).2 ⟨rfl, fun k r hr hu => ?_⟩
  rw [List.all_eq_true.1 h.allKnown r (List.mem_of_getElem? hr)] at hu
  cases hu

theorem LiesIn.add_spec (ha : a.LiesIn s) (hb : b.LiesIn s) :
    ∃ c, a.add b = .ok c ∧ c.LiesIn s ∧ c.space = a.space ∧
      ∀ x, x.length = a.space.total → c.valueAt x = a.valueAt x + b.valueAt x := by
  have hagrees := Space.agrees_trans (Space.agrees_symm ha.agrees) hb.agrees
  have htotal := Space.total_eq_of_agrees hagrees ha.proper hb.proper
  obtain ⟨c, hok, hc⟩ := ha.wellFormed.denotes.add_eq_ok (hb.wellFormed.relabel htotal).denotes
  exact ⟨c, (add_relabel hagrees).symm.trans hok, ha.of_denotes hc, hc.space,
    fun x hx => hc.valueAt_eq hx⟩

theorem LiesIn.sub_spec (ha : a.LiesIn s) (hb : b.LiesIn s) :
    ∃ c, a.sub b = .ok c ∧ c.LiesIn s ∧ c.space = a.space ∧
      ∀ x, x.length = a.space.total → c.valueAt x = a.valueAt x - b.valueAt x := by
  have htotal := Space.total_eq_of_agrees
    (Space.agrees_trans (Space.agrees_symm ha.agrees) hb.agrees) ha.proper hb.proper
  obtain ⟨c, hok, hc, hspace, hvalue⟩ := ha.add_spec hb.neg
  refine ⟨c, hok, hc, hspace, fun x hx => ?_⟩
  rw [hvalue x hx, hb.wellFormed.denotes.neg.valueAt_eq (hx.trans htotal), sub_eq_add_neg]

theorem LiesIn.compareZero_spec (h : a.LiesIn s) (op : Comparison) :
    ∃ r, a.compareZero op = .ok r ∧ r.space = a.space ∧ r.WellFormed ∧ r.Tidy ∧
      ∀ x, x ∈ r ↔ x.length = a.space.total ∧ op.holds (a.valueAt x) 0 = true := by
  obtain ⟨r, hok, hr, -⟩ := h.wellFormed.denotes.compareZero_eq_ok h.proper op
  exact ⟨r, hok, hr.space, hr.wellFormed, hr.tidy, hr.points⟩

end Affine

namespace Piecewise

open Classical in
/-- The value at a point: that of the first piece that has the point, if there is one. -/
noncomputable def valueAt (f : Piecewise) (x : Row) : Option ℚ :=
  (f.pieces.find? fun p => x ∈ p.domain).map (·.value.valueAt x)

def Tidy (f : Piecewise) : Prop := ∀ p ∈ f.pieces, p.domain.Tidy

/-- A well-formed function with the values `v`. Pieces that share a point agree there. -/
structure Maps (f : Piecewise) (v : Row → Option ℚ) : Prop where
  proper : f.space.Proper
  pieces : ∀ p ∈ f.pieces, p.LiesIn f.space
  value : ∀ p ∈ f.pieces, ∀ x ∈ p.domain, v x = some (p.value.valueAt x)
  undefined : ∀ x, (∀ p ∈ f.pieces, x ∉ p.domain) → v x = none

variable {f g : Piecewise} {v w : Row → Option ℚ} {x : Row}

theorem Maps.valueAt_eq (h : f.Maps v) : f.valueAt = v := by
  classical
  funext x
  rw [valueAt]
  cases hfind : f.pieces.find? fun p => x ∈ p.domain with
  | none => exact (h.undefined x fun p hp => by simpa using List.find?_eq_none.1 hfind p hp).symm
  | some p =>
    have hx := List.find?_some hfind
    exact (h.value p (List.mem_of_find?_eq_some hfind) x (by simpa using hx)).symm

theorem Maps.isSome_iff (h : f.Maps v) : (v x).isSome = true ↔ ∃ p ∈ f.pieces, x ∈ p.domain := by
  constructor
  · intro hv
    by_contra hno
    push Not at hno
    rw [h.undefined x hno] at hv
    cases hv
  · rintro ⟨p, hp, hx⟩
    rw [h.value p hp x hx]
    rfl

theorem Maps.eq_none_iff (h : f.Maps v) : v x = none ↔ ∀ p ∈ f.pieces, x ∉ p.domain := by
  rw [← Option.not_isSome_iff_eq_none, h.isSome_iff]
  push Not
  rfl

theorem Separate.maps (h : f.Separate) : f.Maps f.valueAt := by
  -- Pieces that lie apart cannot disagree.
  classical
  refine ⟨h.proper, h.pieces, fun p hp x hx => ?_, fun x hno => ?_⟩
  · rw [valueAt]
    cases hfind : f.pieces.find? fun p => x ∈ p.domain with
    | none => exact absurd hx (by simpa using List.find?_eq_none.1 hfind p hp)
    | some q =>
      have hxq : x ∈ q.domain := by simpa using List.find?_some hfind
      rw [h.eq_of_mem hp (List.mem_of_find?_eq_some hfind) hx hxq]
      rfl
  · rw [valueAt, List.find?_eq_none.2 fun p hp => by simpa using hno p hp]
    rfl

theorem Separate.valueAt_eq_some_iff (h : f.Separate) {q : ℚ} :
    f.valueAt x = some q ↔ ∃ p ∈ f.pieces, x ∈ p.domain ∧ p.value.eval x = .ok q := by
  have heval : ∀ p ∈ f.pieces, x ∈ p.domain → p.value.eval x = .ok (p.value.valueAt x) := by
    intro p hp hx
    have hlies := h.pieces p hp
    refine hlies.value.wellFormed.eval_eq_ok ((hlies.domain.length_of_mem hx).trans ?_)
    exact Space.total_eq_of_agrees
      (Space.agrees_trans (Space.agrees_symm hlies.agrees) hlies.value.agrees) hlies.domain.proper
      hlies.value.proper
  constructor
  · intro hv
    obtain ⟨p, hp, hx⟩ := h.maps.isSome_iff.1 (Option.isSome_of_eq_some hv)
    refine ⟨p, hp, hx, (heval p hp hx).trans ?_⟩
    rw [h.maps.value p hp x hx] at hv
    exact congrArg _ (Option.some.inj hv)
  · rintro ⟨p, hp, hx, hq⟩
    rw [h.maps.value p hp x hx, ← Except.ok.inj ((heval p hp hx).symm.trans hq)]

theorem valueAt_ofAffine {a : Affine} {q : ℚ} (ha : a.WellFormed) (hs : a.space.Proper)
    (hq : a.eval x = .ok q) (hx : x.length = a.space.total) : (ofAffine a).valueAt x = some q :=
  (separate_ofAffine ha hs).valueAt_eq_some_iff.2
    ⟨_, List.mem_singleton_self _, Relation.mem_full_iff.2 hx, hq⟩

theorem tidy_ofAffine (a : Affine) : (ofAffine a).Tidy :=
  List.forall_mem_singleton.2 (Relation.tidy_full _)

end Piecewise

end Quasiaffine
