import Quasiaffine.Proofs.Constraint

/-!
Lowest terms as a normal form. The verdict on a constraint is exact, and one in lowest terms is told
by its solutions: two of a kind that hold at the same points are the same, up to the sign of an
equality.
-/

set_option autoImplicit false

namespace Quasiaffine

theorem eq_zero_of_forall_nonneg {e f : Int} (h : ∀ t : Int, 0 ≤ e + t * f) : f = 0 := by
  have hstart := h 0
  have hfar := h (-(e + 1) * f)
  by_contra hf
  have hsq : 0 < f * f := mul_self_pos.2 hf
  nlinarith

theorem Row.isNegation_neg (r : Row) : Row.isNegation r r.neg = true := by
  induction r with
  | nil => rfl
  | cons x r ih => simpa [isNegation, neg] using ih

namespace ConstraintKind

variable {kind : ConstraintKind} {a b : Int}

theorem nonneg_of_admits (h : kind.admits a = true) : 0 ≤ a := by
  rw [admits_iff] at h
  cases kind with
  | inequality => exact h
  | equality => exact Int.le_of_eq h.symm

theorem eq_of_admits_add (h : ∀ t : Int, kind.admits (a + t) = kind.admits (b + t)) : a = b := by
  have ha := h (-a)
  have hb := h (-b)
  cases kind <;> simp only [admits, decide_eq_decide] at ha hb <;> omega

theorem eq_neg_of_admits_sub (h : ∀ t : Int, kind.admits (a + t) = kind.admits (b - t)) :
    kind = .equality ∧ a = -b := by
  have hb := h b
  have hfar := h (a.natAbs + b.natAbs + 1)
  cases kind <;> simp only [admits, decide_eq_decide] at hb hfar
  · omega
  · exact ⟨rfl, by omega⟩

variable {r s : Row}

/-- Where one left side has an admissible value only if the other has, no direction along the
boundary of the first leads off that of the second. -/
theorem dot_eq_zero_of_admits (hr : Row.gcd r = 1)
    (h : ∀ x : Row, x.length = r.length → kind.admits (a + r.dot x) = true →
      kind.admits (b + s.dot x) = true) {v : Row} (hv : v.length = r.length)
    (hzero : r.dot v = 0) : s.dot v = 0 := by
  obtain ⟨p, hp, hboundary⟩ := Row.exists_dot_eq (r := r) (t := -a) (by simp [hr])
  have hline : ∀ t : Int, 0 ≤ b + s.dot p + t * s.dot v := by
    intro t
    have hpv := hp.trans hv.symm
    have hsat := h (Row.combine 1 t p v) (by rw [Row.length_combine, hp]) (by
      rw [Row.dot_combine_right r hpv, hboundary, hzero]
      cases kind <;> simp [admits])
    rw [Row.dot_combine_right s hpv] at hsat
    linarith [nonneg_of_admits hsat]
  exact eq_zero_of_forall_nonneg hline

/-- Left sides without a common divisor whose values are admissible at the same points are equal, or
are negatives of each other in an equality. -/
theorem eq_or_eq_neg_of_admits (hl : r.length = s.length) (hr : Row.gcd r = 1)
    (hs : Row.gcd s = 1) (h : ∀ x : Row, x.length = r.length →
      kind.admits (a + r.dot x) = kind.admits (b + s.dot x)) :
    a = b ∧ r = s ∨ kind = .equality ∧ a = -b ∧ s = r.neg := by
  obtain ⟨q, hq⟩ := Row.exists_dot_eq_mul (s := s) hr fun v hv hzero =>
    dot_eq_zero_of_admits hr (fun x hx hsat => h x hx ▸ hsat) hv hzero
  have hunit : q = 1 ∨ q = -1 := by
    obtain ⟨v, hv, hone⟩ := Row.gcd_eq_one_iff.1 hs
    rw [hq v (hv.trans hl.symm)] at hone
    exact Int.eq_one_or_neg_one_of_mul_eq_one hone
  have hvalues : ∀ t : Int, kind.admits (a + t) = kind.admits (b + q * t) := by
    intro t
    obtain ⟨v, hv, rfl⟩ := Row.exists_dot_eq (r := r) (t := t) (by simp [hr])
    rw [h v hv, hq v hv]
  rcases hunit with rfl | rfl
  · refine .inl ⟨eq_of_admits_add fun t => (hvalues t).trans ?_, Row.eq_of_dot_eq hl fun v hv => ?_⟩
    · rw [Int.one_mul]
    · rw [hq v hv, Int.one_mul]
  · obtain ⟨hkind, hab⟩ := eq_neg_of_admits_sub (a := a) (b := b) fun t => by
      rw [hvalues t, Int.neg_one_mul, Int.sub_eq_add_neg]
    refine .inr ⟨hkind, hab, Row.eq_of_dot_eq (by rw [Row.length_neg, hl]) fun v hv => ?_⟩
    rw [hq v (hv.trans hl.symm), Row.dot_neg, Int.neg_one_mul]

end ConstraintKind

namespace Constraint

variable {c d k l : Constraint}

/-- The constraints hold at the same points, which have a coordinate for each column of the
first. -/
def SameSolutions (c d : Constraint) : Prop :=
  ∀ x : Row, x.length + 1 = c.width → c.isSatisfied (1 :: x) = d.isSatisfied (1 :: x)

theorem InLowestTerms.exists_cons (h : c.InLowestTerms) :
    ∃ (a : Int) (r : Row), c = ⟨a :: r, c.kind⟩ ∧ Row.gcd r = 1 := by
  obtain ⟨row, kind⟩ := c
  cases row with
  | nil => cases h
  | cons a r => exact ⟨a, r, rfl, h⟩

theorem InLowestTerms.normalize_eq (h : c.InLowestTerms) : c.normalize = .kept c := by
  obtain ⟨a, r, hc, hr⟩ := h.exists_cons
  rw [hc]
  simp [normalize, hr, Int.emod_one a, show a.emod 1 = a % 1 from rfl]

/-- Constraints in lowest terms with the same solutions are the same. -/
theorem InLowestTerms.isSame (hc : c.InLowestTerms) (hd : d.InLowestTerms) (hk : c.kind = d.kind)
    (hw : c.width = d.width) (h : c.SameSolutions d) : c.isSame d = true := by
  obtain ⟨a, r, hrow, hr⟩ := hc.exists_cons
  obtain ⟨b, s, hrow', hs⟩ := hd.exists_cons
  rw [← hk] at hrow'
  generalize c.kind = kind at hrow hrow'
  subst hrow hrow'
  have hadmits : ∀ x : Row, x.length = r.length →
      kind.admits (a + r.dot x) = kind.admits (b + s.dot x) := by
    intro x hx
    simpa [isSatisfied] using h x (by rw [hx]; rfl)
  rcases ConstraintKind.eq_or_eq_neg_of_admits (Nat.succ.inj hw) hr hs hadmits with
    ⟨rfl, rfl⟩ | ⟨rfl, rfl, rfl⟩
  · exact isSame_refl _
  · simp [Constraint.isSame, isEquality, Row.isNegation, Row.isNegation_neg]

theorem normalize_eq_trivial_iff (h : 0 < c.width) : c.normalize = .trivial ↔
    ∀ x : Row, x.length + 1 = c.width → c.isSatisfied (1 :: x) = true := by
  constructor
  · exact fun hn x _ => isSatisfied_of_normalize_trivial hn x
  · intro hall
    cases hn : c.normalize with
    | trivial => rfl
    | infeasible =>
      have hpoint := hall (Row.zeros (c.width - 1)) (by rw [Row.length_zeros]; omega)
      rw [not_isSatisfied_of_normalize_infeasible hn] at hpoint
      cases hpoint
    | kept k =>
      obtain ⟨-, hw, hlowest, hsat⟩ := normalize_kept_spec hn
      obtain ⟨x, hx, hdot⟩ := hlowest.exists_dot_eq (-1)
      have hpoint := hall x (hx.trans hw)
      rw [← hsat, isSatisfied, hdot] at hpoint
      cases hk : k.kind <;> simp [hk, ConstraintKind.admits] at hpoint

theorem normalize_eq_infeasible_iff (h : 0 < c.width) : c.normalize = .infeasible ↔
    ∀ x : Row, x.length + 1 = c.width → c.isSatisfied (1 :: x) = false := by
  constructor
  · exact fun hn x _ => not_isSatisfied_of_normalize_infeasible hn x
  · intro hnone
    by_contra hn
    obtain ⟨x, hx, hsat⟩ := exists_isSatisfied_of_length (n := c.width - 1) (by omega)
      ((exists_isSatisfied_iff c).2 hn)
    rw [hnone x (by omega)] at hsat
    cases hsat

theorem exists_normalize_eq_kept_iff (h : 0 < c.width) : (∃ k, c.normalize = .kept k) ↔
    (∃ x : Row, x.length + 1 = c.width ∧ c.isSatisfied (1 :: x) = true) ∧
      ∃ x : Row, x.length + 1 = c.width ∧ c.isSatisfied (1 :: x) = false := by
  have hverdict : (∃ k, c.normalize = .kept k) ↔
      ¬c.normalize = .infeasible ∧ ¬c.normalize = .trivial := by
    cases c.normalize <;> simp
  rw [hverdict, normalize_eq_infeasible_iff h, normalize_eq_trivial_iff h]
  simp

/-- A constraint is trivial if all points satisfy it, infeasible if none does, and kept if some but
not all do. What is kept has the same solutions and no common divisor of the coefficients. It is kept
as it is, and it is the same for all constraints of its kind with these solutions. -/
theorem normalize_canonical (h : 0 < c.width) :
    (c.normalize = .trivial ↔
      ∀ x : Row, x.length + 1 = c.width → c.isSatisfied (1 :: x) = true) ∧
    (c.normalize = .infeasible ↔
      ∀ x : Row, x.length + 1 = c.width → c.isSatisfied (1 :: x) = false) ∧
    ((∃ k, c.normalize = .kept k) ↔
      (∃ x : Row, x.length + 1 = c.width ∧ c.isSatisfied (1 :: x) = true) ∧
        ∃ x : Row, x.length + 1 = c.width ∧ c.isSatisfied (1 :: x) = false) ∧
    ∀ k, c.normalize = .kept k →
      (k.kind = c.kind ∧ k.width = c.width ∧ k.SameSolutions c) ∧
        Row.gcd (k.row.drop 1) = 1 ∧ k.normalize = .kept k ∧
        ∀ d l : Constraint, d.normalize = .kept l → d.kind = c.kind → d.width = c.width →
          d.SameSolutions c → k.isSame l = true := by
  refine ⟨normalize_eq_trivial_iff h, normalize_eq_infeasible_iff h,
    exists_normalize_eq_kept_iff h, fun k hk => ?_⟩
  obtain ⟨hkind, hwidth, hlowest, hsat⟩ := normalize_kept_spec hk
  refine ⟨⟨hkind, hwidth, fun x _ => hsat x⟩, hlowest, hlowest.normalize_eq,
    fun d l hl hdc hdw hsame => ?_⟩
  obtain ⟨hkind', hwidth', hlowest', hsat'⟩ := normalize_kept_spec hl
  refine hlowest.isSame hlowest' (by rw [hkind, hkind', hdc]) (by rw [hwidth, hwidth', hdw])
    fun x hx => ?_
  rw [hsat, hsat', hsame x (by rw [hx, hwidth, hdw])]

/-- `4 x + 6 y = 8` and `12 = 6 x + 9 y`, in lowest terms up to the sign. -/
theorem normalize_canonical_opposite :
    let c : Constraint := ⟨[-8, 4, 6], .equality⟩
    let d : Constraint := ⟨[12, -6, -9], .equality⟩
    0 < c.width ∧ d.SameSolutions c ∧ c.normalize = .kept ⟨[-4, 2, 3], .equality⟩ ∧
      d.normalize = .kept ⟨[4, -2, -3], .equality⟩ ∧
      isSame ⟨[-4, 2, 3], .equality⟩ ⟨[4, -2, -3], .equality⟩ = true := by
  intro c d
  have hsame : d.SameSolutions c := by
    intro x hx
    match x, hx with
    | [u, v], _ =>
      simp only [isSatisfied, ConstraintKind.admits, Row.dot_cons, Row.dot_nil_left, c, d,
        decide_eq_decide]
      omega
  obtain ⟨-, -, -, hkept⟩ := normalize_canonical (c := c) (by decide)
  obtain ⟨-, -, -, hcanonical⟩ := hkept ⟨[-4, 2, 3], .equality⟩ (by decide)
  exact ⟨by decide, hsame, by decide, by decide, hcanonical d _ (by decide) rfl rfl hsame⟩

end Constraint

end Quasiaffine
