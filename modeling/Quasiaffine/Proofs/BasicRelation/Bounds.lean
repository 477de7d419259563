import Quasiaffine.Proofs.BasicRelation.Points

set_option autoImplicit false

namespace Quasiaffine

theorem Row.eq_set_iff {r s : Row} {p : Nat} {x : Int} (hl : r.length = s.length)
    (hp : p < s.length) (hz : ∀ c, p < c → s.entry c = 0) :
    r = s.set p x ↔ r.take p = s.take p ∧ r.entry p = x ∧ Row.isZero (r.drop (p + 1)) = true := by
  rw [Row.isZero_drop_iff]
  constructor
  · intro heq
    refine ⟨by rw [heq, List.take_set_of_le (Nat.le_refl p)], ?_, fun c hc => ?_⟩
    · rw [heq, Row.entry_set, if_pos ⟨rfl, hp⟩]
    · rw [heq, Row.entry_set, if_neg (by omega), hz c hc]
  · rintro ⟨htake, hx, hdrop⟩
    apply Row.ext_entry (by rw [List.length_set, hl])
    intro c
    rw [Row.entry_set]
    rcases Nat.lt_trichotomy c p with hc | rfl | hc
    · have hentry := congrArg (Row.entry · c) htake
      simp only [Row.entry_take, if_pos hc] at hentry
      rw [hentry, if_neg (by omega)]
    · rw [if_pos ⟨rfl, hp⟩, hx]
    · rw [if_neg (by omega), hz c hc, hdrop c hc]

namespace BasicRelation

variable {b : BasicRelation} {c : Constraint} {k : Nat} {m : Int} {r row x d : Row}

def upperBound (b : BasicRelation) (r : Row) (k : Nat) : Row :=
  (b.lowerBound r k).neg.set 0 ((b.lowerBound r k).neg.entry 0 + (r.entry 0 - 1))

theorem divBounds?_eq (hr : b.ls.divs.rows[k]? = some r) (hk : Division.isKnown r = true) :
    b.divBounds? k = some (⟨b.lowerBound r k, .inequality⟩, ⟨b.upperBound r k, .inequality⟩) :=
  divBounds?_eq_some_iff.2 ⟨r, hr, hk, rfl, rfl⟩

theorem lowerBound_cons (constant : Int) (coeffs : Row) :
    b.lowerBound (m :: constant :: coeffs) k =
      constant :: coeffs.set (b.space.total + k) (-m) := by
  rw [lowerBound, Nat.add_assoc, Nat.add_comm 1]
  rfl

theorem upperBound_cons (constant : Int) (coeffs : Row) :
    b.upperBound (m :: constant :: coeffs) k =
      (-constant + (m - 1)) :: coeffs.neg.set (b.space.total + k) m := by
  have hset : Row.neg (coeffs.set (b.space.total + k) (-m)) =
      coeffs.neg.set (b.space.total + k) m := by
    rw [Row.neg, List.map_set, Int.neg_neg]
    rfl
  rw [upperBound, lowerBound_cons, ← hset]
  rfl

/-- What is taken for a bound of a division is one, and both bounds are taken for such. -/
theorem isDivBound_iff (h : b.ls.WellFormed) (hr : b.ls.divs.rows[k]? = some r)
    (hm : 0 < r.entry 0) (hw : row.length = b.width) :
    b.ls.isDivBound row k = true ↔ row = b.lowerBound r k ∨ row = b.upperBound r k := by
  have hlt := (List.getElem?_eq_some_iff.1 hr).1
  have hlen : r.length = 2 + b.space.total + b.ls.divs.rows.length :=
    h.triangular.length_row r (List.mem_of_getElem? hr)
  have hz : ∀ c, 2 + b.space.total + k ≤ c → r.entry c = 0 := h.triangular.zero_from k r hr
  have hwidth : row.length = 1 + (b.space.total + b.ls.divs.rows.length) := hw
  match r, row with
  | [], _ | [_], _ => simp only [List.length_cons, List.length_nil] at hlen; omega
  | _, [] => simp only [List.length_nil] at hwidth; omega
  | m :: constant :: coeffs, y :: ys =>
    simp only [List.length_cons] at hlen hwidth
    rw [Row.entry_cons_zero] at hm
    have hp : b.space.total + k < coeffs.length := by omega
    have hzero : ∀ c, b.space.total + k < c → Row.entry coeffs c = 0 := fun c hc =>
      hz (c + 1 + 1) (by omega)
    have hlower := Row.eq_set_iff (r := ys) (s := coeffs) (x := -m) (by omega) hp hzero
    have hupper := Row.eq_set_iff (r := ys) (s := Row.neg coeffs) (x := m)
      (by rw [Row.length_neg]; omega) (by rwa [Row.length_neg]) fun c hc => by
        rw [show (Row.neg coeffs).entry c = -Row.entry coeffs c from
          Row.entry_map (f := fun x => -x) rfl _ _, hzero c hc, Int.neg_zero]
    have hpos : 1 + b.ls.space.total + k = b.space.total + k + 1 := by
      rw [Nat.add_assoc, Nat.add_comm 1]
      rfl
    have htake : (Row.neg coeffs).take (b.space.total + k) =
        Row.neg (coeffs.take (b.space.total + k)) := List.map_take.symm
    rw [lowerBound_cons, upperBound_cons, List.cons.injEq, List.cons.injEq, hlower, hupper, htake]
    simp only [LocalSpace.isDivBound, LocalSpace.div?, hr, hpos, Row.entry_cons_zero,
      Row.entry_cons_succ, List.length_cons, List.drop_succ_cons, List.drop_zero,
      List.take_succ_cons, Nat.add_sub_cancel, Bool.and_eq_true, bne_iff_ne, decide_eq_true_eq]
    have hguards : m ≠ 0 ∧ b.space.total + k + 1 < ys.length + 1 := by omega
    have hne : m ≠ -m := by omega
    rw [and_iff_right hguards]
    -- The sign of the coefficient says which of the two bounds it can be.
    by_cases hup : Row.entry ys (b.space.total + k) = m
    · have hconst : y = -(constant - m + 1) ↔ y = -constant + (m - 1) := by omega
      simp only [hup, hne, hconst, if_true, Bool.and_eq_true, beq_iff_eq, false_and, and_false,
        false_or, true_and, and_assoc]
    · rw [if_neg hup]
      by_cases hlow : Row.entry ys (b.space.total + k) = -m
      · have habs : ((Row.entry ys (b.space.total + k)).natAbs : Int) = m := by omega
        rw [if_pos habs]
        simp only [hlow, hne.symm, beq_iff_eq, List.cons.injEq, false_and, and_false, or_false,
          true_and, and_assoc]
      · have habs : ((Row.entry ys (b.space.total + k)).natAbs : Int) ≠ m := by omega
        simp only [habs, hup, hlow, if_false, Bool.false_eq_true, false_and, and_false, or_false]

theorem dot_upperBound (h : b.ls.WellFormed) (hr : b.ls.divs.rows[k]? = some r) (v : Row) :
    (b.upperBound r k).dot (1 :: v) =
      -Row.dot (r.drop 1) (1 :: v) + r.entry 0 * v.entry (b.space.total + k) + r.entry 0 - 1 := by
  have hlen := h.triangular.length_row r (List.mem_of_getElem? hr)
  have hlt : 0 < (b.lowerBound r k).neg.length := by
    rw [Row.length_neg, lowerBound, List.length_set, List.length_drop]
    have := (List.getElem?_eq_some_iff.1 hr).1
    omega
  rw [upperBound, Row.dot_set hlt, Row.dot_neg, dot_lowerBound h hr, Row.entry_cons_zero]
  ring

/-- The bounds of a division `⌊f / m⌋`, of which `r` is the row: what they say, and that the rows
that are taken for bounds of the division are these two. -/
structure BoundedBy (b : BasicRelation) (k : Nat) (r lower upper : Row) : Prop where
  computed : b.divBounds? k = some (⟨lower, .inequality⟩, ⟨upper, .inequality⟩)
  dot_lower : ∀ v : Row, lower.dot (1 :: v) =
    Row.dot (r.drop 1) (1 :: v) - r.entry 0 * v.entry (b.space.total + k)
  dot_upper : ∀ v : Row, upper.dot (1 :: v) =
    -Row.dot (r.drop 1) (1 :: v) + r.entry 0 * v.entry (b.space.total + k) + r.entry 0 - 1
  recognised : ∀ row : Row, row.length = 1 + b.ls.total →
    (b.ls.isDivBound row k = true ↔ row = lower ∨ row = upper)
  satisfied : ∀ row v : Row, row.length = 1 + b.ls.total → b.ls.isDivBound row k = true →
    v.entry (b.space.total + k) = (Row.dot (r.drop 1) (1 :: v)).fdiv (r.entry 0) →
    0 ≤ row.dot (1 :: v)

theorem boundedBy_bounds (h : b.ls.WellFormed) (hr : b.ls.divs.rows[k]? = some r)
    (hm : 0 < r.entry 0) : b.BoundedBy k r (b.lowerBound r k) (b.upperBound r k) where
  computed := divBounds?_eq hr ((Division.isKnown_iff r).2 (Int.ne_of_gt hm))
  dot_lower := dot_lowerBound h hr
  dot_upper := dot_upperBound h hr
  recognised _ hw := isDivBound_iff h hr hm hw
  satisfied row v hw hrow hv := by
    obtain ⟨hl, hu⟩ := (eq_fdiv_iff hm).2 hv
    rcases (isDivBound_iff h hr hm hw).1 hrow with rfl | rfl
    · rwa [dot_lowerBound h hr]
    · rw [dot_upperBound h hr]
      linarith

/-- Only a division that has a definition has bounds. -/
theorem exists_known_of_isDivBound (hk : b.ls.isDivBound row k = true) :
    ∃ r, b.ls.divs.rows[k]? = some r ∧ r.entry 0 ≠ 0 := by
  cases hr : b.ls.divs.rows[k]? with
  | none => simp [LocalSpace.isDivBound, LocalSpace.div?, hr] at hk
  | some r =>
    refine ⟨r, rfl, fun hm => ?_⟩
    simp [LocalSpace.isDivBound, LocalSpace.div?, hr, hm] at hk

theorem WellFormed.denominator_pos (h : b.WellFormed) (hr : b.ls.divs.rows[k]? = some r)
    (hm : r.entry 0 ≠ 0) : 0 < r.entry 0 :=
  lt_of_le_of_ne (h.positive r (List.mem_of_getElem? hr)) hm.symm

theorem isDivBound_of_divBounds? (h : b.WellFormed) {lower upper : Constraint}
    (hb : b.divBounds? k = some (lower, upper)) :
    b.ls.isDivBound lower.row k = true ∧ b.ls.isDivBound upper.row k = true := by
  obtain ⟨hl, hu⟩ := width_divBounds hb h.divisions
  obtain ⟨r, hr, hknown, rfl, rfl⟩ := divBounds?_eq_some_iff.1 hb
  have hm := h.denominator_pos hr ((Division.isKnown_iff r).1 hknown)
  exact ⟨(isDivBound_iff h.divisions hr hm hl).2 (.inl rfl),
    (isDivBound_iff h.divisions hr hm hu).2 (.inr rfl)⟩

/-- A constraint that only says what the definition of a division says holds at the values of the
divisions. -/
theorem isSatisfied_of_isDivBound (h : b.WellFormed) (hw : c.width = b.width)
    (hd : b.isDivBound c = true) (hx : x.length = b.space.total) (ha : b.ls.Assigns x d) :
    c.isSatisfied (1 :: (x ++ d)) = true := by
  simp only [isDivBound, Bool.and_eq_true, List.any_eq_true] at hd
  obtain ⟨hkind, k, -, hk⟩ := hd
  have hkind' : c.kind = .inequality := by simpa [Constraint.isInequality] using hkind
  obtain ⟨r, hr, hm⟩ := exists_known_of_isDivBound hk
  have hvalue : (x ++ d).entry (b.space.total + k) =
      (Row.dot (r.drop 1) (1 :: (x ++ d))).fdiv (r.entry 0) := by
    rw [← hx, Row.entry_append_right, ha.value k r hr ((Division.isKnown_iff r).2 hm)]
    rfl
  rw [Constraint.isSatisfied_iff, hkind', ConstraintKind.admits_iff]
  exact (boundedBy_bounds h.divisions hr (h.denominator_pos hr hm)).satisfied c.row _ hw hk hvalue

/-- A row is taken for a bound of a division exactly if it is the row of one of the two inequalities
that define the division. So at every point, with values of the divisions as their definitions give
them, the constraints that are left out hold. -/
theorem isDivBound_exact (b : BasicRelation) (h : b.ls.WellFormed) :
    (∀ k r, b.ls.div? k = some r → 0 < r.entry 0 → ∃ lower upper, b.BoundedBy k r lower upper) ∧
      (b.WellFormed → ∀ x d, x.length = b.space.total → b.ls.Assigns x d →
        ((∀ c ∈ b.constraints.filter (fun c => !b.isDivBound c),
            c.isSatisfied (1 :: (x ++ d)) = true) ↔
          ∀ c ∈ b.constraints, c.isSatisfied (1 :: (x ++ d)) = true)) := by
  refine ⟨fun k r hr hm => ⟨_, _, boundedBy_bounds h hr hm⟩, fun hb x d hx ha => ?_⟩
  constructor
  · intro hkept c hc
    cases hbound : b.isDivBound c with
    | true => exact isSatisfied_of_isDivBound hb (hb.width c hc) hbound hx ha
    | false => exact hkept c (List.mem_filter.2 ⟨hc, by rw [hbound]; rfl⟩)
  · exact fun hall c hc => hall c (List.mem_filter.1 hc).1

/-- Of the inequalities about `d = ⌊(i + 1) / 3⌋`, `i + 1 - 3 d ≥ 0` is left out and `i - 3 d ≥ 0`
is not. -/
theorem isDivBound_exact_third :
    let b : BasicRelation := ⟨LocalSpace.overOneVariable [[3, 1, 1, 0]],
      [⟨[1, 1, -3], .inequality⟩, ⟨[0, 1, -3], .inequality⟩], false⟩
    b.WellFormed ∧ b.ls.Assigns [4] [1] ∧
      b.constraints.filter (fun c => !b.isDivBound c) = [⟨[0, 1, -3], .inequality⟩] ∧
      (∀ c ∈ b.constraints, c.isSatisfied [1, 4, 1] = true) ∧
      ∃ lower upper, b.BoundedBy 0 [3, 1, 1, 0] lower upper := by
  intro b
  have hls : b.ls.WellFormed := LocalSpace.wellFormed_overOneVariable (by decide) (by decide)
  have hb : b.WellFormed := ⟨hls, by decide, by decide⟩
  have ha : b.ls.Assigns [4] [1] := ⟨rfl, fun k r hr _ => by
    obtain ⟨rfl, rfl⟩ : k = 0 ∧ r = [3, 1, 1, 0] := by
      cases k with
      | zero => exact ⟨rfl, (Option.some.inj hr).symm⟩
      | succ k => cases hr
    decide⟩
  have hfilter : b.constraints.filter (fun c => !b.isDivBound c) =
      [⟨[0, 1, -3], .inequality⟩] := by decide
  obtain ⟨hbounds, hskip⟩ := isDivBound_exact b hls
  refine ⟨hb, ha, hfilter, ?_, hbounds 0 [3, 1, 1, 0] rfl (by decide)⟩
  exact (hskip hb [4] [1] rfl ha).1 (by rw [hfilter]; decide)

end BasicRelation

end Quasiaffine
