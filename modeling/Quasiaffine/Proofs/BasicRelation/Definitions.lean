import Quasiaffine.BasicRelation.Definitions
import Quasiaffine.Proofs.BasicRelation.Points
import Quasiaffine.Proofs.Except

set_option autoImplicit false

namespace Quasiaffine.BasicRelation

variable {b : BasicRelation} {c : Constraint} {pos : Nat} {v : Row}

/-- The row `[m, f]` of a division in column `pos` of constraint rows of width `n`. -/
structure IsDefinition (n pos : Nat) (row : Row) : Prop where
  length : row.length = n + 1
  positive : 0 < row.entry 0
  zero_from : ∀ c, pos < c → row.entry c = 0

theorem boundsLast_iff : boundsLast pos c = true ↔
    c.row.entry pos ≠ 0 ∧ ∀ k, pos + 1 ≤ k → c.row.entry k = 0 := by
  rw [boundsLast, Constraint.isZeroFrom, Bool.and_eq_true, Row.isZero_drop_iff, bne_iff_ne]

theorem dot_eq_add_entry {r : Row} (hpos : pos < r.length) :
    r.dot v = Row.dot (r.set pos 0) v + r.entry pos * v.entry pos := by
  rw [Row.dot_set hpos]
  ring

theorem zero_from_cons_set {r : Row} {m : Int} (hz : ∀ k, pos + 1 ≤ k → r.entry k = 0) :
    ∀ c, pos < c → Row.entry (m :: r.set pos 0) c = 0 := by
  intro c hc
  cases c with
  | zero => omega
  | succ c =>
    rw [Row.entry_cons_succ, Row.entry_set]
    split
    · rfl
    · rename_i hne
      by_cases hcp : pos = c
      · exact Row.entry_eq_zero (by
          by_contra hlt
          exact hne ⟨hcp, by omega⟩)
      · exact hz c (by omega)

theorem definitionOfEquality_spec (hb : boundsLast pos c = true) :
    IsDefinition c.width pos (definitionOfEquality pos c) ∧
      (c.row.dot v = 0 → v.entry pos = Division.value (definitionOfEquality pos c) v) := by
  obtain ⟨ha, hz⟩ := boundsLast_iff.1 hb
  have hpos := Row.lt_length_of_entry_ne_zero ha
  have hneg : ∀ k, c.row.neg.entry k = -c.row.entry k := fun k =>
    Row.entry_map (f := fun x => -x) rfl c.row k
  constructor
  · refine ⟨?_, ?_, ?_⟩
    · rw [definitionOfEquality]
      split <;> simp [Row.length_neg, Constraint.width]
    · simp only [definitionOfEquality, Row.entry_cons_zero]
      omega
    · simp only [definitionOfEquality]
      refine zero_from_cons_set fun k hk => ?_
      split
      · rw [hneg, hz k hk, Int.neg_zero]
      · exact hz k hk
  · intro hdot
    have hsplit := dot_eq_add_entry (v := v) hpos
    have hsplit' := dot_eq_add_entry (r := c.row.neg) (v := v)
      (by rw [Row.length_neg]; exact hpos)
    rw [Row.dot_neg, hneg] at hsplit'
    simp only [definitionOfEquality, Division.value, List.drop_one, List.tail_cons,
      Row.entry_cons_zero]
    have hm : ((c.row.entry pos).natAbs : Int) ≠ 0 := by omega
    -- The sign of the coefficient decides which of the row and its negation is taken.
    symm
    split
    · rename_i hlt
      rw [show Row.dot (c.row.neg.set pos 0) v = (c.row.entry pos).natAbs * v.entry pos by
        rw [show ((c.row.entry pos).natAbs : Int) = c.row.entry pos by omega]
        linarith]
      exact Int.mul_fdiv_cancel_left _ hm
    · rename_i hlt
      rw [show Row.dot (c.row.set pos 0) v = (c.row.entry pos).natAbs * v.entry pos by
        rw [show ((c.row.entry pos).natAbs : Int) = -c.row.entry pos by omega]
        linarith]
      exact Int.mul_fdiv_cancel_left _ hm

/-- Between `f - m d ≥ 0` and `-f + m d + m - 1 ≥ 0` there is room for `d = ⌊f / m⌋` alone. -/
theorem closes_spec {lower upper : Constraint} (hb : boundsLast pos lower = true)
    (hneg : lower.row.entry pos < 0) (hc : closes pos lower upper = true)
    (hl : lower.kind = .inequality) (hu : upper.kind = .inequality) (hpos : 0 < pos) {w : Row}
    (hsl : lower.isSatisfied (1 :: w) = true) (hsu : upper.isSatisfied (1 :: w) = true) :
    Row.entry (1 :: w) pos =
      Division.value (-lower.row.entry pos :: lower.row.set pos 0) (1 :: w) := by
  obtain ⟨ha, -⟩ := boundsLast_iff.1 hb
  have hlt := Row.lt_length_of_entry_ne_zero ha
  have hsplit := dot_eq_add_entry (v := 1 :: w) hlt
  rw [Constraint.isSatisfied_iff, ConstraintKind.admits_iff, hl] at hsl
  rw [Constraint.isSatisfied_iff, ConstraintKind.admits_iff, hu] at hsu
  simp only [closes, Constraint.isOpposite, Constraint.constant, Bool.and_eq_true,
    beq_iff_eq] at hc
  obtain ⟨⟨-, hlen, hopp⟩, hsum⟩ := hc
  have hdot : upper.row.dot (1 :: w) =
      -lower.row.dot (1 :: w) + (upper.row.entry 0 + lower.row.entry 0) := by
    cases hr : upper.row with
    | nil => rw [hr] at hlen; simp at hlen; omega
    | cons y s =>
      cases hr' : lower.row with
      | nil => rw [hr'] at hlt; simp at hlt
      | cons x r =>
        rw [hr, hr'] at hlen hopp
        have := Row.dot_of_isNegation (by simpa using hlen) (by simpa using hopp) w
        simp only [Row.dot_cons, Row.entry_cons_zero, this]
        ring
  simp only [Division.value, List.drop_one, List.tail_cons, Row.entry_cons_zero]
  rw [← eq_fdiv_iff (by omega)]
  constructor <;> linarith

/-- A definition that is found is wide enough, has a positive denominator, and gives the value that
the division has wherever the constraints hold. -/
theorem definition?_spec {constraints : List Constraint} {n : Nat} {row : Row} (hpos : 0 < pos)
    (hw : ∀ c ∈ constraints, c.width = n) (h : definition? constraints pos = some row) :
    IsDefinition n pos row ∧ ∀ w, (∀ c ∈ constraints, c.isSatisfied (1 :: w) = true) →
      Row.entry (1 :: w) pos = Division.value row (1 :: w) := by
  simp only [definition?] at h
  split at h
  · rename_i c hfind
    obtain rfl := Option.some.inj h
    have hmem := List.mem_filter.1 (List.mem_of_find?_eq_some hfind)
    have hkind : c.kind = .equality := by simpa [Constraint.isEquality] using List.find?_some hfind
    have hspec := fun w => definitionOfEquality_spec (v := w) hmem.2
    rw [hw c hmem.1] at hspec
    refine ⟨(hspec []).1, fun w hsat => (hspec _).2 ?_⟩
    have := hsat c hmem.1
    rwa [Constraint.isSatisfied_iff, ConstraintKind.admits_iff, hkind] at this
  · obtain ⟨lower, hfind, rfl⟩ := Option.map_eq_some_iff.1 h
    have hmem := List.mem_filter.1 (List.mem_of_find?_eq_some hfind)
    have hbound := List.mem_filter.1 hmem.1
    have hfound := List.find?_some hfind
    simp only [Bool.and_eq_true, decide_eq_true_eq, List.any_eq_true] at hfound
    obtain ⟨hneg, upper, hupper, hcloses⟩ := hfound
    have hupper' := List.mem_filter.1 hupper
    have hkind : lower.kind = .inequality := by simpa [Constraint.isInequality] using hmem.2
    have hkind' : upper.kind = .inequality := by
      simpa [Constraint.isInequality] using hupper'.2
    refine ⟨⟨?_, ?_, ?_⟩, fun w hsat => ?_⟩
    · simp only [List.length_cons, List.length_set]
      rw [← hw lower hbound.1, Constraint.width]
    · rw [Row.entry_cons_zero]
      omega
    · exact zero_from_cons_set (boundsLast_iff.1 hbound.2).2
    · exact closes_spec hbound.2 hneg hcloses hkind hkind' hpos (hsat lower hbound.1)
        (hsat upper (List.mem_filter.1 hupper'.1).1)

def defined (b : BasicRelation) (k : Nat) (row : Row) : BasicRelation :=
  { b with ls := { b.ls with divs := b.ls.divs.setRow k (Division.normalize row) } }

variable {k : Nat} {row : Row}

theorem setDiv_eq_ok (h : b.WellFormed) (hk : k < b.ls.divs.rows.length)
    (hrow : IsDefinition b.width (1 + b.space.total + k) row) :
    b.ls.setDiv k row = .ok (b.defined k row).ls := by
  have hcolumns := h.divisions.columns
  have hlen := hrow.length
  rw [width, LocalSpace.total, LocalSpace.divCount] at hlen
  have hzero : Row.isZero (row.drop (b.ls.column .div k)) = true := by
    rw [Row.isZero_drop_iff]
    intro c hc
    refine hrow.zero_from c ?_
    have : b.ls.column .div k = 2 + b.space.total + k := rfl
    omega
  have hwidth : row.length = b.ls.divs.columns := by omega
  simp [LocalSpace.setDiv, require, LocalSpace.divCount, Matrix.height, hk, hwidth, hzero, bind,
    Except.bind, pure, Except.pure, defined]

theorem rows_defined : (b.defined k row).ls.divs.rows =
    b.ls.divs.rows.set k (Division.normalize row) := rfl

theorem WellFormed.defined (h : b.WellFormed)
    (hrow : IsDefinition b.width (1 + b.space.total + k) row) : (b.defined k row).WellFormed := by
  have hnorm := Division.normalize_spec (Int.le_of_lt hrow.positive)
  have hlen := hrow.length
  rw [BasicRelation.width, LocalSpace.total, LocalSpace.divCount, Matrix.height] at hlen
  refine ⟨(wellFormed_iff _).2 ⟨?_, ⟨?_, ?_⟩⟩, ?_, fun c hc => ?_⟩
  · rw [rows_defined, List.length_set]
    exact h.divisions.columns
  · rw [rows_defined, List.length_set]
    intro r hr
    rcases List.mem_or_eq_of_mem_set hr with hr | rfl
    · exact h.divisions.triangular.length_row r hr
    · rw [Division.length_normalize, hlen]
      change 1 + (b.ls.space.total + _) + 1 = 2 + b.ls.space.total + _
      omega
  · intro j r hr c hc
    rw [rows_defined, List.getElem?_set] at hr
    split at hr
    · split at hr
      · obtain rfl := Option.some.inj hr
        have htotal : (b.defined k row).ls.space.total = b.space.total := rfl
        exact Division.entry_normalize_eq_zero (by omega) (hrow.zero_from c (by omega))
      · cases hr
    · exact h.divisions.triangular.zero_from j r hr c hc
  · rw [rows_defined]
    intro r hr
    rcases List.mem_or_eq_of_mem_set hr with hr | rfl
    · exact h.positive r hr
    · exact hnorm.2.2
  · rw [h.width c hc]
    change 1 + (b.ls.space.total + b.ls.divs.rows.length) =
      1 + (b.ls.space.total + (b.ls.divs.rows.set k _).length)
    rw [List.length_set]

/-- Where the constraints give the definition, the values of the divisions obey it already. -/
theorem holds_defined_iff (hk : b.ls.isKnown k = false) (hm : 0 < row.entry 0)
    (hval : ∀ w, (∀ c ∈ b.constraints, c.isSatisfied (1 :: w) = true) →
      Row.entry (1 :: w) (1 + b.space.total + k) = Division.value row (1 :: w))
    {x d : Row} (hx : x.length = b.space.total) : (b.defined k row).Holds x d ↔ b.Holds x d := by
  have hnorm := Division.normalize_spec (Int.le_of_lt hm)
  constructor
  · rintro ⟨⟨hl, hassign⟩, hcon, hsat⟩
    rw [rows_defined, List.length_set] at hl
    refine ⟨⟨hl, fun j r hr hj => hassign j r ?_ hj⟩, hcon, hsat⟩
    have hjk : k ≠ j := by
      rintro rfl
      simp [LocalSpace.isKnown, LocalSpace.div?, hr, hj] at hk
    rw [rows_defined, List.getElem?_set_ne hjk, hr]
  · rintro ⟨⟨hl, hassign⟩, hcon, hsat⟩
    refine ⟨⟨by rw [rows_defined, List.length_set, hl], fun j r hr hj => ?_⟩, hcon, hsat⟩
    rw [rows_defined, List.getElem?_set] at hr
    split at hr
    · rename_i hkj
      subst hkj
      split at hr
      · obtain rfl := Option.some.inj hr
        rw [hnorm.1, ← hval (x ++ d) hsat, show 1 + b.space.total + k = x.length + k + 1 by omega,
          Row.entry_cons_succ, Row.entry_append_right]
      · cases hr
    · exact hassign j r hr hj

theorem recoverDiv_of_settled {r : Recovery} (h : r.relation.ls.isKnown k = true ∨
    definition? r.relation.constraints (1 + r.relation.space.total + k) = none) :
    recoverDiv r k = .ok r := by
  cases hknown : r.relation.ls.isKnown k with
  | true => simp only [recoverDiv, hknown, if_true]; rfl
  | false =>
    have hdef := h.resolve_left (by rw [hknown]; decide)
    simp only [recoverDiv, hknown, hdef]
    rfl

/-- All that one step can do: nothing, or it defines the division and adds the bounds for it. -/
theorem recoverDiv_cases {r : Recovery} (h : r.relation.WellFormed)
    (hk : k < r.relation.ls.divs.rows.length) :
    ((r.relation.ls.isKnown k = true ∨
        definition? r.relation.constraints (1 + r.relation.space.total + k) = none) ∧
      recoverDiv r k = .ok r) ∨
    ∃ row, r.relation.ls.isKnown k = false ∧
      definition? r.relation.constraints (1 + r.relation.space.total + k) = some row ∧
      recoverDiv r k = .ok ⟨(r.relation.defined k row).insertDivBounds k, r.found + 1⟩ := by
  cases hknown : r.relation.ls.isKnown k with
  | true => exact .inl ⟨.inl rfl, recoverDiv_of_settled (.inl hknown)⟩
  | false =>
    cases hdef : definition? r.relation.constraints (1 + r.relation.space.total + k) with
    | none => exact .inl ⟨.inr rfl, recoverDiv_of_settled (.inr hdef)⟩
    | some row =>
      obtain ⟨hrow, -⟩ := definition?_spec (by omega) h.width hdef
      refine .inr ⟨row, rfl, rfl, ?_⟩
      simp only [recoverDiv, hknown, hdef, setDiv_eq_ok h hk hrow, bind, Except.bind, pure,
        Except.pure]
      rfl

theorem recoverDiv_eq_ok {r : Recovery} (h : r.relation.WellFormed)
    (hk : k < r.relation.ls.divs.rows.length) :
    ∃ r', recoverDiv r k = .ok r' ∧ r'.relation.WellFormed ∧
      r'.relation.space = r.relation.space ∧
      r'.relation.ls.divs.rows.length = r.relation.ls.divs.rows.length ∧
      r'.relation.contradictory = r.relation.contradictory ∧
      (r.relation.EachSolvable → r'.relation.EachSolvable) ∧
      ∀ x d, x.length = r.relation.space.total →
        (r'.relation.Holds x d ↔ r.relation.Holds x d) := by
  obtain ⟨-, hok⟩ | ⟨row, hknown, hdef, hok⟩ := recoverDiv_cases h hk
  · exact ⟨r, hok, h, rfl, rfl, rfl, id, fun _ _ _ => Iff.rfl⟩
  · obtain ⟨hrow, hval⟩ := definition?_spec (by omega) h.width hdef
    have hwf := h.defined hrow
    refine ⟨_, hok, hwf.insertDivBounds k, ?_, ?_, ?_, fun hs => ?_, fun x d hx => ?_⟩
    · rw [space, ls_insertDivBounds]
      rfl
    · rw [ls_insertDivBounds, rows_defined, List.length_set]
    · rw [contradictory_insertDivBounds]
      rfl
    · exact EachSolvable.insertDivBounds (b := r.relation.defined k row) hs hwf k
    · rw [← holds_defined_iff hknown hrow.positive hval hx]
      exact ⟨Holds.of_insertDivBounds, fun hd => hd.insertDivBounds hwf hx k⟩

/-- Recovering definitions succeeds and keeps the points, with the same values of the divisions. -/
theorem recoverDefinitions_eq_ok (h : b.WellFormed) :
    ∃ r, b.recoverDefinitions = .ok r ∧ r.relation.WellFormed ∧ r.relation.space = b.space ∧
      r.relation.contradictory = b.contradictory ∧
      (b.EachSolvable → r.relation.EachSolvable) ∧
      ∀ x d, x.length = b.space.total → (r.relation.Holds x d ↔ b.Holds x d) := by
  obtain ⟨r, hok, hwf, hspace, -, hcon, hs, hholds⟩ := foldlM_eq_ok (f := recoverDiv)
    (l := List.range b.ls.divCount) (b := ⟨b, 0⟩)
    (P := fun r => r.relation.WellFormed ∧ r.relation.space = b.space ∧
      r.relation.ls.divs.rows.length = b.ls.divs.rows.length ∧
      r.relation.contradictory = b.contradictory ∧
      (b.EachSolvable → r.relation.EachSolvable) ∧
      ∀ x d, x.length = b.space.total → (r.relation.Holds x d ↔ b.Holds x d))
    (fun r k hk ⟨hwf, hspace, hlen, hcon, hs, hholds⟩ => by
      have hk' : k < r.relation.ls.divs.rows.length := hlen ▸ List.mem_range.1 hk
      obtain ⟨r', hok, hwf', hspace', hlen', hcon', hs', hholds'⟩ := recoverDiv_eq_ok hwf hk'
      exact ⟨r', hok, hwf', hspace'.trans hspace, hlen'.trans hlen, hcon'.trans hcon,
        fun hb => hs' (hs hb), fun x d hx =>
          (hholds' x d (by rw [hspace, hx])).trans (hholds x d hx)⟩)
    ⟨h, rfl, rfl, rfl, id, fun _ _ _ => Iff.rfl⟩
  exact ⟨r, hok, hwf, hspace, hcon, hs, hholds⟩

/-- There is nothing to recover where each division has a definition or there is none for it. -/
theorem recoverDefinitions_of_settled (h : ∀ k < b.ls.divCount, b.ls.isKnown k = true ∨
    definition? b.constraints (1 + b.space.total + k) = none) :
    b.recoverDefinitions = .ok ⟨b, 0⟩ := by
  obtain ⟨r, hok, rfl⟩ := foldlM_eq_ok (f := recoverDiv) (l := List.range b.ls.divCount)
    (b := ⟨b, 0⟩) (P := fun r => r = ⟨b, 0⟩)
    (fun r k hk hr => ⟨r, recoverDiv_of_settled (hr ▸ h k (List.mem_range.1 hk)), hr⟩) rfl
  exact hok

theorem recoverDefinitions_of_allKnown (h : b.ls.allKnown = true) :
    b.recoverDefinitions = .ok ⟨b, 0⟩ := by
  refine recoverDefinitions_of_settled fun k hk => .inl ?_
  have hlt : k < b.ls.divs.rows.length := hk
  rw [LocalSpace.isKnown, LocalSpace.div?, List.getElem?_eq_getElem hlt, Option.any_some]
  exact List.all_eq_true.1 h _ (List.getElem_mem hlt)

end Quasiaffine.BasicRelation
