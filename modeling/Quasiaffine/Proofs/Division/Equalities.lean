import Quasiaffine.Proofs.Division.Editing
import Quasiaffine.Proofs.Division.Value

/-!
Equalities on local spaces. An equality that holds at a point can be used to clear a column from the
divisions: the row is scaled, a multiple of the equality is added, common factors are divided out,
and the floor that the row stands for is still the same at that point.
-/

set_option autoImplicit false

namespace Quasiaffine

namespace Row

variable {r s : Row} {pos : Nat}

theorem entry_combine_of_lt {m₁ m₂ : Int} {c : Nat} (hr : c < r.length) (hs : c < s.length) :
    (combine m₁ m₂ r s).entry c = m₁ * r.entry c + m₂ * s.entry c := by
  induction r generalizing s c with
  | nil => simp at hr
  | cons x r ih =>
    cases s with
    | nil => simp at hs
    | cons y s =>
      cases c with
      | zero => rfl
      | succ c =>
        simp only [combine, entry_cons_succ]
        exact ih (by simpa using hr) (by simpa using hs)

/-- The multiples that elimination takes of `g q` and `g p` cancel out. -/
theorem cancel_multiples {g p q : Int} (hg : 0 < g) :
    (p.natAbs : Int) * (g * q) + (if 0 < g * p then -q else q) * (g * p) = 0 := by
  split_ifs with hp
  · have habs : (p.natAbs : Int) = p := by
      have := Int.pos_of_mul_pos_right hp hg
      omega
    rw [habs]
    ring
  · have habs : (p.natAbs : Int) = -p := by
      have : p ≤ 0 := by
        by_contra hpos
        exact hp (Int.mul_pos hg (by omega))
      omega
    rw [habs]
    ring

/-- Elimination takes a positive multiple of a row and adds a multiple of the other one, so that
the column is cleared. -/
theorem eliminate_spec (hl : r.length = s.length) (hs : s.entry pos ≠ 0) :
    0 < (r.eliminate s pos).factor ∧ (r.eliminate s pos).row.entry pos = 0 ∧
      ∃ b, ∀ v, dot (r.eliminate s pos).row v =
        (r.eliminate s pos).factor * dot r v + b * dot s v := by
  by_cases hr : r.entry pos = 0
  · rw [eliminate, if_pos hr]
    exact ⟨Int.one_pos, hr, 0, fun v => by simp⟩
  · rw [eliminate, if_neg hr]
    have hlt := lt_length_of_entry_ne_zero hs
    have hg : (0 : Int) < Int.gcd (s.entry pos) (r.entry pos) :=
      Int.natCast_pos.2 (Int.gcd_pos_of_ne_zero_left _ hs)
    have hmul := Int.mul_tdiv_cancel' (Int.gcd_dvd_left (s.entry pos) (r.entry pos))
    have hmul' := Int.mul_tdiv_cancel' (Int.gcd_dvd_right (s.entry pos) (r.entry pos))
    generalize ((Int.gcd (s.entry pos) (r.entry pos) : Nat) : Int) = g at hg hmul hmul' ⊢
    refine ⟨Int.natCast_pos.2 (Int.natAbs_pos.2 fun h => hs ?_), ?_, _, fun v => dot_combine hl v⟩
    · rw [← hmul, h, Int.mul_zero]
    · have hcancel := cancel_multiples (p := (s.entry pos).tdiv g) (q := (r.entry pos).tdiv g) hg
      rw [hmul, hmul'] at hcancel
      rw [entry_combine_of_lt (hl ▸ hlt) hlt]
      exact hcancel

end Row

namespace LocalSpace

section Clear

variable {equality r : Row} {j : Nat}

/-- Clearing a column from a division with an equality that holds at `[1, x₁, …]` changes neither
whether there is a definition nor the value that it gives there. -/
theorem clearColumn_spec (hl : r.length = equality.length + 1) (he : equality.entry j ≠ 0)
    (hm : 0 ≤ r.entry 0) {v : Row} (hv : Row.dot equality (1 :: v) = 0) :
    Division.isKnown (clearColumn equality j r) = Division.isKnown r ∧
      Division.value (clearColumn equality j r) (1 :: v) = Division.value r (1 :: v) := by
  cases r with
  | nil => exact ⟨rfl, rfl⟩
  | cons m rest =>
    rw [clearColumn_cons]
    split_ifs with hj
    · exact ⟨rfl, rfl⟩
    · obtain ⟨hpos, -, b, hdot⟩ := Row.eliminate_spec (by simpa using hl) he
      rw [Row.entry_cons_zero] at hm
      generalize Row.eliminate rest equality j = cleared at hpos hdot ⊢
      obtain ⟨hvalue, hknown, -⟩ := Division.normalize_spec
        (r := m * cleared.factor :: cleared.row) (Int.mul_nonneg hm (Int.le_of_lt hpos))
      refine ⟨?_, ?_⟩
      · rw [hknown, Bool.eq_iff_iff, Division.isKnown_iff, Division.isKnown_iff,
          Row.entry_cons_zero, Row.entry_cons_zero]
        simp [Int.ne_of_gt hpos]
      · rw [hvalue]
        simp only [Division.value, List.drop_one, List.tail_cons, Row.entry_cons_zero, hdot, hv,
          Int.mul_zero, Int.add_zero]
        rw [Int.mul_comm m, Int.mul_fdiv_mul_of_pos _ _ hpos]

theorem entry_clearColumn_self (hl : r.length = equality.length + 1) (hj : 0 < j)
    (he : equality.entry j ≠ 0) : (clearColumn equality j r).entry (j + 1) = 0 := by
  cases r with
  | nil => rfl
  | cons m rest =>
    rw [clearColumn_cons]
    split_ifs with hz
    · exact hz
    · exact Division.entry_normalize_eq_zero (by omega)
        (Row.eliminate_spec (by simpa using hl) he).2.1

theorem clearColumn_of_isZero (h : r.isZero = true) : clearColumn equality j r = r := by
  rw [Row.isZero_iff] at h
  cases r with
  | nil => rfl
  | cons m rest =>
    have hj : Row.entry rest j = 0 := h (j + 1)
    rw [clearColumn_cons, if_pos hj]

theorem entry_clearColumn {c : Nat} (hr : r.entry (c + 2) = 0) (he : equality.entry (c + 1) = 0) :
    (clearColumn equality j r).entry (c + 2) = 0 := by
  cases r with
  | nil => rfl
  | cons m rest =>
    rw [clearColumn_cons]
    split_ifs with hj
    · exact hr
    · refine Division.entry_normalize_eq_zero (by omega) ?_
      rw [Row.entry_cons_succ, Row.eliminate, if_neg hj]
      exact Row.entry_combine hr he

end Clear

variable {ls : LocalSpace} {x d equality : Row} {equalities : List Row}

def Determines (ls : LocalSpace) (equality : Row) (j : Nat) : Prop :=
  equality.lastNonZero? = some j ∧ 0 < j ∧ j < 1 + ls.total

structure Rewritten (ls ls' : LocalSpace) (v : Row) : Prop where
  space : ls'.space = ls.space
  wellFormed : ls'.WellFormed
  count : ls'.divCount = ls.divCount
  row : ∀ (k : Nat) (r : Row), ls.divs.rows[k]? = some r → ∃ r' : Row,
    ls'.divs.rows[k]? = some r' ∧ Division.isKnown r' = Division.isKnown r ∧ 0 ≤ r'.entry 0 ∧
      Division.value r' v = Division.value r v ∧ (r.isZero = true → r' = r)

namespace Rewritten

variable {ls₁ ls₂ : LocalSpace} {v : Row}

theorem refl (h : ls.WellFormed) (hm : ∀ r ∈ ls.divs.rows, 0 ≤ r.entry 0) (v : Row) :
    Rewritten ls ls v :=
  ⟨rfl, h, rfl, fun _ r hr => ⟨r, hr, rfl, hm r (List.mem_of_getElem? hr), rfl, fun _ => rfl⟩⟩

theorem trans (h : Rewritten ls ls₁ v) (h' : Rewritten ls₁ ls₂ v) : Rewritten ls ls₂ v where
  space := h'.space.trans h.space
  wellFormed := h'.wellFormed
  count := h'.count.trans h.count
  row := by
    intro k r hr
    obtain ⟨r₁, hr₁, hk₁, -, hv₁, hz₁⟩ := h.row k r hr
    obtain ⟨r₂, hr₂, hk₂, hm₂, hv₂, hz₂⟩ := h'.row k r₁ hr₁
    refine ⟨r₂, hr₂, hk₂.trans hk₁, hm₂, hv₂.trans hv₁, fun hz => ?_⟩
    rw [← hz₁ hz]
    exact hz₂ (hz₁ hz ▸ hz)

theorem total (h : Rewritten ls ls₁ v) : ls₁.total = ls.total := by
  rw [LocalSpace.total, LocalSpace.total, h.space, h.count]

theorem nonNegative (h : Rewritten ls ls₁ v) : ∀ r ∈ ls₁.divs.rows, 0 ≤ r.entry 0 := by
  intro r₁ hr₁
  obtain ⟨k, hk⟩ := List.mem_iff_getElem?.1 hr₁
  have hlt := (List.getElem?_eq_some_iff.1 hk).1
  have hcount : ls₁.divs.rows.length = ls.divs.rows.length := h.count
  obtain ⟨r', hr', -, hm, -⟩ := h.row k _ (List.getElem?_eq_getElem (hcount ▸ hlt))
  obtain rfl := Option.some.inj (hk.symm.trans hr')
  exact hm

end Rewritten

def cleared (ls : LocalSpace) (equality : Row) (j : Nat) : LocalSpace :=
  { ls with
    divs := ls.divs.mapRows ls.divs.columns (clearColumn (equality.take (1 + ls.total)) j) }

theorem substituteEquality_of_determines {j : Nat} (hw : 1 + ls.total ≤ equality.length)
    (hj : ls.Determines equality j) :
    ls.substituteEquality equality = .ok (ls.cleared equality j) := by
  simp only [substituteEquality, require, hw, decide_true, if_true, bind, Except.bind, hj.1,
    hj.2.1, hj.2.2, Bool.and_self]
  rfl

theorem substituteEquality_of_not_determines (hw : 1 + ls.total ≤ equality.length)
    (hj : ∀ j, ¬ls.Determines equality j) : ls.substituteEquality equality = .ok ls := by
  simp only [substituteEquality, require, hw, decide_true, if_true, bind, Except.bind]
  cases hlast : equality.lastNonZero? with
  | none => rfl
  | some j =>
    have hnot : ¬(0 < j ∧ j < 1 + ls.total) := fun h => hj j ⟨hlast, h⟩
    simp only [← Bool.decide_and, decide_eq_true_eq, if_neg hnot]
    rfl

namespace Determines

variable {j : Nat} (hj : ls.Determines equality j)

include hj

theorem entry_take (c : Nat) : Row.entry (equality.take (1 + ls.total)) c = equality.entry c := by
  rw [Row.entry_take]
  split_ifs with hc
  · rfl
  · obtain ⟨hlast, -, hlt⟩ := hj
    exact ((Row.lastNonZero?_eq_some hlast).2 c (by omega)).symm

theorem entry_ne_zero : Row.entry (equality.take (1 + ls.total)) j ≠ 0 := by
  rw [hj.entry_take]
  exact (Row.lastNonZero?_eq_some hj.1).1

omit hj in
theorem length_row (h : ls.WellFormed) (hw : 1 + ls.total ≤ equality.length) :
    ∀ r ∈ ls.divs.rows, r.length = (equality.take (1 + ls.total)).length + 1 := by
  intro r hr
  have hlen := h.triangular.length_row r hr
  have htotal : ls.total = ls.space.total + ls.divs.rows.length := rfl
  rw [List.length_take]
  omega

/-- An equality that holds can be used on the divisions. -/
theorem rewritten_cleared {v : Row} (h : ls.WellFormed) (hm : ∀ r ∈ ls.divs.rows, 0 ≤ r.entry 0)
    (hw : 1 + ls.total ≤ equality.length) (hv : Row.dot equality (1 :: v) = 0) :
    Rewritten ls (ls.cleared equality j) (1 :: v) where
  space := rfl
  wellFormed := h.mapRows (fun r _ => length_clearColumn r) fun r m c _ hz hc => by
    refine entry_clearColumn_eq_zero (fun c hc => ?_) hz hc
    rw [hj.entry_take]
    exact (Row.lastNonZero?_eq_some hj.1).2 c hc
  count := by simp [cleared, divCount, Matrix.height, Matrix.mapRows]
  row := by
    intro k r hr
    have hmem := List.mem_of_getElem? hr
    rw [← Row.dot_congr_left hj.entry_take] at hv
    obtain ⟨hknown, hvalue⟩ :=
      clearColumn_spec (length_row h hw r hmem) hj.entry_ne_zero (hm r hmem) hv
    refine ⟨clearColumn (equality.take (1 + ls.total)) j r, ?_, hknown,
      entry_zero_clearColumn (hm r hmem), hvalue, clearColumn_of_isZero⟩
    simp [cleared, Matrix.mapRows, hr]

theorem entry_cleared_self (h : ls.WellFormed) (hw : 1 + ls.total ≤ equality.length) :
    ∀ r ∈ (ls.cleared equality j).divs.rows, r.entry (1 + j) = 0 := by
  intro r' hr'
  obtain ⟨r, hr, rfl⟩ := List.mem_map.1 hr'
  rw [Nat.add_comm 1 j]
  exact entry_clearColumn_self (length_row h hw r hr) hj.2.1 hj.entry_ne_zero

theorem entry_cleared {c : Nat} (hc : equality.entry (c + 1) = 0)
    (hz : ∀ r ∈ ls.divs.rows, r.entry (c + 2) = 0) :
    ∀ r ∈ (ls.cleared equality j).divs.rows, r.entry (c + 2) = 0 := by
  intro r' hr'
  obtain ⟨r, hr, rfl⟩ := List.mem_map.1 hr'
  exact entry_clearColumn (hz r hr) (by rwa [hj.entry_take])

end Determines

theorem rewritten_substituteEquality {v : Row} (h : ls.WellFormed)
    (hm : ∀ r ∈ ls.divs.rows, 0 ≤ r.entry 0) (hw : 1 + ls.total ≤ equality.length)
    (hv : ∀ j, ls.Determines equality j → Row.dot equality (1 :: v) = 0) :
    ∃ ls', ls.substituteEquality equality = .ok ls' ∧ Rewritten ls ls' (1 :: v) := by
  by_cases hj : ∃ j, ls.Determines equality j
  · obtain ⟨j, hj⟩ := hj
    exact ⟨_, substituteEquality_of_determines hw hj, hj.rewritten_cleared h hm hw (hv j hj)⟩
  · exact ⟨ls, substituteEquality_of_not_determines hw (not_exists.1 hj), .refl h hm _⟩

/-- A column that is cleared from the divisions comes back only with an equality that has it. -/
theorem entry_of_substituteEqualities {ls' : LocalSpace} {c : Nat}
    (hc : ∀ e ∈ equalities, Row.entry e (c + 1) = 0)
    (hz : ∀ r ∈ ls.divs.rows, Row.entry r (c + 2) = 0)
    (hok : ls.substituteEqualities equalities = .ok ls') :
    ∀ r ∈ ls'.divs.rows, Row.entry r (c + 2) = 0 := by
  refine foldlM_induction (P := fun ls => ∀ r ∈ ls.divs.rows, Row.entry r (c + 2) = 0)
    (fun ls e he ls' hok hz => ?_) hz hok
  have hw : 1 + ls.total ≤ e.length := by
    simp only [substituteEquality, bind_eq_ok_iff, require_eq_ok_iff, decide_eq_true_eq] at hok
    exact hok.elim fun _ h => h.1
  by_cases hj : ∃ j, ls.Determines e j
  · obtain ⟨j, hj⟩ := hj
    rw [substituteEquality_of_determines hw hj, Except.ok.injEq] at hok
    exact hok ▸ hj.entry_cleared (hc e he) hz
  · rw [substituteEquality_of_not_determines hw (not_exists.1 hj), Except.ok.injEq] at hok
    exact hok ▸ hz

/-- All equalities, one after the other, keep the values of the divisions. -/
theorem rewritten_substituteEqualities {v : Row} (h : ls.WellFormed)
    (hm : ∀ r ∈ ls.divs.rows, 0 ≤ r.entry 0) (hw : ∀ e ∈ equalities, 1 + ls.total ≤ e.length)
    (hv : ∀ e ∈ equalities, ∀ j, ls.Determines e j → Row.dot e (1 :: v) = 0) :
    ∃ ls', ls.substituteEqualities equalities = .ok ls' ∧ Rewritten ls ls' (1 :: v) := by
  refine foldlM_eq_ok (P := fun ls' => Rewritten ls ls' (1 :: v)) (fun ls₁ e he h₁ => ?_)
    (.refl h hm _)
  have hdet : ∀ j, ls₁.Determines e j → ls.Determines e j := fun j hj =>
    ⟨hj.1, hj.2.1, h₁.total ▸ hj.2.2⟩
  obtain ⟨ls₂, hok, h₂⟩ := rewritten_substituteEquality h₁.wellFormed h₁.nonNegative
    (h₁.total ▸ hw e he) fun j hj => hv e he j (hdet j hj)
  exact ⟨ls₂, hok, h₁.trans h₂⟩

/-- What an equality determines is cleared for good, unless a later equality mentions it. -/
theorem entry_of_determines {ls' : LocalSpace} {before after : List Row} {v : Row} {j : Nat}
    (h : ls.WellFormed) (hm : ∀ r ∈ ls.divs.rows, 0 ≤ r.entry 0)
    (hw : ∀ e ∈ before ++ equality :: after, 1 + ls.total ≤ e.length)
    (hv : ∀ e ∈ before ++ equality :: after, ∀ j, ls.Determines e j → Row.dot e (1 :: v) = 0)
    (hok : ls.substituteEqualities (before ++ equality :: after) = .ok ls')
    (hj : ls.Determines equality j) (hafter : ∀ e ∈ after, Row.entry e j = 0) :
    ∀ r ∈ ls'.divs.rows, Row.entry r (1 + j) = 0 := by
  obtain ⟨ls₁, hok₁, h₁⟩ := rewritten_substituteEqualities h hm
    (fun e he => hw e (List.mem_append_left _ he)) fun e he => hv e (List.mem_append_left _ he)
  have hw₁ : 1 + ls₁.total ≤ equality.length :=
    h₁.total ▸ hw equality (List.mem_append_right _ List.mem_cons_self)
  have hj₁ : ls₁.Determines equality j := ⟨hj.1, hj.2.1, h₁.total.symm ▸ hj.2.2⟩
  rw [substituteEqualities] at hok₁
  rw [substituteEqualities, List.foldlM_append, hok₁] at hok
  change (equality :: after).foldlM substituteEquality ls₁ = .ok ls' at hok
  rw [List.foldlM_cons, substituteEquality_of_determines hw₁ hj₁] at hok
  obtain ⟨c, rfl⟩ := Nat.exists_eq_succ_of_ne_zero (Nat.ne_of_gt hj.2.1)
  have hself := hj₁.entry_cleared_self h₁.wellFormed hw₁
  rw [show 1 + c.succ = c + 2 by omega] at hself ⊢
  exact entry_of_substituteEqualities hafter hself hok

/-- Equalities that hold at a point can be used on the divisions. Each division keeps its value
there, and what an equality determines is cleared unless a later equality mentions it. -/
theorem substituteEqualities_keeps_values (ls : LocalSpace) (equalities : List Row) (x d : Row)
    (hwf : ls.WellFormed) (hm : ∀ r ∈ ls.divs.rows, 0 ≤ r.entry 0)
    (hw : ∀ e ∈ equalities, 1 + ls.total ≤ e.length) (hd : ls.Assigns x d)
    (hv : ∀ e ∈ equalities, ∀ j, ls.Determines e j → Row.dot e (1 :: (x ++ d)) = 0) :
    ∃ ls', ls.substituteEqualities equalities = .ok ls' ∧ ls'.space = ls.space ∧
      ls'.divCount = ls.divCount ∧
      (∀ (k : Nat) (r : Row), ls.divs.rows[k]? = some r → ∃ r' : Row,
        ls'.divs.rows[k]? = some r' ∧
        (Division.isKnown r = true →
          0 < r'.entry 0 ∧ Division.value r' (1 :: (x ++ d)) = d.entry k) ∧
        (r.isZero = true → r' = r)) ∧
      ls'.WellFormed ∧
      ∀ before e after j, equalities = before ++ e :: after → ls.Determines e j →
        (∀ e' ∈ after, Row.entry e' j = 0) → ∀ r ∈ ls'.divs.rows, Row.entry r (1 + j) = 0 := by
  obtain ⟨ls', hok, h⟩ := rewritten_substituteEqualities hwf hm hw hv
  refine ⟨ls', hok, h.space, h.count, fun k r hr => ?_, h.wellFormed, ?_⟩
  · obtain ⟨r', hr', hknown, hpos, hvalue, hzero⟩ := h.row k r hr
    refine ⟨r', hr', fun hk => ⟨?_, ?_⟩, hzero⟩
    · rw [hk, Division.isKnown_iff] at hknown
      omega
    · rw [hvalue, hd.value k r hr hk]
  · rintro before e after j rfl hj hafter
    exact entry_of_determines hwf hm hw hv hok hj hafter

/-- A division `e` without a definition and `⌊(1 + 2 x + 3 y + 2 e) / 4⌋` become `e` and
`⌊(x + 2 y) / 2⌋` by the equality `y = 2 e`. The second equality is about something else. -/
theorem substituteEqualities_keeps_values_half :
    let ls : LocalSpace := ⟨.anonymousSet 0 2, ⟨6, [[0, 0, 0, 0, 0, 0], [4, 1, 2, 3, 2, 0]]⟩⟩
    let equalities : List Row := [[0, 0, 1, -2, 0, 0], [0, 0, 0, 0, 0, 1]]
    ls.WellFormed ∧ (∀ r ∈ ls.divs.rows, 0 ≤ r.entry 0) ∧
      (∀ e ∈ equalities, 1 + ls.total ≤ e.length) ∧ ls.Assigns [3, 4] [2, 5] ∧
      (∀ e ∈ equalities, ∀ j, ls.Determines e j → Row.dot e (1 :: ([3, 4] ++ [2, 5])) = 0) ∧
      ∃ ls', ls.substituteEqualities equalities = .ok ls' ∧
        ls'.divs.rows = [[0, 0, 0, 0, 0, 0], [2, 0, 1, 2, 0, 0]] ∧
        ∃ r', ls'.divs.rows[1]? = some r' ∧ Division.value r' (1 :: ([3, 4] ++ [2, 5])) = 5 := by
  intro ls equalities
  have hwf : ls.WellFormed := wellFormed_of_forall_lt rfl (by decide) (by decide)
  have hd : ls.Assigns [3, 4] [2, 5] := by
    refine ⟨rfl, fun k r hr hk => ?_⟩
    rcases k with _ | _ | k
    · obtain rfl := Option.some.inj hr
      cases hk
    · obtain rfl := Option.some.inj hr
      decide
    · cases hr
  have hv : ∀ e ∈ equalities, ∀ j, ls.Determines e j → Row.dot e (1 :: ([3, 4] ++ [2, 5])) = 0 := by
    rintro e he j ⟨hlast, -, hlt⟩
    simp only [equalities, List.mem_cons, List.not_mem_nil, or_false] at he
    rcases he with rfl | rfl
    · decide
    · obtain rfl : 5 = j := Option.some.inj hlast
      exact absurd hlt (by decide)
  obtain ⟨ls', hok, -, -, hrows, -⟩ := substituteEqualities_keeps_values ls equalities [3, 4] [2, 5]
    hwf (by decide) (by decide) hd hv
  obtain ⟨r', hr', hknown, -⟩ := hrows 1 [4, 1, 2, 3, 2, 0] rfl
  refine ⟨hwf, by decide, by decide, hd, hv, ls', hok, ?_, r', hr', (hknown rfl).2⟩
  have hresult : ls.substituteEqualities equalities =
      .ok ⟨ls.space, ⟨6, [[0, 0, 0, 0, 0, 0], [2, 0, 1, 2, 0, 0]]⟩⟩ := by
    cbv
  rw [Except.ok.inj (hok.symm.trans hresult)]

end LocalSpace

end Quasiaffine
