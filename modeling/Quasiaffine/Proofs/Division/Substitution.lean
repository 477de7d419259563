import Quasiaffine.Proofs.Division.Equalities
import Quasiaffine.Proofs.Piecewise.Graph

/-!
Replacing a dimension in the divisions of a local space. Divisions are evaluated one after the
other as floors of rational numbers, so that a coordinate may be a fraction. After a replacement
they have at an integer point the values that they had where the coordinate is the value of the
replacement.
-/

set_option autoImplicit false

namespace Quasiaffine

namespace Row

variable {r s v : Row} {q : ℚ} {i : Nat}

def ratDot : Row → List ℚ → ℚ
  | a :: r, x :: v => a * x + ratDot r v
  | _, _ => 0

theorem ratDot_cast (r v : Row) : ratDot r (v.map Int.cast) = (dot r v : ℚ) := by
  induction r generalizing v with
  | nil => simp [ratDot, dot]
  | cons a r ih =>
    cases v with
    | nil => simp [ratDot, dot]
    | cons x v => simp [ratDot, ih]

theorem ratDot_set {v : List ℚ} (hi : i < v.length) :
    ratDot r (v.set i q) = ratDot r v + r.entry i * (q - v.getD i 0) := by
  induction r generalizing v i with
  | nil => simp [ratDot, entry]
  | cons a r ih =>
    cases v with
    | nil => simp at hi
    | cons x v =>
      cases i with
      | zero =>
        simp only [List.set_cons_zero, ratDot, entry_cons_zero, List.getD_cons_zero]
        ring
      | succ i =>
        simp only [List.set_cons_succ, ratDot, entry_cons_succ, List.getD_cons_succ,
          ih (by simpa using hi : i < v.length)]
        ring

theorem ratDot_set_cast (hi : i < v.length) :
    ratDot r ((v.map Int.cast).set i q) = dot r v + r.entry i * (q - v.entry i) := by
  have hentry : (v.map (Int.cast : Int → ℚ)).getD i 0 = v.entry i := by
    simp [entry, List.getD_eq_getElem?_getD, List.getElem?_eq_getElem hi]
  rw [ratDot_set (by simpa using hi), ratDot_cast, hentry]

theorem dot_combine_one {m : Int} (h : s.length ≤ r.length) (v : Row) :
    dot (combine 1 m r s) v = dot r v + m * dot s v := by
  induction r generalizing s v with
  | nil =>
    obtain rfl := List.eq_nil_of_length_eq_zero (Nat.le_zero.1 h)
    simp [combine]
  | cons x r ih =>
    cases s with
    | nil => simp [combine]
    | cons y s =>
      cases v with
      | nil => simp
      | cons z v =>
        simp only [combine, dot_cons, ih (by simpa using h : s.length ≤ r.length)]
        ring

end Row

namespace Division

/-- The greatest integer not above `(c + a₁ x₁ + …) / m` for rational `[1, x₁, …]`. -/
def floorAt (row : Row) (values : List ℚ) : Int :=
  ⌊Row.ratDot (row.drop 1) values / (row.entry 0 : ℚ)⌋

variable {r g v : Row} {i : Nat}

theorem floorAt_cast (hm : 0 < r.entry 0) (v : Row) :
    floorAt r (v.map Int.cast) = value r v := by
  rw [floorAt, Row.ratDot_cast, Affine.floor_div _ hm, value]

theorem positive_normalize (hm : 0 < r.entry 0) : 0 < (normalize r).entry 0 := by
  obtain ⟨-, hknown, hnonneg⟩ := normalize_spec (Int.le_of_lt hm)
  have hne := (isKnown_iff _).1 (hknown.trans ((isKnown_iff r).2 (Int.ne_of_gt hm)))
  omega

end Division

namespace LocalSpace

section Step

variable {r g v : Row} {i : Nat}

theorem positive_replaceColumn (hm : 0 < r.entry 0) (hg : 0 < g.entry 0) :
    0 < (replaceColumn g i r).entry 0 := by
  unfold replaceColumn
  simp only
  split_ifs
  · exact hm
  · exact Division.positive_normalize (Int.mul_pos hm hg)

/-- The row with the replacement takes the floor that the old row takes where the coordinate is
the value of the replacement. -/
theorem floorAt_replaceColumn (hm : 0 < r.entry 0) (hg : 0 < g.entry 0) (hl : g.length ≤ r.length)
    (hi : i ≤ v.length) :
    Division.floorAt (replaceColumn g (i + 1) r) ((1 :: v).map Int.cast) =
      Division.floorAt r (((1 :: v).map Int.cast).set i (Affine.quotient g (1 :: v))) := by
  have hi' : i < (1 :: v).length := Nat.lt_succ_of_le hi
  rw [Division.floorAt_cast (positive_replaceColumn hm hg)]
  conv_rhs => rw [Division.floorAt, Row.ratDot_set_cast hi', Row.entry_drop, Nat.add_comm 1 i]
  cases r with
  | nil => simp at hm
  | cons m r =>
    simp only [Row.entry_cons_succ, Row.entry_cons_zero, List.drop_one, List.tail_cons] at hm ⊢
    unfold replaceColumn
    simp only [Row.entry_cons_succ, Row.entry_cons_zero, List.set_cons_succ, List.drop_one,
      List.tail_cons]
    split_ifs with ha
    · rw [ha, Division.value]
      simp [Affine.floor_div _ hm]
    · have hir : i < r.length := Row.lt_length_of_entry_ne_zero ha
      have hlen : g.tail.length ≤ (Row.scale (g.entry 0) (r.set i 0)).length := by
        rw [Row.length_scale, List.length_set, List.length_tail]
        simp only [List.length_cons] at hl
        omega
      -- The row is scaled by the denominator of the replacement before the replacement is added.
      have hpos : 0 < m * g.entry 0 := Int.mul_pos hm hg
      have hnormal := Division.normalize_spec (r := m * g.entry 0 ::
        Row.combine 1 (Row.entry r i) (Row.scale (g.entry 0) (r.set i 0)) g.tail)
        (Int.le_of_lt hpos)
      rw [hnormal.1, Division.value, List.drop_one, List.tail_cons, Row.entry_cons_zero,
        ← Affine.floor_div _ hpos, Row.dot_combine_one hlen, Row.dot_scale,
        Row.dot_set hir, Affine.quotient, List.drop_one]
      have hs : (g.entry 0 : ℚ) ≠ 0 := by exact_mod_cast Int.ne_of_gt hg
      have hm' : (m : ℚ) ≠ 0 := by exact_mod_cast Int.ne_of_gt hm
      congr 1
      push_cast
      field_simp
      ring

end Step

/-- The values of divisions after those of the dimensions, each the floor of its definition at the
values before it. -/
def floorsAt (values : List ℚ) : List Row → List Int
  | [] => []
  | r :: divs =>
    Division.floorAt r values :: floorsAt (values ++ [(Division.floorAt r values : ℚ)]) divs

def valuesAt (ls : LocalSpace) (point : List ℚ) : List Int := floorsAt (1 :: point) ls.divs.rows

variable {ls : LocalSpace} {x g : Row} {rows : List Row} {i : Nat}

/-- At integers these are the values that the library computes. -/
theorem floors_eq_append_floorsAt (hm : ∀ r ∈ rows, 0 < r.entry 0) (values : Row) :
    floors values rows = values ++ floorsAt (values.map Int.cast) rows := by
  induction rows generalizing values with
  | nil => simp [floors, floorsAt]
  | cons r rows ih =>
    rw [List.forall_mem_cons] at hm
    have hrest := ih hm.2 (values ++ [Division.value r values])
    rw [floors] at hrest ⊢
    rw [List.foldl_cons, hrest, floorsAt, Division.floorAt_cast hm.1]
    simp

theorem assigns_valuesAt (hwf : ls.WellFormed) (hm : ∀ r ∈ ls.divs.rows, 0 < r.entry 0)
    (hx : x.length = ls.space.total) : ls.Assigns x (ls.valuesAt (x.map Int.cast)) := by
  obtain ⟨d, hd, hassigns⟩ := assigns_floors hwf hx
  rw [floors_eq_append_floorsAt hm, List.cons_append, List.cons.injEq,
    List.append_cancel_left_eq] at hd
  have hvalues : ls.valuesAt (x.map Int.cast) = d := by
    rw [valuesAt, ← hd.2]
    simp
  rwa [hvalues]

/-- Behind the dimensions stand the same values on both sides, so a later division sees the
replacement and what it has made of earlier divisions. -/
theorem floorsAt_replaceColumn (hm : ∀ r ∈ rows, 0 < r.entry 0) (hg : 0 < g.entry 0)
    (hl : ∀ r ∈ rows, g.length ≤ r.length) (hx : g.length ≤ 2 + x.length) (hi : i < x.length)
    (d : Row) :
    floorsAt ((1 :: (x ++ d)).map Int.cast) (rows.map (replaceColumn g (i + 2))) =
      floorsAt (((1 :: (x ++ d)).map Int.cast).set (i + 1) (Affine.quotient g (1 :: x))) rows := by
  induction rows generalizing d with
  | nil => rfl
  | cons r rows ih =>
    rw [List.forall_mem_cons] at hm hl
    have hq : Affine.quotient g (1 :: (x ++ d)) = Affine.quotient g (1 :: x) := by
      rw [Affine.quotient, Affine.quotient, Row.dot_congr]
      intro c hc
      have hlt := Row.lt_length_of_entry_ne_zero hc
      rw [List.length_drop] at hlt
      rw [← List.cons_append, Row.entry_append_left _ (by simp; omega)]
    have hstep : Division.floorAt (replaceColumn g (i + 2) r) ((1 :: (x ++ d)).map Int.cast) = _ :=
      floorAt_replaceColumn hm.1 hg hl.1 (by simp; omega)
    rw [hq] at hstep
    have happend : ∀ w : Int, (1 :: (x ++ d)).map (Int.cast : Int → ℚ) ++ [(w : ℚ)] =
        (1 :: (x ++ (d ++ [w]))).map Int.cast := by simp
    have hset : i + 1 < ((1 :: (x ++ d)).map (Int.cast : Int → ℚ)).length := by simp; omega
    change floorsAt _ (replaceColumn g (i + 2) r :: rows.map (replaceColumn g (i + 2))) = _
    rw [floorsAt, floorsAt, hstep, ← List.set_append_left _ _ hset, happend, ih hm.2 hl.2]

def replaced (ls : LocalSpace) (g : Row) (j : Nat) : LocalSpace :=
  { ls with divs := ls.divs.mapRows ls.divs.columns (replaceColumn g j) }

theorem substitute_eq_ok {kind : DimKind} {pos : Nat} {a : Affine}
    (hs : ls.space.agrees a.space = true) (hfree : a.ls.divCount = 0) (hk : kind ≠ .div)
    (hp : pos < ls.dim kind) :
    ls.substitute kind pos a = .ok (ls.replaced a.row (ls.column kind pos)) := by
  simp [substitute, require, hs, hfree, hk, hp, bind, Except.bind, pure, Except.pure, replaced]

theorem wellFormed_replaced (hwf : ls.WellFormed) (hl : g.length ≤ 2 + ls.space.total) (j : Nat) :
    (ls.replaced g j).WellFormed :=
  hwf.mapRows (fun _ hr => length_replaceColumn hr)
    fun _ _ _ hm hz hc => entry_replaceColumn_eq_zero (hl.trans hm) (by omega) hz hc

theorem positive_replaced (hm : ∀ r ∈ ls.divs.rows, 0 < r.entry 0) (hg : 0 < g.entry 0) (j : Nat) :
    ∀ r ∈ (ls.replaced g j).divs.rows, 0 < r.entry 0 := by
  intro r hr
  obtain ⟨s, hs, rfl⟩ := List.mem_map.1 hr
  exact positive_replaceColumn (hm s hs) hg

theorem valuesAt_replaced (hwf : ls.WellFormed) (hm : ∀ r ∈ ls.divs.rows, 0 < r.entry 0)
    (hg : 0 < g.entry 0) (hl : g.length ≤ 2 + ls.space.total) (hx : x.length = ls.space.total)
    (hi : i < ls.space.total) :
    (ls.replaced g (i + 2)).valuesAt (x.map Int.cast) =
      ls.valuesAt ((x.map Int.cast).set i (Affine.quotient g (1 :: x))) := by
  have hwidth : ∀ r ∈ ls.divs.rows, g.length ≤ r.length := by
    intro r hr
    rw [hwf.triangular.length_row r hr]
    omega
  have hvalues := floorsAt_replaceColumn hm hg hwidth (hx ▸ hl) (hx ▸ hi) []
  simp only [List.append_nil, List.map_cons, List.set_cons_succ, Int.cast_one] at hvalues
  exact hvalues

/-- After a replacement by an expression without divisions, the divisions have at an integer point
the values that they had where the coordinate of the dimension is the value of the expression. -/
theorem substitute_replaces_dimension (ls : LocalSpace) (kind : DimKind) (pos : Nat) (a : Affine)
    (hwf : ls.WellFormed) (hm : ∀ r ∈ ls.divs.rows, 0 < r.entry 0) (ha : a.WellFormed)
    (hfree : a.ls.divCount = 0) (hs : ls.space.agrees a.space = true)
    (ht : ls.space.total = a.space.total) (hk : kind ≠ .div) (hp : pos < ls.dim kind) :
    ∃ ls', ls.substitute kind pos a = .ok ls' ∧ ls'.space = ls.space ∧
      ls'.divCount = ls.divCount ∧ ls'.WellFormed ∧ (∀ r ∈ ls'.divs.rows, 0 < r.entry 0) ∧
      ∀ x : Row, x.length = ls.space.total → ∃ q : ℚ, a.eval x = .ok q ∧
        ls'.valuesAt (x.map Int.cast) =
          ls.valuesAt ((x.map Int.cast).set (ls.offset kind + pos) q) ∧
        ls'.Assigns x (ls'.valuesAt (x.map Int.cast)) := by
  have hrows : a.ls.divs.rows = [] := List.eq_nil_of_length_eq_zero hfree
  have hl : a.row.length ≤ 2 + ls.space.total := by
    rw [ha.length, LocalSpace.total, hfree, ht]
    exact Nat.le_refl _
  have hi : ls.offset kind + pos < ls.space.total := by
    have hoff := Space.offset_add_dim_le (s := ls.space) hk
    have hdim : ls.dim kind = ls.space.dim kind := by
      cases kind with
      | div => exact absurd rfl hk
      | _ => rfl
    rw [offset]
    omega
  have hcol : ls.column kind pos = ls.offset kind + pos + 2 := by
    rw [column]
    omega
  have hwf' := wellFormed_replaced hwf hl (ls.column kind pos)
  have hm' := positive_replaced hm ha.denominator (ls.column kind pos)
  refine ⟨_, substitute_eq_ok hs hfree hk hp, rfl, List.length_map _, hwf', hm', fun x hx => ?_⟩
  refine ⟨Affine.quotient a.row (1 :: x), ?value, ?floors, assigns_valuesAt hwf' hm' hx⟩
  case value =>
    rw [ha.eval_eq_ok (hx.trans ht), Affine.valueAt, hrows]
    rfl
  case floors =>
    rw [hcol]
    exact valuesAt_replaced hwf hm ha.denominator hl hx hi

/-- With `(2 i + j - 1) / 3` for `i`, the divisions `d = ⌊(i + 2) / 2⌋` and `⌊(3 i + d) / 4⌋` become
`d' = ⌊(2 i + j + 5) / 6⌋` and `⌊(2 i + j + d' - 1) / 4⌋`. At `i = 2`, `j = 1` the replacement is
`4 / 3`. -/
theorem substitute_replaces_dimension_thirds :
    let ls : LocalSpace := ⟨.anonymousSet 0 2, ⟨6, [[2, 2, 1, 0, 0, 0], [4, 0, 3, 0, 1, 0]]⟩⟩
    let a : Affine := ⟨.ofSpace (.anonymousSet 0 2), [3, -1, 2, 1]⟩
    ls.WellFormed ∧ (∀ r ∈ ls.divs.rows, 0 < r.entry 0) ∧ a.WellFormed ∧ a.ls.divCount = 0 ∧
      ls.space.agrees a.space = true ∧ ls.space.total = a.space.total ∧ DimKind.output ≠ .div ∧
      0 < ls.dim .output ∧
      ∃ ls', ls.substitute .output 0 a = .ok ls' ∧
        ls'.divs.rows = [[6, 5, 2, 1, 0, 0], [4, -1, 2, 1, 1, 0]] ∧
        ls'.valuesAt [2, 1] = [1, 1] ∧ ls.valuesAt [4 / 3, 1] = [1, 1] ∧
        ls'.Assigns [2, 1] [1, 1] := by
  intro ls a
  have hwf : ls.WellFormed := wellFormed_of_forall_lt rfl (by decide) (by decide)
  have ha : a.WellFormed := Affine.wellFormed_of_ofSpace rfl (by decide)
  obtain ⟨ls', hok, -, -, -, -, hvalues⟩ := substitute_replaces_dimension ls .output 0 a hwf
    (by decide) ha rfl rfl rfl (by decide) (by decide)
  have hresult : ls.substitute .output 0 a =
      .ok ⟨ls.space, ⟨6, [[6, 5, 2, 1, 0, 0], [4, -1, 2, 1, 1, 0]]⟩⟩ := by
    cbv
  obtain rfl := Except.ok.inj (hok.symm.trans hresult)
  obtain ⟨q, hq, hfloors, hassigns⟩ := hvalues [2, 1] rfl
  obtain rfl : (4 / 3 : ℚ) = q := Except.ok.inj ((show _ = _ by decide +kernel).trans hq)
  refine ⟨hwf, by decide, ha, rfl, rfl, rfl, by decide, by decide, _, hok, rfl, ?_⟩
  have hcomputed : LocalSpace.valuesAt ⟨ls.space, ⟨6, [[6, 5, 2, 1, 0, 0], [4, -1, 2, 1, 1, 0]]⟩⟩
      (([2, 1] : Row).map Int.cast) = [1, 1] := by decide +kernel
  rw [hcomputed] at hfloors hassigns
  exact ⟨hcomputed, hfloors.symm, hassigns⟩

end LocalSpace

end Quasiaffine
