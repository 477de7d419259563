import Quasiaffine.Affine.Basic
import Quasiaffine.Proofs.Division.Addition
import Quasiaffine.Proofs.Division.Merging
import Quasiaffine.Proofs.Space

set_option autoImplicit false

namespace Quasiaffine.Affine

def quotient (row values : Row) : ℚ := (Row.dot (row.drop 1) values : ℚ) / (row.entry 0 : ℚ)

structure WellFormed (a : Affine) : Prop where
  divisions : a.ls.WellFormed
  positive : ∀ r ∈ a.ls.divs.rows, 0 < r.entry 0
  length : a.row.length = 2 + a.ls.total
  denominator : 0 < a.row.entry 0

/-- A well-formed expression over `s` with the value `v x` at each point `x`. -/
structure Denotes (a : Affine) (s : Space) (v : Row → ℚ) : Prop where
  space : a.space = s
  wellFormed : a.WellFormed
  value : ∀ x d, x.length = s.total → a.ls.Assigns x d → quotient a.row (1 :: (x ++ d)) = v x

variable {a b : Affine} {s : Space} {u w : Row → ℚ} {x row : Row} {f : Int}

theorem WellFormed.allKnown (h : a.WellFormed) : a.ls.allKnown = true := by
  refine List.all_eq_true.2 fun r hr => ?_
  have := h.positive r hr
  rw [Division.isKnown, bne_iff_ne]
  omega

section Rows

theorem quotient_divide {g : Int} (hg : 0 < g) (hd : ∀ y ∈ row, g ∣ y) (v : Row) :
    quotient (row.divide g) v = quotient row v := by
  cases row with
  | nil => rfl
  | cons m r =>
    rw [List.forall_mem_cons] at hd
    have hdot := Row.mul_dot_divide hd.2 v
    have hm := Int.mul_tdiv_cancel' hd.1
    simp only [quotient, Row.divide, List.map_cons, List.drop_one, List.tail_cons,
      Row.entry_cons_zero] at hdot ⊢
    have hg' : (g : ℚ) ≠ 0 := by exact_mod_cast Int.ne_of_gt hg
    conv_rhs => rw [← hdot, ← hm, Int.cast_mul, Int.cast_mul, mul_div_mul_left _ _ hg']

theorem quotient_lowestTerms (row v : Row) : quotient (lowestTerms row) v = quotient row v := by
  unfold lowestTerms
  split
  · rfl
  · exact quotient_divide (by omega) (fun y hy => Row.gcd_dvd hy) v

theorem length_lowestTerms (row : Row) : (lowestTerms row).length = row.length := by
  unfold lowestTerms
  split
  · rfl
  · exact Row.length_divide _ _

theorem denominator_lowestTerms (h : 0 < row.entry 0) : 0 < (lowestTerms row).entry 0 := by
  unfold lowestTerms
  split
  · exact h
  · rename_i hg
    cases row with
    | nil => simp at h
    | cons m r =>
      have hdvd : ((Row.gcd (m :: r) : Nat) : Int) ∣ m := Row.gcd_dvd List.mem_cons_self
      generalize Row.gcd (m :: r) = g at hdvd hg
      obtain ⟨k, rfl⟩ := hdvd
      have hpos : (0 : Int) < g := by omega
      simp only [Row.divide, List.map_cons, Row.entry_cons_zero] at h ⊢
      rw [Int.mul_tdiv_cancel_left _ (Int.ne_of_gt hpos)]
      exact pos_of_mul_pos_right h (Int.le_of_lt hpos)

theorem Denotes.withRow {g : ℚ → ℚ} (h : a.Denotes s u) (hr : WellFormed ⟨a.ls, row⟩)
    (hq : ∀ v, quotient row (1 :: v) = g (quotient a.row (1 :: v))) :
    Denotes ⟨a.ls, row⟩ s (fun x => g (u x)) :=
  ⟨h.space, hr, fun x d hx hd => by rw [hq, h.value x d hx hd]⟩

end Rows

section Constants

theorem wellFormed_of_ofSpace (hr : row.length = 2 + s.total) (hm : 0 < row.entry 0) :
    WellFormed ⟨.ofSpace s, row⟩ :=
  ⟨LocalSpace.wellFormed_ofSpace s, by simp [LocalSpace.ofSpace, Matrix.empty], hr, hm⟩

theorem denotes_const (s : Space) (c : Int) : (const (.ofSpace s) c).Denotes s fun _ => c where
  space := rfl
  wellFormed := wellFormed_of_ofSpace (by simp [LocalSpace.total, LocalSpace.ofSpace,
    LocalSpace.divCount, Matrix.height, Matrix.empty]; omega) (by simp)
  value := by simp [quotient, const]

theorem wellFormed_zero (ha : a.WellFormed) : (zero a.ls).WellFormed :=
  ⟨ha.divisions, ha.positive, by simp [zero]; omega, by simp [zero]⟩

theorem var_eq_ok (kind : DimKind) (pos : Nat) (hk : kind ≠ .div) (hp : pos < s.dim kind) :
    ∃ a, var (.ofSpace s) kind pos = .ok a ∧
      a.Denotes s fun x => x.entry (s.offset kind + pos) := by
  have hdim : (LocalSpace.ofSpace s).dim kind = s.dim kind := by
    cases kind <;> rfl
  have hoff := Space.offset_add_dim_le (s := s) hk
  have htotal : (LocalSpace.ofSpace s).total = s.total := rfl
  refine ⟨⟨.ofSpace s, (1 :: Row.zeros (1 + s.total)).set (2 + s.offset kind + pos) 1⟩, ?_, rfl,
    wellFormed_of_ofSpace (by simp; omega) ?_, fun x d hx _ => ?_⟩
  · simp [var, require, hdim, hp, bind, Except.bind, pure, Except.pure, zero, htotal,
      LocalSpace.column, LocalSpace.offset]
    rfl
  · rw [Row.entry_set, if_neg (by omega)]
    simp
  · have hset : (1 :: Row.zeros (1 + s.total)).set (2 + s.offset kind + pos) 1 =
        1 :: (Row.zeros (1 + s.total)).set (s.offset kind + pos + 1) 1 := by
      rw [show 2 + s.offset kind + pos = s.offset kind + pos + 1 + 1 by omega, List.set_cons_succ]
    rw [quotient, hset, List.drop_one, List.tail_cons, Row.dot_set (by simp; omega)]
    simp [Row.entry_append_left d (show s.offset kind + pos < x.length by omega)]

end Constants

section Arithmetic

theorem quotient_mapNumerator (g : Row → Row) (a : Affine) (h : 0 < a.row.length) (v : Row) :
    quotient (a.mapNumerator g).row v =
      (Row.dot (g a.numerator) v : ℚ) / (a.denominator : ℚ) := by
  cases hr : a.row with
  | nil => simp [hr] at h
  | cons m r => simp [quotient, mapNumerator, numerator, denominator, hr]

theorem WellFormed.row_pos (h : a.WellFormed) : 0 < a.row.length := by
  rw [h.length]
  omega

theorem WellFormed.mapNumerator (h : a.WellFormed) {g : Row → Row}
    (hg : (g a.numerator).length = a.numerator.length) : (a.mapNumerator g).WellFormed := by
  have hpos := h.row_pos
  have hlen : (g a.numerator).length = a.row.length - 1 := by rw [hg, numerator, List.length_drop]
  refine ⟨h.divisions, h.positive, ?_, ?_⟩
  · have := h.length
    simp only [Affine.mapNumerator, List.length_append, hlen, List.length_take]
    omega
  · have hden := h.denominator
    cases hr : a.row with
    | nil => simp [hr] at hpos
    | cons m r => simpa [Affine.mapNumerator, hr] using hden

theorem Denotes.neg (h : a.Denotes s u) : a.neg.Denotes s fun x => -u x := by
  refine h.withRow (g := fun q => -q) (h.wellFormed.mapNumerator (Row.length_neg _)) fun v => ?_
  change quotient (a.mapNumerator Row.neg).row _ = _
  rw [quotient_mapNumerator _ _ h.wellFormed.row_pos, Row.dot_neg, quotient]
  simp [numerator, denominator, neg_div]

theorem Denotes.scale (h : a.Denotes s u) (f : Int) : (a.scale f).Denotes s fun x => f * u x := by
  unfold Affine.scale
  split
  · rename_i hf
    exact ⟨h.space, wellFormed_zero h.wellFormed, fun x d _ _ => by simp [zero, quotient, hf]⟩
  · have hm := h.wellFormed.mapNumerator (Row.length_scale f _)
    refine h.withRow (g := fun q => f * q) ⟨hm.divisions, hm.positive, ?_,
      denominator_lowestTerms hm.denominator⟩ fun v => ?_
    · rw [length_lowestTerms]
      exact hm.length
    · rw [quotient_lowestTerms, quotient_mapNumerator _ _ h.wellFormed.row_pos, Row.dot_scale,
        quotient]
      simp only [numerator, denominator, Int.cast_mul]
      ring

theorem Denotes.scaleDown_eq_ok (h : a.Denotes s u) (hf : 0 < f) :
    ∃ b, a.scaleDown f = .ok b ∧ b.Denotes s fun x => u x / f := by
  obtain ⟨ls, row⟩ := a
  have hpos := h.wellFormed.row_pos
  have hlen := h.wellFormed.length
  have hden := h.wellFormed.denominator
  cases row with
  | nil => simp at hpos
  | cons m r =>
    simp only [Row.entry_cons_zero] at hden
    simp only [scaleDown, require, hf, decide_true, if_true, bind, Except.bind, pure, Except.pure,
      mapNumerator, numerator, denominator, List.drop_one, List.tail_cons, List.take_succ_cons,
      List.take_zero, List.singleton_append, List.set_cons_zero, Row.entry_cons_zero]
    have hgf : ((Nat.gcd (Row.gcd r) f.natAbs : Nat) : Int) ∣ f :=
      Int.natCast_dvd.2 (Nat.gcd_dvd_right _ _)
    have hgr : ∀ y ∈ r, ((Nat.gcd (Row.gcd r) f.natAbs : Nat) : Int) ∣ y := fun y hy =>
      Int.dvd_trans (Int.natCast_dvd_natCast.2 (Nat.gcd_dvd_left _ _)) (Row.gcd_dvd hy)
    generalize Nat.gcd (Row.gcd r) f.natAbs = g at hgf hgr
    obtain ⟨k, rfl⟩ := hgf
    have hg : (0 : Int) < g := by
      rcases Nat.eq_zero_or_pos g with rfl | hg
      · simp at hf
      · exact_mod_cast hg
    have hk : 0 < k := pos_of_mul_pos_right hf (Int.le_of_lt hg)
    rw [Int.mul_tdiv_cancel_left _ (Int.ne_of_gt hg)]
    refine ⟨_, rfl, h.withRow (g := fun q => q / ((g * k : Int) : ℚ)) ⟨h.wellFormed.divisions,
      h.wellFormed.positive, ?_, Int.mul_pos hden hk⟩ fun v => ?_⟩
    · simpa [Row.length_divide] using hlen
    · have hdot := Row.mul_dot_divide hgr (1 :: v)
      have hg' : (g : ℚ) ≠ 0 := by exact_mod_cast Int.ne_of_gt hg
      simp only [quotient, List.drop_one, List.tail_cons, Row.entry_cons_zero]
      push_cast [← hdot]
      rw [div_div, show (m : ℚ) * (g * k) = g * (m * k) by ring, mul_div_mul_left _ _ hg']

theorem quotient_addRows {r s : Row} (hl : r.length = s.length) (hr : 0 < r.entry 0)
    (hs : 0 < s.entry 0) (v : Row) :
    quotient (addRows r s) v = quotient r v + quotient s v := by
  cases r with
  | nil => simp at hr
  | cons m r =>
    cases s with
    | nil => simp at hs
    | cons n s =>
      simp only [Row.entry_cons_zero, List.length_cons, Nat.add_right_cancel_iff] at hr hs hl
      obtain ⟨f, hf⟩ : m ∣ (Int.lcm m n : Int) := Int.dvd_lcm_left m n
      obtain ⟨g, hg⟩ : n ∣ (Int.lcm m n : Int) := Int.dvd_lcm_right m n
      have hlcm : (Int.lcm m n : Int) ≠ 0 := by
        exact_mod_cast Int.lcm_ne_zero (Int.ne_of_gt hr) (Int.ne_of_gt hs)
      -- Over the least common denominator `m f = n g` the numerators are multiplied by `f` and
      -- `g`.
      rw [addRows, quotient_lowestTerms]
      simp only [quotient, List.drop_one, List.tail_cons, Row.entry_cons_zero]
      have hfm : (Int.lcm m n : Int).tdiv m = f := by
        rw [hf, Int.mul_tdiv_cancel_left _ (Int.ne_of_gt hr)]
      have hgn : (Int.lcm m n : Int).tdiv n = g := by
        rw [hg, Int.mul_tdiv_cancel_left _ (Int.ne_of_gt hs)]
      rw [Row.dot_zipWith hl, hfm, hgn]
      have hm' : (m : ℚ) ≠ 0 := by exact_mod_cast Int.ne_of_gt hr
      have hn' : (n : ℚ) ≠ 0 := by exact_mod_cast Int.ne_of_gt hs
      have hf' : ((Int.lcm m n : Int) : ℚ) = m * f := by exact_mod_cast hf
      have hg' : ((Int.lcm m n : Int) : ℚ) = n * g := by exact_mod_cast hg
      have hlcm' : ((Int.lcm m n : Int) : ℚ) ≠ 0 := by exact_mod_cast hlcm
      have hfz : (f : ℚ) ≠ 0 := fun h => hlcm' (by rw [hf', h, mul_zero])
      have hgz : (g : ℚ) ≠ 0 := fun h => hlcm' (by rw [hg', h, mul_zero])
      rw [Int.cast_add, add_div]
      congr 1
      · rw [hf', Int.cast_mul, mul_comm (m : ℚ), mul_div_mul_left _ _ hfz]
      · rw [hg', Int.cast_mul, mul_comm (n : ℚ), mul_div_mul_left _ _ hgz]

theorem length_addRows {r s : Row} (hl : r.length = s.length) (hr : 0 < r.length) :
    (addRows r s).length = r.length := by
  rw [addRows, length_lowestTerms]
  simp
  omega

theorem lcm_denominators_pos {r s : Row} (hr : 0 < r.entry 0) (hs : 0 < s.entry 0) :
    (0 : Int) < Int.lcm (r.entry 0) (s.entry 0) := by
  exact_mod_cast Int.lcm_pos (Int.ne_of_gt hr) (Int.ne_of_gt hs)

theorem denominator_addRows {r s : Row} (hr : 0 < r.entry 0) (hs : 0 < s.entry 0) :
    0 < (addRows r s).entry 0 :=
  denominator_lowestTerms (lcm_denominators_pos hr hs)

theorem quotient_expand {r d : Row} {e : List Nat} {n : Nat} (hr : 2 + x.length ≤ r.length)
    (hd : e.Nodup) (hlt : ∀ k ∈ e, k < n) :
    quotient (r.expand (2 + x.length) e n) (1 :: (x ++ d)) =
      quotient r (1 :: (x ++ e.map d.entry)) := by
  have hx : (1 :: x).length = x.length + 1 := rfl
  rw [quotient, quotient, Row.entry_expand_of_lt hr (by omega),
    show 2 + x.length = x.length + 1 + 1 by omega, Row.drop_one_expand (by omega),
    ← List.cons_append, Row.dot_expand hx (by simp; omega) hd hlt, List.cons_append]

theorem denominator_expand {r : Row} {e : List Nat} {w n : Nat} (hw : 0 < w) (hr : w ≤ r.length)
    (h : 0 < r.entry 0) : 0 < (r.expand w e n).entry 0 := by
  rwa [Row.entry_expand_of_lt hr hw]

theorem prefix_le_length (h : a.row.length = 2 + a.ls.total) : 2 + a.space.total ≤ a.row.length := by
  rw [h, LocalSpace.total]
  exact Nat.add_le_add_left (Nat.le_add_right _ _) 2

theorem Denotes.add_eq_ok (h : a.Denotes s u) (h' : b.Denotes s w) :
    ∃ c, a.add b = .ok c ∧ c.Denotes s fun x => u x + w x := by
  have ha := h.wellFormed
  have hb := h'.wellFormed
  have hs : a.space.agrees b.space = true := by
    rw [h.space, h'.space]
    exact s.agrees_refl
  have ht : a.space.total = b.space.total := by rw [h.space, h'.space]
  obtain ⟨m, hm, hspace, hwf, hmerge, -⟩ := LocalSpace.merge_eq_ok ha.divisions hb.divisions hs ht
  have hat := ha.divisions.triangular
  have hbt := hb.divisions.triangular
  rw [show b.ls.space.total = a.space.total from ht.symm] at hbt
  have hpos : ∀ r ∈ m.ls.divs.rows, 0 < r.entry 0 := by
    intro r hr
    obtain ⟨s, hs, heq⟩ := hmerge.exists_denominator (by omega) hat hbt hr
    rw [heq]
    exact hs.elim (ha.positive s) (hb.positive s)
  have hla := prefix_le_length ha.length
  have hlb : 2 + a.space.total ≤ b.row.length := ht ▸ prefix_le_length hb.length
  have hmt : m.ls.total = a.space.total + m.ls.divCount := by rw [LocalSpace.total, hspace]; rfl
  have hlen : (a.row.expand (2 + a.space.total) m.left m.ls.divCount).length =
      (b.row.expand (2 + a.space.total) m.right m.ls.divCount).length := by
    rw [Row.length_expand hla, Row.length_expand hlb]
  have hda : 0 < (a.row.expand (2 + a.space.total) m.left m.ls.divCount).entry 0 :=
    denominator_expand (by omega) hla ha.denominator
  have hdb : 0 < (b.row.expand (2 + a.space.total) m.right m.ls.divCount).entry 0 :=
    denominator_expand (by omega) hlb hb.denominator
  refine ⟨⟨m.ls, addRows (a.row.expand (2 + a.space.total) m.left m.ls.divCount)
      (b.row.expand (2 + a.space.total) m.right m.ls.divCount)⟩,
    by simp only [add, hm, bind, Except.bind, pure, Except.pure], hspace.trans h.space,
    ⟨hwf, hpos, ?_, denominator_addRows hda hdb⟩, fun x d hx hd => ?_⟩
  · rw [length_addRows hlen (by rw [Row.length_expand hla]; omega), Row.length_expand hla, hmt]
    omega
  · have hx : x.length = a.space.total := by rw [hx, h.space]
    obtain ⟨hp, hq⟩ := LocalSpace.Assigns.operands hmerge ht hx hat hbt hd
    rw [quotient_addRows hlen hda hdb, ← hx, LocalSpace.divCount, Matrix.height,
      quotient_expand (hx ▸ hla) hmerge.left.nodup hmerge.left.lt,
      quotient_expand (hx ▸ hlb) hmerge.right.nodup hmerge.right.lt,
      h.value x _ (by rw [hx, h.space]) hp, h'.value x _ (by rw [hx, h.space]) hq]

theorem Denotes.sub_eq_ok (h : a.Denotes s u) (h' : b.Denotes s w) :
    ∃ c, a.sub b = .ok c ∧ c.Denotes s fun x => u x - w x := by
  simp only [sub_eq_add_neg]
  exact h.add_eq_ok h'.neg

end Arithmetic

section Rounding

theorem splitCoefficient_spec (m e : Int) :
    m * (splitCoefficient m e).1 + (splitCoefficient m e).2 = e := by
  have h := Int.mul_fdiv_add_fmod e m
  unfold splitCoefficient
  split
  · simp only [Int.mul_add]
    omega
  · simpa using h

theorem dot_splitCoefficient (m : Int) (r v : Row) :
    m * Row.dot ((r.map (splitCoefficient m)).map Prod.fst) v +
      Row.dot ((r.map (splitCoefficient m)).map Prod.snd) v = Row.dot r v := by
  induction r generalizing v with
  | nil => simp
  | cons e r ih =>
    cases v with
    | nil => simp
    | cons y v =>
      simp only [List.map_cons, Row.dot_cons, ← ih v]
      conv_rhs => rw [← splitCoefficient_spec m e]
      ring

theorem floor_div (n : Int) {m : Int} (hm : 0 < m) : ⌊(n : ℚ) / (m : ℚ)⌋ = n.fdiv m := by
  rw [Int.fdiv_eq_ediv_of_nonneg _ (Int.le_of_lt hm)]
  lift m to Nat using Int.le_of_lt hm
  exact Rat.floor_intCast_div_natCast n m

section Floor

variable {ls : LocalSpace} {m : Int} {r : Row}

theorem floor_quotient (hm : 0 < m) (v : Row) :
    (⌊quotient (m :: r) v⌋ : ℚ) = ((Row.dot r v).fdiv m : Int) := by
  simp only [quotient, List.drop_one, List.tail_cons, Row.entry_cons_zero, floor_div _ hm]

theorem Denotes.floor_integral (hd : Denotes ⟨ls, 1 :: r⟩ s u) :
    Denotes ⟨ls, 1 :: r⟩ s fun x => ⌊u x⌋ := by
  refine hd.withRow (g := fun q => (⌊q⌋ : ℚ)) hd.wellFormed fun v => ?_
  rw [floor_quotient Int.one_pos]
  simp [quotient]

theorem Denotes.floor_constant {c : Int} (hd : Denotes ⟨ls, m :: c :: r⟩ s u)
    (hz : Row.isZero r = true) : Denotes ⟨ls, 1 :: c.fdiv m :: r⟩ s fun x => ⌊u x⌋ := by
  have h := hd.wellFormed
  have hm : 0 < m := h.denominator
  have hdot : ∀ (c : Int) (v : Row), Row.dot (c :: r) (1 :: v) = c := by
    intro c v
    rw [Row.dot_cons, Row.dot_congr_left (s := Row.zeros 0) fun i => ?_]
    · simp [Row.zeros]
    · rw [(Row.isZero_iff r).1 hz i]
      rfl
  refine hd.withRow (g := fun q => (⌊q⌋ : ℚ)) ⟨h.divisions, h.positive, ?_, by simp⟩ fun v => ?_
  · simpa using h.length
  · rw [floor_quotient hm, hdot, quotient]
    simp only [List.drop_one, List.tail_cons, Row.entry_cons_zero, hdot, Int.cast_one, div_one]

/-- The new division is the floor of what the whole parts of the coefficients leave. -/
theorem Denotes.floor_division (hd : Denotes ⟨ls, m :: r⟩ s u) :
    Denotes ⟨ls.extended (m :: (r.map (splitCoefficient m)).map Prod.snd),
      (1 :: (r.map (splitCoefficient m)).map Prod.fst) ++ [1]⟩ s fun x => ⌊u x⌋ := by
  have h := hd.wellFormed
  have hm : 0 < m := h.denominator
  have hlen : r.length = 1 + ls.total := by
    have := h.length
    simp only [List.length_cons] at this
    omega
  have htotal : ls.total = ls.space.total + ls.divs.rows.length := rfl
  have hdiv : (m :: (r.map (splitCoefficient m)).map Prod.snd).length = ls.divs.columns := by
    rw [show ls.divs.columns = 2 + ls.space.total + ls.divs.rows.length from h.divisions.columns]
    simp [hlen]
    omega
  refine ⟨hd.space, ⟨LocalSpace.wellFormed_extended h.divisions hdiv,
    LocalSpace.positive_extended h.positive hm, ?_, by simp⟩, fun x d' hx hd' => ?_⟩
  · rw [LocalSpace.total, LocalSpace.divCount, Matrix.height, LocalSpace.length_rows_extended]
    simp [hlen, LocalSpace.extended]
    omega
  · have hxs : x.length = ls.space.total := by
      rw [hx, ← hd.space]
      rfl
    rcases List.eq_nil_or_concat d' with rfl | ⟨d, v, rfl⟩
    · simpa [LocalSpace.extended] using hd'.length
    · rw [List.concat_eq_append] at hd' ⊢
      obtain ⟨hassign, rfl⟩ := (LocalSpace.assigns_extended_iff h.divisions hdiv hm hxs).1 hd'
      have hdl : d.length = ls.divs.rows.length := hassign.length
      have hpoint : ∀ v : Int, (1 : Int) :: (x ++ (d ++ [v])) = (1 :: (x ++ d)) ++ [v] := by simp
      -- What the whole parts of the coefficients contribute is an integer and leaves the floor.
      have hsplit := dot_splitCoefficient m r (1 :: (x ++ d))
      rw [← hd.value x d hx hassign, floor_quotient hm, ← hsplit, Int.add_comm,
        Int.add_mul_fdiv_left _ _ (Int.ne_of_gt hm), quotient, hpoint]
      simp only [List.cons_append, List.drop_one, List.tail_cons, Row.entry_cons_zero,
        Int.cast_one, div_one]
      rw [← List.cons_append, Row.dot_append (by simp; omega)]
      simp [Division.value, Int.add_comm, Row.dot]

end Floor

theorem Denotes.floor_eq_ok (hd : a.Denotes s u) :
    ∃ b, a.floor = .ok b ∧ b.Denotes s fun x => ⌊u x⌋ := by
  obtain ⟨ls, row⟩ := a
  have h := hd.wellFormed
  have hlength := h.length
  match row with
  | [] | [_] =>
    simp only [List.length_cons, List.length_nil] at hlength
    omega
  | m :: c :: r =>
    simp only [floor, bind, Except.bind, pure, Except.pure]
    split
    · rename_i hone
      obtain rfl : m = 1 := hone
      exact ⟨_, rfl, hd.floor_integral⟩
    split
    · rename_i hconst
      exact ⟨_, rfl, hd.floor_constant hconst⟩
    · have hdiv : (m :: ((c :: r).map (splitCoefficient m)).map Prod.snd).length =
          ls.divs.columns := by
        have htotal : ls.total = ls.space.total + ls.divs.rows.length := rfl
        rw [show ls.divs.columns = 2 + ls.space.total + ls.divs.rows.length from h.divisions.columns]
        simp only [List.length_cons, List.length_map] at hlength ⊢
        omega
      obtain ⟨wider, hwider, hext⟩ := LocalSpace.addDiv_normalizeDiv h.divisions hdiv
      simp only [denominator, numerator, Row.entry_cons_zero, List.drop_one, List.tail_cons, hwider,
        hext]
      exact ⟨_, rfl, hd.floor_division⟩

theorem Denotes.ceil_eq_ok (h : a.Denotes s u) :
    ∃ b, a.ceil = .ok b ∧ b.Denotes s fun x => ⌈u x⌉ := by
  obtain ⟨b, hok, hb⟩ := h.neg.floor_eq_ok
  refine ⟨b.neg, by simp [ceil, hok, bind, Except.bind, pure, Except.pure], ?_⟩
  simpa [Int.floor_neg] using hb.neg

theorem Denotes.mod_eq_ok {m : Int} (h : a.Denotes s u) (hm : 0 < m) :
    ∃ b, a.mod m = .ok b ∧ b.Denotes s fun x => u x - m * ⌊u x / m⌋ := by
  obtain ⟨q, hqok, hq⟩ := h.scaleDown_eq_ok hm
  obtain ⟨f, hfok, hf⟩ := hq.floor_eq_ok
  obtain ⟨b, hok, hb⟩ := h.sub_eq_ok (hf.scale m)
  exact ⟨b, by simp only [mod, floorDiv, bind, Except.bind, hqok, hfok, hok], hb⟩

end Rounding

end Quasiaffine.Affine
