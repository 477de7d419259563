import Quasiaffine.Proofs.Division.Editing

/-!
Whatever is done to a local space, its divisions refer only to divisions before them. Sorting is the
exception: it takes a division without a definition for a variable in its own column, as it does a
division that ends in that column, and orders the two by their denominators. A negative denominator
comes before zero, and the division before the one that it refers to.
-/

set_option autoImplicit false

namespace Quasiaffine

/-- A division that refers to the one in front of it does not sort before that one, if its
denominator is not negative. -/
theorem Division.entry_eq_zero_of_order_gt {a b : Row} {w j n : Nat} (ha : a.length = w + n)
    (hb : b.length = w + n) (hw : 0 < w) (hza : ∀ c, w + j ≤ c → a.entry c = 0)
    (hzb : ∀ c, w + (j + 1) ≤ c → b.entry c = 0) (hn : 0 ≤ b.entry 0)
    (hgt : order a b j (j + 1) n (w + n) = .gt) : b.entry (w + j) = 0 := by
  by_contra hne
  cases hkb : isKnown b with
  | false =>
    cases hka : isKnown a with
    | false => simp [order, hka, hkb, Nat.compare_eq_gt] at hgt
    | true =>
      obtain ⟨hlast, -⟩ := lastColumn_spec hka
      have hlt : lastColumn a < w + (j + 1) := by
        by_contra hge
        exact hlast (hza _ (by omega))
      simp only [order, hka, hkb, orderKey_of_unknown hkb, orderKey_of_known hka ha] at hgt
      rw [if_neg (by simp), if_neg (by omega), Nat.compare_eq_gt] at hgt
      omega
  | true =>
    have hkey := lastColumn_eq hne fun c hc => hzb c (by omega)
    cases hka : isKnown a with
    | false =>
      simp only [order, hka, hkb, orderKey_of_unknown hka, orderKey_of_known hkb hb, hkey] at hgt
      rw [if_neg (by simp), if_pos trivial, List.take_of_length_le (Nat.le_of_eq ha),
        List.take_of_length_le (Nat.le_of_eq hb)] at hgt
      -- Equal keys: the rows decide, and the denominator of `a` is zero. That of `b` is positive,
      -- so `a` comes first after all.
      obtain ⟨x, a, rfl⟩ := List.exists_cons_of_length_pos (l := a) (by omega)
      obtain ⟨y, b, rfl⟩ := List.exists_cons_of_length_pos (l := b) (by omega)
      have hx : x = 0 := by simpa [isKnown] using hka
      have hy : y ≠ 0 := (isKnown_iff _).1 hkb
      rw [Row.entry_cons_zero] at hn
      rw [Row.order, if_pos (by omega)] at hgt
      cases hgt
    | true =>
      obtain ⟨hlast, -⟩ := lastColumn_spec hka
      have hlt : lastColumn a < w + j := by
        by_contra hge
        exact hlast (hza _ (by omega))
      simp only [order, hka, hkb, orderKey_of_known hka ha, orderKey_of_known hkb hb, hkey] at hgt
      rw [if_neg (by simp), if_neg (by omega), Nat.compare_eq_gt] at hgt
      omega

namespace LocalSpace

variable {ls : LocalSpace}

namespace Coherent

variable {p : Prop} {a b ls' : LocalSpace}

theorem orderDivs (h : ls.Coherent p) : ls.orderDivs.ls.Coherent p := by
  rw [orderDivs_eq h.wellFormed]
  exact h

theorem swapDiv {j : Nat} {y : Row} (h : ls.Coherent p) (hy : ls.divs.rows[j + 1]? = some y)
    (hz : y.entry (2 + ls.space.total + j) = 0) : (ls.swapDiv j (j + 1)).Coherent p := by
  have hj := (List.getElem?_eq_some_iff.1 hy).1
  have ht := h.wellFormed.triangular
  have hordered : OrderedBelow ls ls.divs.rows.length := fun k _ r hr => ht.zero_from k r hr
  have hzero : ∀ c, 2 + ls.space.total + j ≤ c → y.entry c = 0 := fun c hc => by
    rcases Nat.lt_or_eq_of_le hc with hc | rfl
    · exact ht.zero_from _ y hy c (by omega)
    · exact hz
  refine ⟨(wellFormed_iff _).2 ⟨?_, fun r' hr' => ?_, fun k r' hr' => ?_⟩, ?_, fun hp r' hr' => ?_⟩
  · rw [columns_swapDiv, space_swapDiv, length_rows_swapDiv]
    exact h.wellFormed.columns
  · obtain ⟨r, hr, rfl⟩ := exists_of_mem_swapDiv (by omega) hj hr'
    rw [Row.length_swap, ht.length_row r hr, space_swapDiv, length_rows_swapDiv]
  · have hk := (List.getElem?_eq_some_iff.1 hr').1
    rw [length_rows_swapDiv] at hk
    exact hordered.swap_succ ht.length_row hy hzero k hk r' hr'
  · rw [space_swapDiv]
    exact h.proper
  · obtain ⟨r, hr, rfl⟩ := exists_of_mem_swapDiv (by omega) hj hr'
    have hlen := ht.length_row r hr
    rw [Row.entry_swap _ (by omega) (by omega), Equiv.swap_apply_of_ne_of_ne (by omega) (by omega)]
    exact h.nonNegative hp r hr

/-- Without negative denominators, no division sinks past one that it refers to. -/
theorem sink {r : Rearranged} {rows columns : Nat} (h : r.ls.Coherent True)
    (hr : r.ls.divs.rows.length = rows) (hc : r.ls.divs.columns = columns) (i : Nat)
    (hi : i < rows) : (r.sink rows columns i).ls.Coherent True ∧
      (r.sink rows columns i).ls.divs.rows.length = rows ∧
      (r.sink rows columns i).ls.divs.columns = columns := by
  induction i generalizing r with
  | zero => exact ⟨h, hr, hc⟩
  | succ j ih =>
    have ht := h.wellFormed.triangular
    have hcolumns : r.ls.divs.columns = 2 + r.ls.space.total + r.ls.divs.rows.length :=
      h.wellFormed.columns
    obtain ⟨x, hx⟩ : ∃ x, r.ls.divs.rows[j]? = some x :=
      ⟨_, List.getElem?_eq_getElem (by omega)⟩
    obtain ⟨y, hy⟩ : ∃ y, r.ls.divs.rows[j + 1]? = some y :=
      ⟨_, List.getElem?_eq_getElem (by omega)⟩
    have hxm := List.mem_of_getElem? hx
    have hym := List.mem_of_getElem? hy
    rw [Rearranged.sink]
    simp only [row_eq r.ls hx, row_eq r.ls hy]
    split_ifs with hgt
    · rw [← hc, hcolumns, ← hr] at hgt
      have hz := Division.entry_eq_zero_of_order_gt (ht.length_row x hxm) (ht.length_row y hym)
        (by omega) (ht.zero_from j x hx) (ht.zero_from (j + 1) y hy) (h.nonNegative trivial y hym)
        hgt
      exact ih (r := r.swap j (j + 1)) (h.swapDiv hy hz) ((length_rows_swapDiv _ _ _).trans hr)
        ((columns_swapDiv _ _ _).trans hc) (by omega)
    · exact ⟨h, hr, hc⟩

/-- Sorting keeps the divisions in order if no denominator is negative. -/
theorem sortDivs (h : ls.Coherent p) (hn : ∀ r ∈ ls.divs.rows, 0 ≤ r.entry 0) :
    ls.sortDivs.ls.Coherent p := by
  have hsorted : ls.sortDivs.ls.Coherent True ∧
      ls.sortDivs.ls.divs.rows.length = ls.divCount ∧
      ls.sortDivs.ls.divs.columns = ls.divs.columns := by
    rw [LocalSpace.sortDivs, orderDivs_eq h.wellFormed]
    refine foldl_range_induction (P := fun _ (r : Rearranged) => r.ls.Coherent True ∧
      r.ls.divs.rows.length = ls.divCount ∧ r.ls.divs.columns = ls.divs.columns)
      ⟨⟨h.wellFormed, h.proper, fun _ => hn⟩, rfl, rfl⟩ ?_
    rintro i hi r ⟨hr, hrows, hcolumns⟩
    exact hr.sink hrows hcolumns i hi
  exact ⟨hsorted.1.wellFormed, hsorted.1.proper, fun _ => hsorted.1.nonNegative trivial⟩

theorem merge {m : MergedSpace} (ha : a.Coherent p) (hb : b.Coherent p) (hok : a.merge b = .ok m) :
    m.ls.Coherent p := by
  have hagrees : a.space.agrees b.space = true := by
    simp only [LocalSpace.merge, bind_eq_ok_iff, require_eq_ok_iff] at hok
    exact hok.elim fun _ h => h.1
  have htotal := Space.total_eq_of_agrees hagrees ha.proper hb.proper
  obtain ⟨m', hm', hspace, hwf, hmerge, -⟩ :=
    merge_eq_ok ha.wellFormed hb.wellFormed hagrees htotal
  obtain rfl := Except.ok.inj (hm'.symm.trans hok)
  have hbt := hb.wellFormed.triangular
  rw [← htotal] at hbt
  refine ⟨hwf, hspace ▸ ha.proper, fun hp r hr => ?_⟩
  obtain ⟨s, hs, heq⟩ := hmerge.exists_denominator (by omega) ha.wellFormed.triangular hbt hr
  rw [heq]
  exact hs.elim (ha.nonNegative hp s) (hb.nonNegative hp s)

theorem intersect (ha : a.Coherent p) (hb : b.Coherent p) (hok : a.intersect b = .ok ls') :
    ls'.Coherent p := by
  simp only [LocalSpace.intersect, bind_eq_ok_iff] at hok
  obtain ⟨m, hm, hok⟩ := hok
  exact Except.ok.inj hok ▸ ha.merge hb hm

end Coherent

/-- The local spaces that operations lead to. The rows of divisions that are handed in satisfy
`given`. Only sorting asks for denominators that are not negative. -/
inductive Reachable (given : Row → Prop) : LocalSpace → Prop
  | ofSpace {s : Space} : s.Proper → Reachable given (ofSpace s)
  | withUnknowns {s : Space} (n : Nat) : s.Proper → Reachable given (withUnknowns s n)
  | ofDivisions {s : Space} {m : Matrix} {ls : LocalSpace} : s.Proper → m.Rectangular →
      (∀ r ∈ m.rows, given r) → ofDivisions s m = .ok ls → Reachable given ls
  | addDiv {ls ls' : LocalSpace} {row : Row} : Reachable given ls → given row →
      ls.addDiv row = .ok ls' → Reachable given ls'
  | setDiv {ls ls' : LocalSpace} {k : Nat} {row : Row} : Reachable given ls → given row →
      ls.setDiv k row = .ok ls' → Reachable given ls'
  | insertDims {ls ls' : LocalSpace} {kind : DimKind} {first n : Nat} : Reachable given ls →
      ls.insertDims kind first n = .ok ls' → Reachable given ls'
  | addDims {ls ls' : LocalSpace} {kind : DimKind} {n : Nat} : Reachable given ls →
      ls.addDims kind n = .ok ls' → Reachable given ls'
  | dropDims {ls ls' : LocalSpace} {kind : DimKind} {first n : Nat} : Reachable given ls →
      ls.dropDims kind first n = .ok ls' → Reachable given ls'
  | dimsToDivs {ls ls' : LocalSpace} {kind : DimKind} {first n : Nat} : Reachable given ls →
      ls.dimsToDivs kind first n = .ok ls' → Reachable given ls'
  | domain {ls ls' : LocalSpace} : Reachable given ls → ls.domain = .ok ls' → Reachable given ls'
  | range {ls ls' : LocalSpace} : Reachable given ls → ls.range = .ok ls' → Reachable given ls'
  | relationFrom {ls ls' : LocalSpace} : Reachable given ls → ls.relationFrom = .ok ls' →
      Reachable given ls'
  | resetSpace {ls ls' : LocalSpace} {s : Space} : Reachable given ls → s.Proper →
      ls.resetSpace s = .ok ls' → Reachable given ls'
  | setLabel {ls ls' : LocalSpace} {kind : DimKind} {pos : Nat} {label : Label} :
      Reachable given ls → ls.setLabel kind pos label = .ok ls' → Reachable given ls'
  | orderDivs {ls : LocalSpace} : Reachable given ls → Reachable given ls.orderDivs.ls
  | sortDivs {ls : LocalSpace} : Reachable given ls → (∀ r ∈ ls.divs.rows, 0 ≤ r.entry 0) →
      Reachable given ls.sortDivs.ls
  | normalizeDiv {ls : LocalSpace} (k : Nat) : Reachable given ls → Reachable given (ls.normalizeDiv k)
  | substituteEqualities {ls ls' : LocalSpace} {equalities : List Row} : Reachable given ls →
      ls.substituteEqualities equalities = .ok ls' → Reachable given ls'
  | substitute {ls ls' : LocalSpace} {kind : DimKind} {pos : Nat} {a : Affine} :
      Reachable given ls → Reachable given a.ls → a.row.length = 2 + a.ls.total →
      0 < a.denominator → ls.substitute kind pos a = .ok ls' → Reachable given ls'
  | merge {a b : LocalSpace} {m : MergedSpace} : Reachable given a → Reachable given b →
      a.merge b = .ok m → Reachable given m.ls
  | intersect {a b ls : LocalSpace} : Reachable given a → Reachable given b →
      a.intersect b = .ok ls → Reachable given ls

/-- The matrix keeps its shape and every division refers only to divisions before it, over whole
runs. If no row with a negative denominator is handed in, there never is one, and sorting is always
possible. -/
theorem wellFormed_of_reachable {given : Row → Prop} (ls : LocalSpace) (h : Reachable given ls) :
    (ls.divs.columns = 2 + ls.space.total + ls.divCount ∧
      (∀ r ∈ ls.divs.rows, r.length = ls.divs.columns) ∧
      ∀ (k : Nat) (r : Row), ls.divs.rows[k]? = some r →
        ∀ c, 2 + ls.space.total + k ≤ c → r.entry c = 0) ∧
    ((∀ r, given r → 0 ≤ r.entry 0) → ∀ r ∈ ls.divs.rows, 0 ≤ r.entry 0) := by
  have hinv : ls.Coherent (∀ r, given r → 0 ≤ r.entry 0) := by
    induction h with
    | ofSpace hs => exact .ofSpace hs
    | withUnknowns n hs => exact .withUnknowns hs n
    | ofDivisions hs hm hg hok => exact .ofDivisions hs hm (fun hn r hr => hn r (hg r hr)) hok
    | addDiv _ hg hok ih => exact ih.addDiv (fun hn => hn _ hg) hok
    | setDiv _ hg hok ih => exact ih.setDiv (fun hn => hn _ hg) hok
    | insertDims _ hok ih => exact ih.insertDims hok
    | addDims _ hok ih => exact ih.insertDims hok
    | dropDims _ hok ih => exact ih.dropDims hok
    | dimsToDivs _ hok ih => exact ih.dimsToDivs hok
    | domain _ hok ih => exact ih.domain hok
    | range _ hok ih => exact ih.range hok
    | relationFrom _ hok ih => exact ih.relationFrom hok
    | resetSpace _ hs hok ih => exact ih.resetSpace hs hok
    | setLabel _ hok ih => exact ih.setLabel hok
    | orderDivs _ ih => exact ih.orderDivs
    | sortDivs _ hn ih => exact ih.sortDivs hn
    | normalizeDiv k _ ih => exact ih.normalizeDiv k
    | substituteEqualities _ hok ih => exact ih.substituteEqualities hok
    | substitute _ _ hl hd hok ih iha => exact ih.substitute iha.proper hl hd hok
    | merge _ _ hok iha ihb => exact iha.merge ihb hok
    | intersect _ _ hok iha ihb => exact iha.intersect ihb hok
  exact ⟨⟨hinv.wellFormed.columns, hinv.wellFormed.rectangular,
    hinv.wellFormed.triangular.zero_from⟩, hinv.nonNegative⟩

/-- A division without a definition and then `⌊x/2⌋`, which sorting puts in front. -/
theorem wellFormed_of_reachable_unknown :
    let ls := overOneVariable [[0, 0, 0, 0, 0], [2, 0, 1, 0, 0]]
    Reachable (fun r => 0 ≤ r.entry 0) ls ∧
      ls.sortDivs.ls.divs.rows = [[2, 0, 1, 0, 0], [0, 0, 0, 0, 0]] ∧
      ∀ (k : Nat) (r : Row), ls.sortDivs.ls.divs.rows[k]? = some r →
        ∀ c, 2 + ls.sortDivs.ls.space.total + k ≤ c → r.entry c = 0 := by
  intro ls
  have hbase : Reachable (fun r => 0 ≤ r.entry 0) (withUnknowns (.anonymousSet 0 1) 1) :=
    .withUnknowns 1 (Space.proper_ofSet _ _)
  have hls : Reachable (fun r => 0 ≤ r.entry 0) ls :=
    hbase.addDiv (show 0 ≤ Row.entry [2, 0, 1, 0] 0 by decide) rfl
  obtain ⟨-, hn⟩ := wellFormed_of_reachable ls hls
  obtain ⟨⟨-, -, hz⟩, -⟩ :=
    wellFormed_of_reachable ls.sortDivs.ls (hls.sortDivs (hn fun _ h => h))
  exact ⟨hls, by cbv, hz⟩

/-- Sorting puts `⌊e / -2⌋` in front of the division `e` without a definition that it refers to. -/
theorem not_wellFormed_sortDivs_negative :
    ∃ a b : LocalSpace, (ofSpace (.anonymousSet 0 1)).addDiv [0, 0, 0] = .ok a ∧
      a.addDiv [-2, 0, 0, 1] = .ok b ∧ b.WellFormed ∧ ¬b.sortDivs.ls.WellFormed := by
  refine ⟨_, overOneVariable [[0, 0, 0, 0, 0], [-2, 0, 0, 1, 0]], rfl, rfl,
    wellFormed_overOneVariable (by decide) (by decide), fun h => ?_⟩
  have hsorted : (overOneVariable [[0, 0, 0, 0, 0], [-2, 0, 0, 1, 0]]).sortDivs.ls =
      overOneVariable [[-2, 0, 0, 0, 1], [0, 0, 0, 0, 0]] := by cbv
  rw [hsorted] at h
  have hz := h.triangular.zero_from 0 [-2, 0, 0, 0, 1] rfl 4 (by decide)
  cases hz

end LocalSpace

end Quasiaffine
