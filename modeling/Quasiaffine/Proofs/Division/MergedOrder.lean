import Quasiaffine.Proofs.Division.Operands
import Quasiaffine.Proofs.Division.Ordering

/-!
Merging sorted divisions, with or without definitions. The merge looks at the next divisions of both
operands as they will stand if they come next, but counts a division of the left operand without a
definition as if it ended one column further to the front. A division of the right operand that ends
there is then taken too late; all others come in canonical order.
-/

set_option autoImplicit false

namespace Quasiaffine

namespace Division

theorem entry_of_lastColumn_expand {y : Row} {w n q k : Nat} {e : List Nat} (hy : isKnown y = true)
    (hw : w ≤ y.length) (h0 : 0 < w) (he : e.Pairwise (· < ·)) (hlt : ∀ j ∈ e, j < k) (hk : k ≤ n)
    (hq : e.length = q) (hz : ∀ c, w + q ≤ c → y.entry c = 0)
    (hlast : lastColumn (y.expand w e n) = w + k - 1) : y.entry (w + q - 1) ≠ 0 := by
  obtain ⟨hne, -⟩ := lastColumn_spec hy
  have hre := Row.reindexed_expand hw (he.imp Nat.ne_of_lt)
    (fun j hj => Nat.lt_of_lt_of_le (hlt j hj) hk) (hq ▸ hz)
  rw [hre.lastColumn_eq (Row.newColumn_mono he) hy, Row.newColumn] at hlast
  have hcq := lastColumn_lt hy hz
  generalize lastColumn y = c at *
  split_ifs at hlast with hcw
  · -- nothing of this operand has been merged, nor of the other one
    have hq0 : q = 0 := by
      by_contra hpos
      obtain ⟨j, hj⟩ := List.exists_mem_of_length_pos (l := e) (by omega)
      have := hlt j hj
      omega
    rwa [hq0, show w + 0 - 1 = c by omega]
  · have hce : c - w < e.length := by omega
    rw [List.getD_eq_getElem?_getD, List.getElem?_eq_getElem hce, Option.getD_some] at hlast
    have hck : c - w = q - 1 := by
      by_contra hne'
      have hlast' : q - 1 < e.length := by omega
      have h1 := List.pairwise_iff_getElem.1 he (c - w) (q - 1) hce hlast' (by omega)
      have h2 := hlt _ (List.getElem_mem hlast')
      omega
    rwa [show w + q - 1 = c by omega]

end Division

structure Sorted (w : Nat) (a : List Row) : Prop where
  triangular : Triangular w a.length a
  unknown : ∀ r ∈ a, Division.isKnown r = false → ∀ c, r.entry c = 0
  positive : ∀ r ∈ a, Division.isKnown r = true → 0 < r.entry 0
  sorted : (Division.markAll w a).Pairwise fun r s => Division.rank r ≤ Division.rank s

namespace Sorted

variable {w : Nat} {a : List Row}

theorem ordered (h : Sorted w a) : Ordered True w a :=
  ⟨h.triangular, h.unknown, h.sorted.imp Division.precedes_true.2⟩

theorem nonNegative (h : Sorted w a) {r : Row} (hr : r ∈ a) : 0 ≤ r.entry 0 := by
  cases hk : Division.isKnown r with
  | true => exact le_of_lt (h.positive r hr hk)
  | false => rw [h.unknown r hr hk]

end Sorted

section Compare

variable {w n : Nat} {a as b bs rows : List Row} {x y : Row} {e f : List Nat}
  (hx : Upcoming True w n a x as rows e) (hy : Upcoming True w n b y bs rows f)
  (ha : Sorted w (a ++ x :: as)) (hb : Sorted w (b ++ y :: bs)) (hw : 1 < w)

include hx ha

theorem Upcoming.nonNegative : 0 ≤ (x.expand w e n).entry 0 := by
  rw [Row.entry_expand_of_lt hx.le_length hx.pos]
  exact ha.nonNegative Upcoming.mem

include hy hb hw

/-- How the merge compares the next divisions: the left one as if it came one place earlier. -/
theorem Upcoming.order_eq_gt_iff :
    Division.order (x.expand w e n) (y.expand w f n) rows.length (rows.length + 1) (1 + n) (w + n) =
      .gt ↔ Division.rank (Division.mark w rows.length (y.expand w f n)) <
        Division.rank (Division.mark (w - 1) rows.length (x.expand w e n)) := by
  have hroom := hx.room
  have hxl := hx.length_expand
  have hyl := hy.length_expand
  rw [Division.mark_congr (by omega : w + rows.length = (w - 1) + (rows.length + 1)),
    show w + n = (w - 1) + (1 + n) by omega]
  exact Division.order_eq_gt_iff_mark (by omega) (by omega) (by omega) (by omega) (by omega)
    (fun hu => hx.expand_eq_zero (hx.isKnown_expand.symm.trans hu))
    (fun hu => hy.expand_eq_zero (hy.isKnown_expand.symm.trans hu))
    (fun _ => hx.nonNegative ha) fun _ => hy.nonNegative hb

/-- A division of the right operand that is not taken first does not come in front of the one that
is, unless that one has no definition and it ends in the column in front of its own. -/
theorem Upcoming.rank_le_of_order (hc : Division.isKnown x = true ∨ y.entry (w + b.length - 1) = 0)
    (hky : Division.isKnown y = true)
    (hgt : Division.order (x.expand w e n) (y.expand w f n) rows.length (rows.length + 1) (1 + n)
      (w + n) ≠ .gt) :
    Division.rank (Division.mark w rows.length (x.expand w e n)) ≤
      Division.rank (y.expand w f n) := by
  have hroom := hx.room
  have hxl := hx.length_expand
  have hyk := hy.isKnown_expand.trans hky
  have hle := le_of_not_gt ((hx.order_eq_gt_iff hy ha hb hw).not.1 hgt)
  rw [Division.mark_of_isKnown hyk] at hle
  cases hkx : Division.isKnown x with
  | true =>
    have hxk := hx.isKnown_expand.trans hkx
    rw [Division.mark_of_isKnown hxk] at hle ⊢
    exact hle
  | false =>
    have hxk := hx.isKnown_expand.trans hkx
    have hzero := hx.expand_eq_zero hkx
    have hlast := Division.lastColumn_mark (w := w) (k := rows.length) hxk hzero (by omega)
    have hlast' := Division.lastColumn_mark (w := w - 1) (k := rows.length) hxk hzero (by omega)
    -- the marked row ends at least where the left one was thought to end, so it ends behind that
    have hbehind : w + rows.length - 1 ≤ Division.lastColumn (y.expand w f n) := by
      rcases lt_or_eq_of_le hle with hlt | heq
      · have := Division.lastColumn_le_of_rank_lt hlt
        omega
      · have hentry := Division.rank_eq_iff.1 heq
        rw [Division.lastColumn, ← Row.lastNonZero?_congr hentry, ← Division.lastColumn, hlast']
        omega
    have hne : Division.lastColumn (y.expand w f n) ≠ w + rows.length - 1 := fun heq =>
      Division.entry_of_lastColumn_expand hky hy.le_length hy.pos hy.increasing hy.embeds.lt
        (Nat.le_of_lt hroom) hy.embeds.length (hy.operand.triangular.zero_from _ y (by simp)) heq
        (hc.resolve_left (by rw [hkx]; decide))
    rcases Nat.lt_or_eq_of_le (by omega : w + rows.length ≤ Division.lastColumn (y.expand w f n))
      with hlt | heq
    · exact le_of_lt (Division.rank_lt_of_lastColumn_lt (by omega))
    · refine le_of_lt (Division.rank_lt_of_entry_zero_lt (by omega) ?_)
      have hpos := hy.nonNegative hb
      rw [Division.entry_mark_zero hxk hx.pos (by omega)]
      omega

end Compare

/-- The merge finds what comes first if it does not count a division of the left operand for one that
ends where a division of the right operand does. -/
theorem Sorted.decides {w n : Nat} {a b : List Row} (hw : 1 < w) (ha : Sorted w a) (hb : Sorted w b)
    (hc : (∀ r ∈ a, Division.isKnown r = true) ∨ ∀ (j : Nat) (r : Row),
      b[j]? = some r → Division.isKnown r = true → r.entry (w + j - 1) = 0) :
    Decides True w n a b := by
  rintro a₁ a₂ b₁ b₂ rows x y e f rfl rfl hx hy
  refine ⟨fun ho hk => ?_, fun ho hk => ?_⟩
  · rw [hy.isKnown_expand] at hk
    have hxy : Division.isKnown x = true ∨ y.entry (w + b₁.length - 1) = 0 :=
      hc.imp (fun h => h x Upcoming.mem) fun h => h b₁.length y (by simp) hk
    exact Division.precedes_true.2
      (hx.rank_le_of_order hy ha hb hw hxy hk (ne_of_eq_of_ne ho (by decide)))
  · have hlt := (hx.order_eq_gt_iff hy ha hb hw).1 ho
    rw [Division.mark_of_isKnown hk] at hlt
    exact .of_lt hlt

theorem Matrix.sorted_mergeDivs {w : Nat} {a b : Matrix} (hw : 1 < w)
    (hac : a.columns = w + a.rows.length) (ha : Sorted w a.rows) (hb : Sorted w b.rows)
    (hc : (∀ r ∈ a.rows, Division.isKnown r = true) ∨ ∀ (j : Nat) (r : Row),
      b.rows[j]? = some r → Division.isKnown r = true → r.entry (w + j - 1) = 0) :
    (Division.markAll w (a.mergeDivs b).matrix.rows).Pairwise
      fun r s => Division.rank r ≤ Division.rank s :=
  (ordered_mergeDivs (by omega) hac ha.ordered hb.ordered (ha.decides hw hb hc)).imp
    Division.precedes_true.1

theorem Embeds.unknown {w : Nat} {a m : List Row} {e : List Nat} (h : Embeds w m.length a m e)
    (ha : Sorted w a) (hw : 0 < w) {k : Nat} {r : Row} (hk : k ∈ e) (hr : m[k]? = some r)
    (hu : Division.isKnown r = false) : ∀ c, r.entry c = 0 := by
  obtain ⟨i, hi⟩ := List.mem_iff_getElem?.1 hk
  have hs := List.getElem?_eq_getElem (h.getElem?_lt hi)
  have hmem := List.mem_of_getElem? hs
  have hl := ha.triangular.le_length hmem
  obtain rfl := Option.some.inj (hr.symm.trans (h.row i _ k hs hi))
  rw [Division.isKnown_expand hl hw] at hu
  exact Row.expand_eq_zero hl h.nodup h.lt (ha.unknown _ hmem hu)

namespace LocalSpace

structure IsSorted (ls : LocalSpace) : Prop where
  wellFormed : ls.WellFormed
  unknown : ∀ r ∈ ls.divs.rows, Division.isKnown r = false → r.isZero = true
  positive : ∀ r ∈ ls.divs.rows, Division.isKnown r = true → 0 < r.entry 0
  unmoved : ls.sortDivs.swaps = []

theorem WellFormed.sortable {ls : LocalSpace} (h : ls.WellFormed)
    (hz : ∀ r ∈ ls.divs.rows, Division.isKnown r = false → ∀ c, r.entry c = 0)
    (hp : ∀ r ∈ ls.divs.rows, Division.isKnown r = true → 0 < r.entry 0) : ls.Sortable := by
  refine ⟨h.columns, h.triangular.length_row, hz, fun _ _ _ s hs => ?_⟩
  cases hk : Division.isKnown s with
  | true => exact le_of_lt (hp s hs hk)
  | false => rw [hz s hs hk]

theorem isSorted_iff {ls : LocalSpace} (h : ls.WellFormed) :
    ls.IsSorted ↔ Sorted (2 + ls.space.total) ls.divs.rows := by
  constructor
  · rintro ⟨-, hu, hp, hs⟩
    have hz := fun r hr hk => (Row.isZero_iff r).1 (hu r hr hk)
    rw [sortDivs_swaps_eq_nil_iff h (h.sortable hz hp), sortedBelow_iff] at hs
    exact ⟨h.triangular, hz, hp, hs⟩
  · rintro ⟨-, hz, hp, hs⟩
    refine ⟨h, fun r hr hk => (Row.isZero_iff r).2 (hz r hr hk), hp, ?_⟩
    rwa [sortDivs_swaps_eq_nil_iff h (h.sortable hz hp), sortedBelow_iff]

/-- Merging two sorted local spaces gives a sorted one if the left one has only divisions with a
definition, or if no division of the right one refers to what stands directly in front of it. -/
theorem merge_sorted (a b : LocalSpace) (ha : a.IsSorted) (hb : b.IsSorted)
    (hs : a.space.agrees b.space = true) (ht : a.space.total = b.space.total)
    (hc : a.allKnown = true ∨ ∀ (j : Nat) (r : Row), b.divs.rows[j]? = some r →
      Division.isKnown r = true → r.entry (2 + b.space.total + j - 1) = 0) :
    ∃ m, a.merge b = .ok m ∧ m.ls.IsSorted := by
  have hsa := (isSorted_iff ha.wellFormed).1 ha
  have hsb := (isSorted_iff hb.wellFormed).1 hb
  rw [← ht] at hsb hc
  have hmerged := Matrix.sorted_mergeDivs (by omega) ha.wellFormed.columns hsa hsb
    (hc.imp_left List.all_eq_true.1)
  obtain ⟨hmerge, hcols⟩ := Matrix.mergeDivs_spec (by omega) ha.wellFormed.columns hsa.triangular
    hsb.triangular
  refine ⟨_, merge_eq_mergeDivs ha.wellFormed hb.wellFormed ht hs, ?_⟩
  rw [isSorted_iff ((wellFormed_iff _).2 ⟨hcols, hmerge.triangular⟩)]
  refine ⟨hmerge.triangular, fun r hr hu => ?_, fun r hr hk => ?_, hmerged⟩
  · obtain ⟨k, hk⟩ := List.mem_iff_getElem?.1 hr
    rcases hmerge.covers k (List.getElem?_eq_some_iff.1 hk).1 with hleft | hright
    · exact hmerge.left.unknown hsa (by omega) hleft hk hu
    · exact hmerge.right.unknown hsb (by omega) hright hk hu
  · obtain ⟨s, hs, heq⟩ := hmerge.exists_denominator (by omega) hsa.triangular hsb.triangular hr
    rw [Division.isKnown_iff, heq, ← Division.isKnown_iff] at hk
    rw [heq]
    exact hs.elim (fun hs => hsa.positive s hs hk) fun hs => hsb.positive s hs hk

/-- With one parameter `p`: `d`, which is any integer, and `⌊(x + d) / 2⌋` on the left, and `⌊p / 3⌋`
and `⌊(p + x) / 5⌋` on the right, which go first. -/
theorem merge_sorted_parameter :
    let a : LocalSpace := ⟨.anonymousSet 1 1, ⟨6, [[0, 0, 0, 0, 0, 0], [2, 0, 0, 1, 1, 0]]⟩⟩
    let b : LocalSpace := ⟨.anonymousSet 1 1, ⟨6, [[3, 0, 1, 0, 0, 0], [5, 0, 1, 1, 0, 0]]⟩⟩
    a.IsSorted ∧ b.IsSorted ∧ a.space.agrees b.space = true ∧ a.space.total = b.space.total ∧
      (a.allKnown = true ∨ ∀ (j : Nat) (r : Row), b.divs.rows[j]? = some r →
        Division.isKnown r = true → r.entry (2 + b.space.total + j - 1) = 0) ∧
      ∃ m, a.merge b = .ok m ∧ m.ls.IsSorted ∧ m.left = [2, 3] ∧ m.right = [0, 1] := by
  intro a b
  have ha : a.IsSorted := ⟨wellFormed_of_forall_lt rfl (by decide) (by decide), by decide,
    by decide, by decide⟩
  have hb : b.IsSorted := ⟨wellFormed_of_forall_lt rfl (by decide) (by decide), by decide,
    by decide, by decide⟩
  have hc : a.allKnown = true ∨ ∀ (j : Nat) (r : Row), b.divs.rows[j]? = some r →
      Division.isKnown r = true → r.entry (2 + b.space.total + j - 1) = 0 := by
    refine .inr fun j r hr _ => ?_
    rcases j with _ | _ | j
    · obtain rfl := Option.some.inj hr
      decide
    · obtain rfl := Option.some.inj hr
      decide
    · cases hr
  obtain ⟨m, hok, hm⟩ := merge_sorted a b ha hb rfl rfl hc
  have hplaces : (a.merge b).map (fun m => (m.left, m.right)) = .ok ([2, 3], [0, 1]) := by cbv
  rw [hok] at hplaces
  obtain ⟨hl, hr⟩ := Prod.mk.inj (Except.ok.inj hplaces)
  exact ⟨ha, hb, rfl, rfl, hc, m, hok, hm, hl, hr⟩

/-- A division without a definition goes in front of `⌊x / 2⌋`, with which it changes places when the
merged divisions are sorted. -/
theorem not_sorted_merge_unknown :
    let a := overOneVariable [[0, 0, 0, 0]]
    let b := overOneVariable [[2, 0, 1, 0]]
    a.IsSorted ∧ b.IsSorted ∧ a.space.agrees b.space = true ∧ a.space.total = b.space.total ∧
      ∃ m, a.merge b = .ok m ∧ m.ls.sortDivs.swaps = [(0, 1)] := by
  intro a b
  have ha : a.IsSorted := ⟨wellFormed_overOneVariable (by decide) (by decide), by decide, by decide,
    by decide⟩
  have hb : b.IsSorted := ⟨wellFormed_overOneVariable (by decide) (by decide), by decide, by decide,
    by decide⟩
  refine ⟨ha, hb, rfl, rfl, ⟨overOneVariable [[0, 0, 0, 0, 0], [2, 0, 1, 0, 0]], [0], [1]⟩, ?_, ?_⟩
  · cbv
  · cbv

end LocalSpace

end Quasiaffine
