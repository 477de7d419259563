import Quasiaffine.Proofs.Division.Exchange
import Quasiaffine.Proofs.Division.Marking

/-!
Sorting divisions that refer to each other in no circle. First each division is moved behind those
that it refers to: there is a ranking of the divisions that goes down along references, and each
exchange brings one of smaller rank to the place that is being filled. Then each sinks past those
that are greater, in the order of marked rows, and none sinks past one that it refers to.
-/

set_option autoImplicit false

namespace Quasiaffine

theorem Division.mark_swap {r : Row} {w i j k : Nat} (hw : 0 < w) (hi : w + i < r.length)
    (hj : w + j < r.length) : mark w k (r.swap (w + i) (w + j)) =
      (mark w (Equiv.swap i j k) r).swap (w + i) (w + j) := by
  -- Columns of divisions are exchanged and so are the places of the rows.
  have hzero : Equiv.swap (w + i) (w + j) 0 = 0 :=
    Equiv.swap_apply_of_ne_of_ne (by omega) (by omega)
  have hknown : isKnown (r.swap (w + i) (w + j)) = isKnown r := by
    rw [Bool.eq_iff_iff, isKnown_iff, isKnown_iff, Row.entry_swap _ hi hj, hzero]
  cases hr : isKnown r with
  | true => rw [mark_of_isKnown (hknown.trans hr), mark_of_isKnown hr]
  | false =>
    rw [mark, if_neg (by simp [hknown, hr]), mark, if_neg (by simp [hr])]
    rw [← Row.set_swap (by simpa using hi) (by simpa using hj), ← Row.set_swap hi hj, hzero,
      swap_add, Equiv.swap_apply_self]

namespace LocalSpace

/-- What sorting asks of divisions: rows of the right width, nothing in those without a definition,
and no negative denominators beside such ones. -/
structure Sortable (ls : LocalSpace) : Prop where
  columns : ls.divs.columns = 2 + ls.space.total + ls.divs.rows.length
  width : ∀ r ∈ ls.divs.rows, r.length = 2 + ls.space.total + ls.divs.rows.length
  unknown : ∀ r ∈ ls.divs.rows, Division.isKnown r = false → ∀ c, r.entry c = 0
  nonNegative : ∀ r ∈ ls.divs.rows, Division.isKnown r = false →
    ∀ s ∈ ls.divs.rows, 0 ≤ s.entry 0

def marked (ls : LocalSpace) : List Row := Division.markAll (2 + ls.space.total) ls.divs.rows

variable {ls : LocalSpace} {i j k : Nat} {r x y : Row}

theorem getElem?_marked (ls : LocalSpace) (k : Nat) :
    ls.marked[k]? = ls.divs.rows[k]?.map (Division.mark (2 + ls.space.total) k) :=
  Division.getElem?_markAll _ _ k

namespace Sortable

theorem entry_swap_zero (h : ls.Sortable) (hr : r ∈ ls.divs.rows) (hi : i < ls.divs.rows.length)
    (hj : j < ls.divs.rows.length) :
    (r.swap (2 + ls.space.total + i) (2 + ls.space.total + j)).entry 0 = r.entry 0 := by
  have hl := h.width r hr
  rw [Row.entry_swap _ (by omega) (by omega), Equiv.swap_apply_of_ne_of_ne (by omega) (by omega)]

theorem swapDiv (h : ls.Sortable) (hi : i < ls.divs.rows.length) (hj : j < ls.divs.rows.length) :
    (ls.swapDiv i j).Sortable where
  columns := by rw [columns_swapDiv, space_swapDiv, length_rows_swapDiv, h.columns]
  width := by
    intro r' hr'
    obtain ⟨r, hr, rfl⟩ := exists_of_mem_swapDiv hi hj hr'
    rw [Row.length_swap, space_swapDiv, length_rows_swapDiv, h.width r hr]
  unknown := by
    intro r' hr' hu c
    obtain ⟨r, hr, rfl⟩ := exists_of_mem_swapDiv hi hj hr'
    have hl := h.width r hr
    rw [Division.isKnown, h.entry_swap_zero hr hi hj] at hu
    rw [Row.entry_swap _ (by omega) (by omega), h.unknown r hr hu]
  nonNegative := by
    intro r' hr' hu s' hs'
    obtain ⟨r, hr, rfl⟩ := exists_of_mem_swapDiv hi hj hr'
    obtain ⟨s, hs, rfl⟩ := exists_of_mem_swapDiv hi hj hs'
    rw [Division.isKnown, h.entry_swap_zero hr hi hj] at hu
    rw [h.entry_swap_zero hs hi hj]
    exact h.nonNegative r hr hu s hs

theorem getElem?_marked_swapDiv (h : ls.Sortable) (hij : i ≠ j) (hi : i < ls.divs.rows.length)
    (hj : j < ls.divs.rows.length) (k : Nat) :
    (ls.swapDiv i j).marked[k]? = ls.marked[Equiv.swap i j k]?.map
      (Row.swap (2 + ls.space.total + i) (2 + ls.space.total + j)) := by
  rw [getElem?_marked, getElem?_marked, getElem?_swapDiv hij hi hj, space_swapDiv]
  cases hr : ls.divs.rows[Equiv.swap i j k]? with
  | none => rfl
  | some r =>
    have hl := h.width r (List.mem_of_getElem? hr)
    simp only [Option.map_some, Option.some.injEq]
    exact Division.mark_swap (by omega) (by omega) (by omega)

theorem isKnown_marked (h : ls.Sortable) (hr : ls.marked[k]? = some r) :
    Division.isKnown r = true := by
  rw [getElem?_marked, Option.map_eq_some_iff] at hr
  obtain ⟨s, hs, rfl⟩ := hr
  have hl := h.width s (List.mem_of_getElem? hs)
  have hk := (List.getElem?_eq_some_iff.1 hs).1
  exact Division.isKnown_mark (by omega) (by omega)

theorem length_marked (h : ls.Sortable) (hr : ls.marked[k]? = some r) :
    r.length = 2 + ls.space.total + ls.divs.rows.length := by
  rw [getElem?_marked, Option.map_eq_some_iff] at hr
  obtain ⟨s, hs, rfl⟩ := hr
  rw [Division.length_mark, h.width s (List.mem_of_getElem? hs)]

/-- Sorting compares marked rows. -/
theorem order_eq_gt_iff (h : ls.Sortable) (hx : ls.divs.rows[i]? = some x)
    (hy : ls.divs.rows[j]? = some y) :
    Division.order x y i j ls.divs.rows.length ls.divs.columns = .gt ↔
      Division.rank (Division.mark (2 + ls.space.total) j y) <
        Division.rank (Division.mark (2 + ls.space.total) i x) := by
  have hxm := List.mem_of_getElem? hx
  have hym := List.mem_of_getElem? hy
  rw [h.columns]
  exact Division.order_eq_gt_iff_mark (h.width x hxm) (h.width y hym) (by omega)
    (List.getElem?_eq_some_iff.1 hx).1 (List.getElem?_eq_some_iff.1 hy).1 (h.unknown x hxm)
    (h.unknown y hym) (fun hu => h.nonNegative y hym hu x hxm)
    fun hu => h.nonNegative x hxm hu y hym

end Sortable

end LocalSpace

section Descending

/-- References of the `n` divisions go down the ranking `f`. -/
structure Descends (n : Nat) (ls : LocalSpace) (f : Nat → Nat) : Prop where
  sortable : ls.Sortable
  count : ls.divs.rows.length = n
  lt : ∀ k < n, f k < n
  refers : ∀ (k j : Nat) (r : Row), ls.divs.rows[k]? = some r →
    r.entry (2 + ls.space.total + j) ≠ 0 → f j < f k

variable {ls : LocalSpace} {n i j : Nat} {f : Nat → Nat}

theorem Descends.swapDiv (h : Descends n ls f) (hij : i ≠ j) (hi : i < n) (hj : j < n) :
    Descends n (ls.swapDiv i j) (f ∘ Equiv.swap i j) := by
  have hcount := h.count
  refine ⟨h.sortable.swapDiv (by omega) (by omega), ?_, fun k hk => h.lt _ (swap_lt hi hj hk),
    fun k l r' hr' hne => ?_⟩
  · rw [LocalSpace.length_rows_swapDiv, hcount]
  · rw [LocalSpace.getElem?_swapDiv hij (by omega) (by omega), Option.map_eq_some_iff] at hr'
    obtain ⟨r, hr, rfl⟩ := hr'
    have hl := h.sortable.width r (List.mem_of_getElem? hr)
    rw [LocalSpace.space_swapDiv, Row.entry_swap _ (by omega) (by omega), swap_add] at hne
    exact h.refers _ _ r hr hne

/-- The loop that orders divisions goes on to the next place when the division at its place refers
to no later one, and ends behind the last place. -/
def orderStep? (s : Nat × Rearranged) : Option (Nat × Rearranged) :=
  if s.1 < s.2.ls.divCount then
    match Rearranged.dependency? s.2.ls s.1 with
    | some j => some (s.1, s.2.swap s.1 j)
    | none => some (s.1 + 1, s.2)
  else none

def OrderRuns : Nat × Rearranged → Nat × Rearranged → Prop :=
  Relation.ReflTransGen fun s s' => orderStep? s = some s'

/-- Each exchange brings a division of smaller rank to place `i`. -/
theorem Rearranged.settle_spec (fuel : Nat) (r : Rearranged) {f : Nat → Nat}
    (h : Descends n r.ls f) (hi : i < n) (ho : OrderedBelow r.ls i) (hfuel : f i < fuel) :
    OrderRuns (i, r) (i + 1, r.settle i fuel) ∧ (∃ f', Descends n (r.settle i fuel).ls f') ∧
      OrderedBelow (r.settle i fuel).ls (i + 1) := by
  induction fuel generalizing r f with
  | zero => omega
  | succ fuel ih =>
    have hcount := h.count
    obtain ⟨row, hrow⟩ : ∃ row, r.ls.divs.rows[i]? = some row :=
      ⟨_, List.getElem?_eq_getElem (by omega)⟩
    have hmem := List.mem_of_getElem? hrow
    have hlen := h.sortable.width row hmem
    have hlt : i < r.ls.divCount := (List.getElem?_eq_some_iff.1 hrow).1
    rw [settle]
    cases hdep : dependency? r.ls i with
    | none =>
      refine ⟨.single ?_, ⟨f, h⟩, fun k hki s hs => ?_⟩
      · simp only [orderStep?, hlt, if_true, hdep]
      · rcases Nat.lt_or_eq_of_le (Nat.le_of_lt_succ hki) with hk | rfl
        · exact ho k hk s hs
        obtain rfl := Option.some.inj (hrow.symm.trans hs)
        cases hknown : Division.isKnown row with
        | false => exact fun c _ => h.sortable.unknown row hmem hknown c
        | true =>
          refine dependency?_eq_none hrow hknown ?_ hdep
          by_contra hne
          exact Nat.lt_irrefl _ (h.refers k k row hrow hne)
    -- What comes to place `i` is referred to by what was there, so the rank goes down and the
    -- fuel lasts.
    | some j =>
      obtain ⟨hij, hne⟩ := dependency?_eq_some hrow hdep
      have hj : j < n := by
        have := Row.lt_length_of_entry_ne_zero hne
        omega
      have hrank := h.refers i j row hrow hne
      obtain ⟨hruns, hdesc, hordered⟩ := ih (r.swap i j) (h.swapDiv (by omega) hi hj)
        (ho.swapDiv h.sortable.width (by omega) (by omega) hij)
        (by rw [Function.comp_apply, Equiv.swap_apply_left]; omega)
      refine ⟨.head ?_ hruns, hdesc, hordered⟩
      simp only [orderStep?, hlt, if_true, hdep]

/-- After `orderDivs`, to which the loop leads, every division stands behind those that it refers
to. -/
theorem LocalSpace.orderDivs_spec (h : Descends n ls f) :
    OrderRuns (0, ⟨ls, []⟩) (n, ls.orderDivs) ∧ (∃ f', Descends n ls.orderDivs.ls f') ∧
      OrderedBelow ls.orderDivs.ls n := by
  have hcount : ls.divCount = n := h.count
  rw [orderDivs, hcount]
  refine foldl_range_induction (P := fun i (r : Rearranged) => OrderRuns (0, ⟨ls, []⟩) (i, r) ∧
    (∃ f', Descends n r.ls f') ∧ OrderedBelow r.ls i)
    ⟨.refl, ⟨f, h⟩, fun k hk => absurd hk (Nat.not_lt_zero k)⟩ ?_
  rintro i hi r ⟨hruns, ⟨f', h'⟩, ho⟩
  obtain ⟨hruns', hdesc, ho'⟩ := Rearranged.settle_spec n r h' hi ho (h'.lt i hi)
  exact ⟨hruns.trans hruns', hdesc, ho'⟩

end Descending

section Sink

theorem Row.reindexed_swap {r : Row} {c : Nat} (hc : c + 1 < r.length) (hz : r.entry (c + 1) = 0) :
    Division.Reindexed (· ≠ c + 1) (Equiv.swap c (c + 1)) r (r.swap c (c + 1)) := by
  refine ⟨fun d _ => ?_, fun d hd hdc => hd (hdc ▸ hz), fun d hd => ?_⟩
  · rw [Row.entry_swap _ (by omega) hc, Equiv.swap_apply_self]
  · rw [Row.entry_swap _ (by omega) hc] at hd
    exact ⟨Equiv.swap c (c + 1) d, fun h => hd (by rw [h, hz]), Equiv.swap_apply_self c (c + 1) d⟩

theorem swap_le_of_lt {i j p : Nat} (hji : j + 1 ≤ i) (hp : p ≤ i) :
    Equiv.swap j (j + 1) p ≤ i := by
  rw [Equiv.swap_apply_def]
  split_ifs <;> omega

theorem swap_succ_mono {c : Nat} : ∀ a b, a ≠ c + 1 → b ≠ c + 1 → a < b →
    Equiv.swap c (c + 1) a < Equiv.swap c (c + 1) b := by
  intro a b ha hb hab
  rw [Equiv.swap_apply_def, Equiv.swap_apply_def]
  split_ifs <;> omega

def SortedBelow (ls : LocalSpace) (i : Nat) : Prop :=
  ∀ p q : Nat, p < q → q < i → ∀ r s : Row, ls.marked[p]? = some r → ls.marked[q]? = some s →
    Division.rank r ≤ Division.rank s

theorem sortedBelow_iff {ls : LocalSpace} : SortedBelow ls ls.divs.rows.length ↔
    ls.marked.Pairwise fun r s => Division.rank r ≤ Division.rank s := by
  have hl : ls.marked.length = ls.divs.rows.length := List.length_mapIdx
  rw [List.pairwise_iff_getElem]
  constructor
  · intro h p q hp hq hpq
    exact h p q hpq (hl ▸ hq) _ _ (List.getElem?_eq_getElem hp) (List.getElem?_eq_getElem hq)
  · intro h p q hpq hq r s hr hs
    obtain ⟨hp, rfl⟩ := List.getElem?_eq_some_iff.1 hr
    obtain ⟨hq, rfl⟩ := List.getElem?_eq_some_iff.1 hs
    exact h p q hp hq hpq

/-- Division `j` is on its way down among the first `i + 1`. The others are in order, none of them
refers to it, and it belongs in front of those that it has passed. -/
structure Sinking (ls : LocalSpace) (i j : Nat) : Prop where
  sortable : ls.Sortable
  ordered : OrderedBelow ls ls.divs.rows.length
  unused : ∀ p ≤ i, ∀ r : Row, ls.divs.rows[p]? = some r → r.entry (2 + ls.space.total + j) = 0
  others : ∀ p q : Nat, p < q → q ≤ i → p ≠ j → q ≠ j → ∀ r s : Row, ls.marked[p]? = some r →
    ls.marked[q]? = some s → Division.rank r ≤ Division.rank s
  above : ∀ q : Nat, j < q → q ≤ i → ∀ r s : Row, ls.marked[j]? = some r →
    ls.marked[q]? = some s → Division.rank r ≤ Division.rank s

namespace Sinking

variable {ls : LocalSpace} {i j : Nat}

theorem start (hls : ls.Sortable) (ho : OrderedBelow ls ls.divs.rows.length)
    (hs : SortedBelow ls i) : Sinking ls i i := by
  refine ⟨hls, ho, ?_, ?_, ?_⟩
  · intro p hp r hr
    exact ho p (List.getElem?_eq_some_iff.1 hr).1 r hr _ (by omega)
  · intro p q hpq hq hpi hqi
    exact hs p q hpq (by omega)
  · intro q hiq hqi
    omega

theorem stop (h : Sinking ls i j) (hle : ∀ p, p + 1 = j → ∀ r s : Row, ls.marked[p]? = some r →
    ls.marked[j]? = some s → Division.rank r ≤ Division.rank s) : SortedBelow ls (i + 1) := by
  intro p q hpq hqi r s hr hs
  by_cases hpj : p = j
  · subst hpj
    exact h.above q hpq (by omega) r s hr hs
  · by_cases hqj : q = j
    · subst hqj
      obtain ⟨m, rfl⟩ := Nat.exists_eq_succ_of_ne_zero (by omega : q ≠ 0)
      obtain ⟨x, hx⟩ : ∃ x, ls.marked[m]? = some x :=
        ⟨_, List.getElem?_eq_getElem (by have := (List.getElem?_eq_some_iff.1 hs).1; omega)⟩
      have hxs := hle m rfl x s hx hs
      rcases Nat.lt_or_eq_of_le (Nat.le_of_lt_succ hpq) with hlt | rfl
      · exact le_trans (h.others p m hlt (by omega) hpj (by omega) r x hr hx) hxs
      · rw [hr, Option.some.injEq] at hx
        exact hx ▸ hxs
    · exact h.others p q hpq (by omega) hpj hqj r s hr hs

section Step

variable (h : Sinking ls i (j + 1)) (hji : j + 1 ≤ i) (hi : i < ls.divs.rows.length) {x y : Row}
  (hx : ls.divs.rows[j]? = some x) (hy : ls.divs.rows[j + 1]? = some y)
  (hlt : Division.rank (Division.mark (2 + ls.space.total) (j + 1) y) <
    Division.rank (Division.mark (2 + ls.space.total) j x))

include h hx hlt

theorem lastColumn_le : Division.lastColumn (Division.mark (2 + ls.space.total) (j + 1) y) ≤
    2 + ls.space.total + j := by
  have hxm := List.mem_of_getElem? hx
  have hj := (List.getElem?_eq_some_iff.1 hx).1
  have hlen := h.sortable.width x hxm
  exact (Division.lastColumn_le_of_rank_lt hlt).trans
    (Division.lastColumn_mark_le (by omega) (by omega) (h.ordered j hj x hx))

include hy

theorem isKnown : Division.isKnown y = true := by
  have hym := List.mem_of_getElem? hy
  have hj := (List.getElem?_eq_some_iff.1 hy).1
  have hlen := h.sortable.width y hym
  have hlast := h.lastColumn_le hx hlt
  by_contra hu
  rw [Bool.not_eq_true] at hu
  rw [Division.lastColumn_mark hu (h.sortable.unknown y hym hu) (by omega)] at hlast
  omega

/-- A division that is smaller than the one in front of it does not refer to that one. -/
theorem zero_from {c : Nat} (hc : 2 + ls.space.total + j ≤ c) : y.entry c = 0 := by
  have hxm := List.mem_of_getElem? hx
  have hym := List.mem_of_getElem? hy
  have hj := (List.getElem?_eq_some_iff.1 hx).1
  have hlen := h.sortable.width x hxm
  have hknown := h.isKnown hx hy hlt
  have hle := h.lastColumn_le hx hlt
  rw [Division.mark_of_isKnown hknown] at hlt hle
  refine (Division.lastColumn_spec hknown).2 c (Nat.lt_of_lt_of_le ?_ hc)
  refine Nat.lt_of_le_of_ne hle fun heq => ?_
  cases hxk : Division.isKnown x with
  | true =>
    rw [Division.mark_of_isKnown hxk] at hlt
    have hlast := Division.lastColumn_lt hxk (h.ordered j hj x hx)
    have := Division.lastColumn_le_of_rank_lt hlt
    omega
  | false =>
    have hzero := h.sortable.unknown x hxm hxk
    have hnonneg := h.sortable.nonNegative x hxm hxk y hym
    refine absurd hlt (lt_asymm (Division.rank_lt_of_entry_zero_lt ?_ ?_))
    · rw [Division.lastColumn_mark hxk hzero (by omega), heq]
    · rw [Division.entry_mark_zero hxk (by omega) (by omega)]
      omega

include hji hi

omit hji hi in
theorem marked_unused {p : Nat} {r : Row} (hp : p ≤ i) (hr : ls.marked[p]? = some r) :
    r.entry (2 + ls.space.total + j + 1) = 0 := by
  rw [LocalSpace.getElem?_marked, Option.map_eq_some_iff] at hr
  obtain ⟨s, hs, rfl⟩ := hr
  by_cases hpj : p = j + 1
  · subst hpj
    obtain rfl := Option.some.inj (hy.symm.trans hs)
    rw [Division.mark_of_isKnown (h.isKnown hx hy hlt)]
    exact h.unused _ hp y hy
  · rw [Division.entry_mark_of_ne (by omega) (by omega)]
    exact h.unused p hp s hs

omit hx hy hlt in
theorem getElem?_swapDiv {p : Nat} {r' : Row}
    (hr' : (ls.swapDiv j (j + 1)).marked[p]? = some r') :
    ∃ r : Row, ls.marked[Equiv.swap j (j + 1) p]? = some r ∧
      r' = r.swap (2 + ls.space.total + j) (2 + ls.space.total + j + 1) := by
  rw [h.sortable.getElem?_marked_swapDiv (by omega) (by omega) (by omega),
    Option.map_eq_some_iff] at hr'
  obtain ⟨r, hr, rfl⟩ := hr'
  exact ⟨r, hr, rfl⟩

/-- The order of two divisions does not notice that their columns are exchanged. -/
theorem rank_swap_le {p q : Nat} {r s : Row} (hp : p ≤ i) (hq : q ≤ i)
    (hr : ls.marked[p]? = some r) (hs : ls.marked[q]? = some s)
    (hrs : Division.rank r ≤ Division.rank s) :
    Division.rank (r.swap (2 + ls.space.total + j) (2 + ls.space.total + j + 1)) ≤
      Division.rank (s.swap (2 + ls.space.total + j) (2 + ls.space.total + j + 1)) := by
  have hrw := h.sortable.length_marked hr
  have hsw := h.sortable.length_marked hs
  have hr' := Row.reindexed_swap (c := 2 + ls.space.total + j) (by omega)
    (h.marked_unused hx hy hlt hp hr)
  have hs' := Row.reindexed_swap (c := 2 + ls.space.total + j) (by omega)
    (h.marked_unused hx hy hlt hq hs)
  exact hr'.rank_le swap_succ_mono hs' (h.sortable.isKnown_marked hr)
    (h.sortable.isKnown_marked hs) hrs

theorem step : Sinking (ls.swapDiv j (j + 1)) i j where
  sortable := h.sortable.swapDiv (by omega) (by omega)
  ordered := by
    rw [LocalSpace.length_rows_swapDiv]
    exact h.ordered.swap_succ h.sortable.width hy fun _ hc => h.zero_from hx hy hlt hc
  -- The exchange brings the column of the sinking division to `j`; nobody mentions it there
  -- either.
  unused := by
    intro p hp r' hr'
    rw [LocalSpace.getElem?_swapDiv (by omega) (by omega) (by omega),
      Option.map_eq_some_iff] at hr'
    obtain ⟨r, hr, rfl⟩ := hr'
    have hl := h.sortable.width r (List.mem_of_getElem? hr)
    rw [LocalSpace.space_swapDiv, Row.entry_swap _ (by omega) (by omega), Equiv.swap_apply_left]
    exact h.unused _ (swap_le_of_lt hji hp) r hr
  others := by
    intro p q hpq hq hpj hqj r' s' hr' hs'
    obtain ⟨r, hr, rfl⟩ := h.getElem?_swapDiv hji hi hr'
    obtain ⟨s, hs, rfl⟩ := h.getElem?_swapDiv hji hi hs'
    have hq' := swap_le_of_lt hji hq
    refine h.rank_swap_le hji hi hx hy hlt (swap_le_of_lt hji (by omega)) hq' hr hs
      (h.others _ _ ?_ hq' ?_ ?_ r s hr hs) <;>
      simp only [Equiv.swap_apply_def] <;> split_ifs <;> omega
  -- The division that has just been passed is the greater one, which is what `hlt` says.
  above := by
    intro q hjq hq r' s' hr' hs'
    obtain ⟨r, hr, rfl⟩ := h.getElem?_swapDiv hji hi hr'
    obtain ⟨s, hs, rfl⟩ := h.getElem?_swapDiv hji hi hs'
    refine h.rank_swap_le hji hi hx hy hlt (swap_le_of_lt hji (by omega)) (swap_le_of_lt hji hq)
      hr hs ?_
    rw [Equiv.swap_apply_left] at hr
    by_cases hqj : q = j + 1
    · rw [hqj, Equiv.swap_apply_right] at hs
      rw [LocalSpace.getElem?_marked, hy, Option.map_some, Option.some.injEq] at hr
      rw [LocalSpace.getElem?_marked, hx, Option.map_some, Option.some.injEq] at hs
      rw [← hr, ← hs]
      exact le_of_lt hlt
    · rw [Equiv.swap_apply_of_ne_of_ne (by omega) hqj] at hs
      exact h.above q (by omega) hq r s hr hs

end Step

end Sinking

def Rearranged.Sinks (r r' : Rearranged) : Prop :=
  ∃ j, j + 1 < r.ls.divs.rows.length ∧ r.ls.isKnown (j + 1) = true ∧ r' = r.swap j (j + 1)

/-- A division that sinks finds its place among those before it. -/
theorem Rearranged.sink_spec {n columns i : Nat} (j : Nat) (r : Rearranged)
    (hn : r.ls.divs.rows.length = n) (hc : r.ls.divs.columns = columns) (hi : i < n) (hji : j ≤ i)
    (h : Sinking r.ls i j) :
    Relation.ReflTransGen Sinks r (r.sink n columns j) ∧
      (∃ k, Sinking (r.sink n columns j).ls i k) ∧ SortedBelow (r.sink n columns j).ls (i + 1) ∧
      (r.sink n columns j).ls.divs.rows.length = n ∧
      (r.sink n columns j).ls.divs.columns = columns := by
  induction j generalizing r with
  | zero => exact ⟨.refl, ⟨0, h⟩, h.stop fun p hp => absurd hp (by omega), hn, hc⟩
  | succ j ih =>
    obtain ⟨x, hx⟩ : ∃ x, r.ls.divs.rows[j]? = some x :=
      ⟨_, List.getElem?_eq_getElem (by omega)⟩
    obtain ⟨y, hy⟩ : ∃ y, r.ls.divs.rows[j + 1]? = some y :=
      ⟨_, List.getElem?_eq_getElem (by omega)⟩
    have hgt := h.sortable.order_eq_gt_iff hx hy
    rw [hn, hc] at hgt
    rw [sink]
    simp only [Matrix.row, List.getD_eq_getElem?_getD, hx, hy, Option.getD_some]
    by_cases hlt : Division.rank (Division.mark (2 + r.ls.space.total) (j + 1) y) <
        Division.rank (Division.mark (2 + r.ls.space.total) j x)
    · rw [if_pos (hgt.2 hlt)]
      have hknown : r.ls.isKnown (j + 1) = true := by
        rw [LocalSpace.isKnown, LocalSpace.div?, hy, Option.any_some, h.isKnown hx hy hlt]
      obtain ⟨hsinks, hrest⟩ := ih (r.swap j (j + 1))
        ((LocalSpace.length_rows_swapDiv _ _ _).trans hn)
        ((LocalSpace.columns_swapDiv _ _ _).trans hc) (by omega)
        (h.step hji (by omega) hx hy hlt)
      exact ⟨.head ⟨j, by omega, hknown, rfl⟩ hsinks, hrest⟩
    · rw [if_neg fun hg => hlt (hgt.1 hg)]
      refine ⟨.refl, ⟨_, h⟩, h.stop fun p hp a b ha hb => ?_, hn, hc⟩
      obtain rfl : p = j := by omega
      rw [LocalSpace.getElem?_marked, hx, Option.map_some, Option.some.injEq] at ha
      rw [LocalSpace.getElem?_marked, hy, Option.map_some, Option.some.injEq] at hb
      rw [← ha, ← hb]
      exact le_of_not_gt hlt

end Sink

/-- Sorting ends with each division behind those that it refers to, and all in canonical order. -/
theorem LocalSpace.sorted_sortDivs {ls : LocalSpace} {n : Nat} {f : Nat → Nat}
    (h : Descends n ls f) :
    Relation.ReflTransGen Rearranged.Sinks ls.orderDivs ls.sortDivs ∧ ls.sortDivs.ls.Sortable ∧
      ls.sortDivs.ls.divs.rows.length = n ∧ OrderedBelow ls.sortDivs.ls n ∧
      SortedBelow ls.sortDivs.ls n := by
  have hcount : ls.divCount = n := h.count
  obtain ⟨-, ⟨f', h'⟩, ho⟩ := orderDivs_spec h
  obtain ⟨_, he⟩ := (Rearranged.recorded_orderDivs h.sortable.width).rearranges h.sortable.width
  rw [sortDivs, hcount]
  refine (foldl_range_induction (P := fun i (r : Rearranged) =>
    (Relation.ReflTransGen Rearranged.Sinks ls.orderDivs r ∧ r.ls.Sortable ∧
      r.ls.divs.rows.length = n ∧ OrderedBelow r.ls n ∧ SortedBelow r.ls i) ∧
      r.ls.divs.columns = ls.divs.columns)
    ⟨⟨.refl, h'.sortable, h'.count, ho, fun p q _ hq => absurd hq (Nat.not_lt_zero q)⟩,
      he.columns⟩ ?_).1
  rintro i hi r ⟨⟨hsinks, hsortable, hn, ho, hs⟩, hc⟩
  obtain ⟨hsinks', ⟨k, hk⟩, hs', hn', hc'⟩ := r.sink_spec i hn hc hi (Nat.le_refl i)
    (.start hsortable (hn.symm ▸ ho) hs)
  have ho' := hk.ordered
  rw [hn'] at ho'
  exact ⟨⟨hsinks.trans hsinks', hk.sortable, hn', ho', hs'⟩, hc'⟩

namespace LocalSpace

section Sorted

variable {ls : LocalSpace}

theorem Sortable.wellFormed (h : ls.Sortable) (ho : OrderedBelow ls ls.divs.rows.length) :
    ls.WellFormed :=
  (wellFormed_iff ls).2 ⟨h.columns, h.width, fun k r hr =>
    ho k (List.getElem?_eq_some_iff.1 hr).1 r hr⟩

theorem dependency?_eq_none (h : ls.WellFormed) (i : Nat) : Rearranged.dependency? ls i = none := by
  rw [Rearranged.dependency?]
  have hz := Row.isZero_iff _ |>.1 (h.ordered i)
  split
  · cases hf : Row.firstNonZero? ((ls.divs.row i).drop (ls.column .div i)) with
    | none => rfl
    | some k => exact absurd (hz k) (Row.firstNonZero?_eq_some hf).1
  · rfl

theorem orderDivs_eq (h : ls.WellFormed) : ls.orderDivs = ⟨ls, []⟩ := by
  rw [orderDivs]
  refine foldl_range_induction (P := fun _ (r : Rearranged) => r = ⟨ls, []⟩) rfl ?_
  rintro i - r rfl
  cases ls.divCount with
  | zero => rfl
  | succ n => rw [Rearranged.settle, dependency?_eq_none h i]

theorem WellFormed.descends (h : ls.WellFormed) (hs : ls.Sortable) :
    Descends ls.divs.rows.length ls id where
  sortable := hs
  count := rfl
  lt := fun _ hk => hk
  refers := by
    intro k j r hr hne
    change j < k
    by_contra hge
    exact hne (h.triangular.zero_from k r hr _ (by omega))

theorem sortDivs_eq_of_sortedBelow (h : ls.WellFormed) (hls : ls.Sortable)
    (hs : SortedBelow ls ls.divs.rows.length) : ls.sortDivs = ⟨ls, []⟩ := by
  rw [sortDivs, orderDivs_eq h]
  refine foldl_range_induction (P := fun _ (r : Rearranged) => r = ⟨ls, []⟩) rfl ?_
  rintro i hi r rfl
  have hi' : i < ls.divs.rows.length := hi
  cases i with
  | zero => rfl
  | succ j =>
    obtain ⟨x, hx⟩ : ∃ x, ls.divs.rows[j]? = some x := ⟨_, List.getElem?_eq_getElem (by omega)⟩
    obtain ⟨y, hy⟩ : ∃ y, ls.divs.rows[j + 1]? = some y := ⟨_, List.getElem?_eq_getElem hi'⟩
    have hle := hs j (j + 1) (Nat.lt_succ_self j) hi' _ _
      (by rw [getElem?_marked, hx, Option.map_some]) (by rw [getElem?_marked, hy, Option.map_some])
    have hgt := (hls.order_eq_gt_iff hx hy).not.2 (not_lt_of_ge hle)
    rw [Rearranged.sink]
    simp only [Matrix.row, List.getD_eq_getElem?_getD, hx, hy, Option.getD_some]
    exact if_neg hgt

/-- Sorting leaves divisions alone just if they are in canonical order. -/
theorem sortDivs_swaps_eq_nil_iff (h : ls.WellFormed) (hls : ls.Sortable) :
    ls.sortDivs.swaps = [] ↔ SortedBelow ls ls.divs.rows.length := by
  constructor
  · intro hs
    obtain ⟨-, -, -, -, hsorted⟩ := sorted_sortDivs (h.descends hls)
    have hreplay := (Rearranged.recorded_sortDivs hls.width).replay
    rw [hs] at hreplay
    rwa [hreplay] at hsorted
  · intro hs
    rw [sortDivs_eq_of_sortedBelow h hls hs]

end Sorted

end LocalSpace

end Quasiaffine
