import Quasiaffine.Proofs.Division.Value

set_option autoImplicit false

namespace Quasiaffine

/-- Row `s` over `n` divisions is row `r` with its coefficient of division `t` moved to division
`e[t]`. The first `w` entries stay, and all divisions besides have no coefficient. -/
structure Row.MovedTo (w n : Nat) (e : List Nat) (r s : Row) : Prop where
  length : s.length = w + n
  front : ∀ c < w, s.entry c = r.entry c
  moved : ∀ t k : Nat, e[t]? = some k → s.entry (w + k) = r.entry (w + t)
  others : ∀ k, k ∉ e → s.entry (w + k) = 0

/-- Division `i` of an operand `a` stands at index `e[i]` of a merge `m`, in the order of `a`. -/
structure KeepsDivisions (w : Nat) (a m : List Row) (e : List Nat) : Prop where
  length : e.length = a.length
  increasing : e.Pairwise (· < ·)
  le_index : ∀ i k : Nat, e[i]? = some k → i ≤ k
  row : ∀ (i k : Nat) (r : Row), a[i]? = some r → e[i]? = some k →
    ∃ s, m[k]? = some s ∧ Row.MovedTo w m.length e r s

theorem Row.movedTo_expand {w n : Nat} {e : List Nat} {r : Row} (hw : w ≤ r.length) (hd : e.Nodup)
    (hlt : ∀ k ∈ e, k < n) : Row.MovedTo w n e r (r.expand w e n) where
  length := length_expand hw
  front := fun _ hc => entry_expand_of_lt hw hc
  moved := fun _ _ ht => entry_expand hw hd ht (hlt _ (List.mem_of_getElem? ht))
  others := fun _ hk => entry_expand_of_notMem hw hk

theorem le_of_pairwise_lt {e : List Nat} (he : e.Pairwise (· < ·)) {i k : Nat}
    (hi : e[i]? = some k) : i ≤ k := by
  induction i generalizing k with
  | zero => exact Nat.zero_le k
  | succ i ih =>
    obtain ⟨hlt, rfl⟩ := List.getElem?_eq_some_iff.1 hi
    have hprev : e[i]? = some e[i] := List.getElem?_eq_getElem (by omega)
    have hstep := List.pairwise_iff_getElem.1 he i (i + 1) (by omega) hlt (by omega)
    exact Nat.lt_of_le_of_lt (ih hprev) hstep

theorem eq_range_of_pairwise_lt {e : List Nat} {n : Nat} (he : e.Pairwise (· < ·))
    (hmem : ∀ k, k ∈ e ↔ k < n) : e = List.range n := by
  refine List.Perm.eq_of_pairwise' he List.pairwise_lt_range ?_
  refine (List.perm_ext_iff_of_nodup (he.imp Nat.ne_of_lt) List.nodup_range).2 fun k => ?_
  rw [hmem, List.mem_range]

namespace IsMerge

variable {w : Nat} {a b m : List Row} {e f : List Nat}

theorem keepsLeft (h : IsMerge w a b m e f) (ha : ∀ r ∈ a, w ≤ r.length) :
    KeepsDivisions w a m e where
  length := h.left.length
  increasing := h.left_increasing
  le_index := fun _ _ => le_of_pairwise_lt h.left_increasing
  row := fun i k r hr hk => ⟨_, h.left.row i r k hr hk,
    Row.movedTo_expand (ha r (List.mem_of_getElem? hr)) h.left.nodup h.left.lt⟩

theorem eq_of_nil_right (h : IsMerge w a [] m e f) (ha : Triangular w a.length a) :
    m = a ∧ e = List.range a.length ∧ f = [] := by
  have hf : f = [] := List.eq_nil_of_length_eq_zero h.right.length
  have he : e = List.range m.length := by
    refine eq_range_of_pairwise_lt h.left_increasing fun k => ⟨h.left.lt k, fun hk => ?_⟩
    exact (h.covers k hk).resolve_right (by simp [hf])
  have hlen : m.length = a.length := by
    have := h.left.length
    rwa [he, List.length_range] at this
  refine ⟨List.ext_getElem? fun i => ?_, hlen ▸ he, hf⟩
  rcases Nat.lt_or_ge i a.length with hi | hi
  · have hr : a[i]? = some a[i] := List.getElem?_eq_getElem hi
    have hrow := h.left.row i _ i hr (by rw [he, List.getElem?_range (by omega)])
    rw [hrow, hr, he, Row.expand_range]
    rw [ha.length_row _ (List.getElem_mem hi), hlen]
  · rw [List.getElem?_eq_none hi, List.getElem?_eq_none (by omega)]

theorem eq_of_nil_left (h : IsMerge w [] b m e f) (hb : Triangular w b.length b) :
    m = b ∧ e = [] ∧ f = List.range b.length := by
  obtain ⟨hm, hf, he⟩ := h.symm.eq_of_nil_right hb
  exact ⟨hm, he, hf⟩

end IsMerge

theorem Matrix.eq_of_rows_eq {w : Nat} {m m' : Matrix} (h : m.columns = w + m.rows.length)
    (h' : m'.columns = w + m'.rows.length) (hr : m.rows = m'.rows) : m = m' := by
  cases m
  cases m'
  simp_all

namespace LocalSpace

variable {a b : LocalSpace} {x d p : Row} {e : List Nat}

/-- The values `d` of merged divisions at `x` determine those of the divisions of an operand. -/
theorem Assigns.eq_map_iff (ha : a.WellFormed) (hx : x.length = a.space.total)
    (h : a.Assigns x (e.map d.entry)) :
    a.Assigns x p ∧ (∀ (i : Nat) (r : Row), a.divs.rows[i]? = some r →
      Division.isKnown r = false → p.entry i = d.entry (e.getD i 0)) ↔ p = e.map d.entry := by
  have hentry : ∀ (i : Nat) (r : Row), a.divs.rows[i]? = some r →
      Row.entry (e.map d.entry) i = d.entry (e.getD i 0) := by
    intro i r hr
    have hi : i < e.length := by
      have := (List.getElem?_eq_some_iff.1 hr).1
      have := h.length
      rw [List.length_map] at this
      omega
    simp [Row.entry, List.getD_eq_getElem?_getD, List.getElem?_eq_getElem hi]
  constructor
  · rintro ⟨hp, hu⟩
    exact hp.unique_of_unknown h ha hx fun i r hr hk => by rw [hu i r hr hk, hentry i r hr]
  · rintro rfl
    exact ⟨h, fun i r hr _ => hentry i r hr⟩

theorem merge_eq_mergeDivs (ha : a.WellFormed) (hb : b.WellFormed)
    (ht : a.space.total = b.space.total) (hs : a.space.agrees b.space = true) :
    a.merge b = .ok ⟨⟨a.space, (a.divs.mergeDivs b.divs).matrix⟩, (a.divs.mergeDivs b.divs).left,
      (a.divs.mergeDivs b.divs).right⟩ := by
  have hat := ha.triangular
  have hbt := hb.triangular
  have hac := ha.columns
  have hbc := hb.columns
  rw [← ht] at hbt hbc
  obtain ⟨hmerge, hcols⟩ := Matrix.mergeDivs_spec (by omega) hac hat hbt
  rw [merge, hs]
  by_cases hb0 : b.divCount = 0
  · rw [List.eq_nil_of_length_eq_zero hb0] at hmerge
    obtain ⟨hrows, hl, hr⟩ := hmerge.eq_of_nil_right hat
    rw [Matrix.eq_of_rows_eq hcols hac hrows, hl, hr]
    simp [hb0, require, bind, Except.bind]
    rfl
  by_cases ha0 : a.divCount = 0
  · rw [List.eq_nil_of_length_eq_zero ha0] at hmerge
    obtain ⟨hrows, hl, hr⟩ := hmerge.eq_of_nil_left hbt
    rw [Matrix.eq_of_rows_eq hcols hbc hrows, hl, hr]
    simp [ha0, hb0, require, bind, Except.bind]
    rfl
  · simp [ha0, hb0, require, bind, Except.bind]
    rfl

/-- What merging two lists of divisions over the same dimensions does. The values of the merged
divisions at a point are those of both operands, and all values of the operands come together. -/
theorem merge_keeps_operands (a b : LocalSpace) (ha : a.WellFormed) (hb : b.WellFormed)
    (ht : a.space.total = b.space.total) :
    let merged := a.divs.mergeDivs b.divs
    let ls : LocalSpace := ⟨a.space, merged.matrix⟩
    KeepsDivisions (2 + a.space.total) a.divs.rows merged.matrix.rows merged.left ∧
      KeepsDivisions (2 + a.space.total) b.divs.rows merged.matrix.rows merged.right ∧
      (∀ k < merged.matrix.height, k ∈ merged.left ∨ k ∈ merged.right) ∧
      (∀ k, k ∈ merged.left → k ∈ merged.right → ls.isKnown k = true) ∧
      ls.WellFormed ∧
      (∀ x d : Row, x.length = a.space.total → ls.Assigns x d → ∀ p : Row,
        (a.Assigns x p ∧ (∀ (i : Nat) (r : Row), a.divs.rows[i]? = some r →
            Division.isKnown r = false → p.entry i = d.entry (merged.left.getD i 0)) ↔
          p = merged.left.map d.entry) ∧
        (b.Assigns x p ∧ (∀ (i : Nat) (r : Row), b.divs.rows[i]? = some r →
            Division.isKnown r = false → p.entry i = d.entry (merged.right.getD i 0)) ↔
          p = merged.right.map d.entry)) ∧
      (∀ x p q : Row, x.length = a.space.total → a.Assigns x p → b.Assigns x q →
        ∃ d, ls.Assigns x d ∧ merged.left.map d.entry = p ∧ merged.right.map d.entry = q) ∧
      (a.space.agrees b.space = true → a.merge b = .ok ⟨ls, merged.left, merged.right⟩) := by
  have hat := ha.triangular
  have hbt := hb.triangular
  rw [← ht] at hbt
  intro merged ls
  obtain ⟨hmerge, hcols⟩ := Matrix.mergeDivs_spec (by omega) ha.columns hat hbt
  have hls : IsMerge (2 + a.space.total) a.divs.rows b.divs.rows ls.divs.rows merged.left
    merged.right := hmerge
  refine ⟨hmerge.keepsLeft fun _ => hat.le_length, hmerge.symm.keepsLeft fun _ => hbt.le_length,
    hmerge.covers, fun k hl hr => ?_, (wellFormed_iff ls).2 ⟨hcols, hmerge.triangular⟩,
    fun x d hx hd p => ?_, fun x p q hx hp hq => hp.amalgam hls ht hx hat hbt hq,
    merge_eq_mergeDivs ha hb ht⟩
  · have hk := List.getElem?_eq_getElem (hmerge.left.lt k hl)
    rw [isKnown, div?, hk]
    exact hmerge.shared k hl hr _ hk
  · obtain ⟨hda, hdb⟩ := hd.operands hls ht hx hat hbt
    exact ⟨hda.eq_map_iff ha hx, hdb.eq_map_iff hb (hx.trans ht)⟩

/-- A division without a definition and `⌊x/3⌋` on the left, and on the right `⌊x/3⌋`, `⌊x/2⌋` and
`⌊(x + ⌊x/2⌋)/3⌋`, which are not in canonical order. -/
theorem merge_keeps_operands_unsorted :
    let a := overOneVariable [[0, 0, 0, 0, 0], [3, 0, 1, 0, 0]]
    let b := overOneVariable [[3, 0, 1, 0, 0, 0], [2, 0, 1, 0, 0, 0], [3, 0, 1, 0, 1, 0]]
    a.WellFormed ∧ b.WellFormed ∧ a.space.total = b.space.total ∧
      a.space.agrees b.space = true ∧
      a.merge b = .ok ⟨overOneVariable [[0, 0, 0, 0, 0, 0, 0], [3, 0, 1, 0, 0, 0, 0],
        [2, 0, 1, 0, 0, 0, 0], [3, 0, 1, 0, 0, 1, 0]], [0, 1], [1, 2, 3]⟩ := by
  intro a b
  have ha : a.WellFormed := wellFormed_overOneVariable (by decide) (by decide)
  have hb : b.WellFormed := wellFormed_overOneVariable (by decide) (by decide)
  obtain ⟨-, -, -, -, -, -, -, hmerge⟩ := merge_keeps_operands a b ha hb rfl
  refine ⟨ha, hb, rfl, rfl, (hmerge rfl).trans ?_⟩
  cbv

end LocalSpace

end Quasiaffine
