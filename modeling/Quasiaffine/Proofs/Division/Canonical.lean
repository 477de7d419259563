import Quasiaffine.Proofs.Division.Embedding

/-!
The canonical order of divisions as a linear order on rows. A list of divisions in canonical order
is determined by the divisions themselves: two such lists in which the same divisions are embedded,
and no others, are equal, and so are the embeddings.
-/

set_option autoImplicit false

namespace Quasiaffine

namespace Row

theorem lastNonZero?_eq_none_iff (r : Row) : r.lastNonZero? = none ↔ ∀ c, r.entry c = 0 := by
  induction r with
  | nil => simp [lastNonZero?]
  | cons x r ih =>
    rw [lastNonZero?]
    constructor
    · intro h c
      split at h
      · cases h
      · rename_i hr
        cases c with
        | zero => simpa using h
        | succ c => exact ih.1 hr c
    · intro h
      rw [ih.2 fun c => h (c + 1)]
      simpa using h 0

theorem lastNonZero?_eq_some {r : Row} {k : Nat} (h : r.lastNonZero? = some k) :
    r.entry k ≠ 0 ∧ ∀ c, k < c → r.entry c = 0 := by
  induction r generalizing k with
  | nil => simp [lastNonZero?] at h
  | cons x r ih =>
    rw [lastNonZero?] at h
    split at h
    · rename_i i hi
      obtain rfl := Option.some.inj h
      refine ⟨(ih hi).1, fun c hc => ?_⟩
      obtain ⟨c, rfl⟩ := Nat.exists_eq_succ_of_ne_zero (by omega : c ≠ 0)
      exact (ih hi).2 c (by omega)
    · rename_i hr
      split at h
      · cases h
      · obtain rfl := Option.some.inj h
        refine ⟨‹_›, fun c hc => ?_⟩
        obtain ⟨c, rfl⟩ := Nat.exists_eq_succ_of_ne_zero (by omega : c ≠ 0)
        exact (lastNonZero?_eq_none_iff r).1 hr c

theorem lastNonZero?_eq_some_iff (r : Row) (k : Nat) :
    r.lastNonZero? = some k ↔ r.entry k ≠ 0 ∧ ∀ c, k < c → r.entry c = 0 := by
  refine ⟨lastNonZero?_eq_some, fun ⟨hk, hz⟩ => ?_⟩
  cases hr : r.lastNonZero? with
  | none => exact absurd ((lastNonZero?_eq_none_iff r).1 hr k) hk
  | some i =>
    obtain ⟨hi, hzi⟩ := lastNonZero?_eq_some hr
    rcases Nat.lt_trichotomy i k with h | rfl | h
    · exact absurd (hzi k h) hk
    · rfl
    · exact absurd (hz i h) hi

theorem lastNonZero?_congr {r s : Row} (h : ∀ c, r.entry c = s.entry c) :
    r.lastNonZero? = s.lastNonZero? := by
  apply Option.ext
  intro k
  rw [lastNonZero?_eq_some_iff, lastNonZero?_eq_some_iff]
  simp only [h]

theorem order_eq_lt {r s : Row} (hl : r.length = s.length) :
    order r s = .lt ↔ ∃ c, (∀ d < c, r.entry d = s.entry d) ∧ r.entry c < s.entry c := by
  induction r generalizing s with
  | nil =>
    cases s with
    | nil => simp [order]
    | cons y s => simp at hl
  | cons x r ih =>
    cases s with
    | nil => simp at hl
    | cons y s =>
      have ih := ih (s := s) (by simpa using hl)
      rw [order]
      constructor
      · intro h
        split at h
        · exact ⟨0, by simp, ‹_›⟩
        · split at h
          · obtain ⟨c, hc, hlt⟩ := ih.1 h
            refine ⟨c + 1, fun d hd => ?_, hlt⟩
            cases d with
            | zero => assumption
            | succ d => exact hc d (by omega)
          · cases h
      · rintro ⟨c, hc, hlt⟩
        cases c with
        | zero => exact if_pos hlt
        | succ c =>
          obtain rfl : x = y := hc 0 (by omega)
          rw [if_neg (Int.lt_irrefl x), if_pos rfl]
          exact ih.2 ⟨c, fun d hd => hc (d + 1) (by omega), hlt⟩

theorem order_eq_eq {r s : Row} : order r s = .eq ↔ r = s := by
  induction r generalizing s with
  | nil => cases s <;> simp [order]
  | cons x r ih =>
    cases s with
    | nil => simp [order]
    | cons y s =>
      rw [order, List.cons.injEq]
      split
      · simp
        omega
      · split <;> simp_all

end Row

namespace Division

def lastColumn (r : Row) : Nat := r.lastNonZero?.getD 0

/-- The place of a division with a definition in the canonical order: by its last column, and among
those of equal last column by its entries. -/
noncomputable def rank (r : Row) : ℕ ×ₗ Lex (ℕ → ℤ) := toLex (lastColumn r, toLex r.entry)

theorem rank_eq_iff {r s : Row} : rank r = rank s ↔ ∀ c, r.entry c = s.entry c := by
  constructor
  · intro h c
    exact congrFun (congrArg (fun p => ofLex (ofLex p).2) h) c
  · intro h
    have hl : lastColumn r = lastColumn s := by
      rw [lastColumn, Row.lastNonZero?_congr h, lastColumn]
    rw [rank, rank, hl, funext h]

theorem rank_lt_iff {r s : Row} : rank r < rank s ↔ lastColumn r < lastColumn s ∨
    lastColumn r = lastColumn s ∧
      ∃ c, (∀ d < c, r.entry d = s.entry d) ∧ r.entry c < s.entry c := by
  rw [rank, rank, Prod.Lex.toLex_lt_toLex]
  rfl

theorem eq_of_rank_eq {r s : Row} (hl : r.length = s.length) (h : rank r = rank s) : r = s :=
  Row.ext_entry hl (rank_eq_iff.1 h)

/-- The entries of `r` in the columns `S`, outside of which it is zero, stand in `r'` at the columns
that `g` gives them, and nothing else stands there. -/
structure Reindexed (S : Nat → Prop) (g : Nat → Nat) (r r' : Row) : Prop where
  entry : ∀ c, S c → r'.entry (g c) = r.entry c
  support : ∀ c, r.entry c ≠ 0 → S c
  range : ∀ d, r'.entry d ≠ 0 → ∃ c, S c ∧ g c = d

section Reindex

variable {S : Nat → Prop} {g : Nat → Nat} {r r' s s' : Row}
  (mono : ∀ c d, S c → S d → c < d → g c < g d)

theorem isKnown_iff (r : Row) : isKnown r = true ↔ r.entry 0 ≠ 0 := by simp [isKnown]

theorem lastColumn_spec (h : isKnown r = true) :
    r.entry (lastColumn r) ≠ 0 ∧ ∀ c, lastColumn r < c → r.entry c = 0 := by
  rw [isKnown_iff] at h
  cases hk : r.lastNonZero? with
  | none => exact absurd ((Row.lastNonZero?_eq_none_iff r).1 hk 0) h
  | some k =>
    rw [lastColumn, hk]
    exact Row.lastNonZero?_eq_some hk

theorem lastColumn_eq {k : Nat} (hk : r.entry k ≠ 0) (hz : ∀ c, k < c → r.entry c = 0) :
    lastColumn r = k := by
  rw [lastColumn, (Row.lastNonZero?_eq_some_iff r k).2 ⟨hk, hz⟩, Option.getD_some]

include mono

theorem Reindexed.lastColumn_eq (h : Reindexed S g r r') (hr : isKnown r = true) :
    lastColumn r' = g (lastColumn r) := by
  obtain ⟨hne, hz⟩ := lastColumn_spec hr
  have hS := h.support _ hne
  apply Division.lastColumn_eq
  · rwa [h.entry _ hS]
  · intro d hd
    by_contra hne'
    obtain ⟨c, hc, rfl⟩ := h.range d hne'
    rcases Nat.lt_trichotomy c (lastColumn r) with hlt | heq | hgt
    · exact absurd (mono c _ hc hS hlt) (by omega)
    · rw [heq] at hd
      omega
    · rw [h.entry c hc, hz c hgt] at hne'
      exact hne' rfl

omit mono in
theorem Reindexed.entry_congr (h : Reindexed S g r r') (h' : Reindexed S g s s') {d : Nat}
    (hd : ∀ c, S c → g c = d → r.entry c = s.entry c) : r'.entry d = s'.entry d := by
  by_cases hr' : r'.entry d = 0
  · by_cases hs' : s'.entry d = 0
    · rw [hr', hs']
    · obtain ⟨c, hc, rfl⟩ := h'.range d hs'
      rw [h.entry c hc, h'.entry c hc, hd c hc rfl]
  · obtain ⟨c, hc, rfl⟩ := h.range d hr'
    rw [h.entry c hc, h'.entry c hc, hd c hc rfl]

omit mono in
theorem Reindexed.mem_of_entry_ne (h : Reindexed S g r r') (h' : Reindexed S g s s') {c : Nat}
    (hne : r.entry c ≠ s.entry c) : S c := by
  by_cases hr : r.entry c = 0
  · exact h'.support c fun hs => hne (by rw [hr, hs])
  · exact h.support c hr

theorem Reindexed.rank_lt (h : Reindexed S g r r') (h' : Reindexed S g s s')
    (hr : isKnown r = true) (hs : isKnown s = true) (hlt : rank r < rank s) :
    rank r' < rank s' := by
  have hSr := h.support _ (lastColumn_spec hr).1
  have hSs := h'.support _ (lastColumn_spec hs).1
  rw [rank_lt_iff] at hlt ⊢
  rw [h.lastColumn_eq mono hr, h'.lastColumn_eq mono hs]
  rcases hlt with hlt | ⟨heq, c, hbelow, hc⟩
  · exact .inl (mono _ _ hSr hSs hlt)
  · have hS : S c := h.mem_of_entry_ne h' (by omega)
    refine .inr ⟨congrArg g heq, g c, fun d hd => ?_, by rwa [h.entry c hS, h'.entry c hS]⟩
    refine h.entry_congr h' ?_
    rintro b hb rfl
    refine hbelow b ?_
    rcases Nat.lt_trichotomy b c with hbc | rfl | hbc
    · exact hbc
    · omega
    · exact absurd (mono c b hS hb hbc) (by omega)

theorem Reindexed.rank_le (h : Reindexed S g r r') (h' : Reindexed S g s s')
    (hr : isKnown r = true) (hs : isKnown s = true) (hle : rank r ≤ rank s) :
    rank r' ≤ rank s' := by
  rcases lt_or_eq_of_le hle with hlt | heq
  · exact le_of_lt (h.rank_lt mono h' hr hs hlt)
  · exact le_of_eq (rank_eq_iff.2 fun d => h.entry_congr h' fun c _ _ => rank_eq_iff.1 heq c)

end Reindex

section Order

variable {r s : Row} {i j rows columns : Nat}

theorem order_known (hr : isKnown r = true) (hs : isKnown s = true) (hrc : r.length = columns)
    (hsc : s.length = columns) : order r s i j rows columns =
      if lastColumn r = lastColumn s then Row.order r s
      else compare (lastColumn r) (lastColumn s) := by
  have htr : r.take columns = r := List.take_of_length_le (by omega)
  have hts : s.take columns = s := List.take_of_length_le (by omega)
  simp only [order, orderKey, hr, hs, htr, hts, if_true, Bool.not_true, Bool.and_self,
    Bool.false_eq_true, if_false]
  rfl

theorem order_eq_lt_iff (hr : isKnown r = true) (hs : isKnown s = true) (hrc : r.length = columns)
    (hsc : s.length = columns) : order r s i j rows columns = .lt ↔ rank r < rank s := by
  rw [order_known hr hs hrc hsc, rank_lt_iff]
  split
  · rename_i h
    rw [Row.order_eq_lt (by omega)]
    simp [h]
  · rename_i h
    rw [Nat.compare_eq_lt]
    simp [h]

theorem order_eq_eq_iff (hr : isKnown r = true) (hs : isKnown s = true) (hrc : r.length = columns)
    (hsc : s.length = columns) : order r s i j rows columns = .eq ↔ r = s := by
  rw [order_known hr hs hrc hsc]
  split
  · exact Row.order_eq_eq
  · rename_i h
    rw [Nat.compare_eq_eq]
    constructor
    · intro h'
      exact absurd h' h
    · rintro rfl
      exact absurd rfl h

theorem order_eq_gt_iff (hr : isKnown r = true) (hs : isKnown s = true) (hrc : r.length = columns)
    (hsc : s.length = columns) : order r s i j rows columns = .gt ↔ rank s < rank r := by
  have hlt : order r s i j rows columns = .lt ↔ _ := order_eq_lt_iff hr hs hrc hsc
  have heq : order r s i j rows columns = .eq ↔ _ := order_eq_eq_iff hr hs hrc hsc
  rcases lt_trichotomy (rank r) (rank s) with h | h | h
  · rw [hlt.2 h]
    simp [not_lt_of_gt h]
  · have hrs := eq_of_rank_eq (by omega) h
    rw [heq.2 hrs, hrs]
    simp
  · have hne : r ≠ s := by
      rintro rfl
      exact lt_irrefl _ h
    constructor
    · exact fun _ => h
    · intro _
      cases ho : order r s i j rows columns with
      | lt => exact absurd (hlt.1 ho) (not_lt_of_gt h)
      | eq => exact absurd (heq.1 ho) hne
      | gt => rfl

end Order

end Division

structure Canonical (w : Nat) (m : List Row) : Prop where
  triangular : Triangular w m.length m
  sorted : m.Pairwise fun r s => Division.rank r < Division.rank s

namespace Canonical

variable {w : Nat} {m m' : List Row}

theorem rank_lt (h : Canonical w m) {i j : Nat} {r s : Row} (hr : m[i]? = some r)
    (hs : m[j]? = some s) (hij : i < j) : Division.rank r < Division.rank s := by
  obtain ⟨hi, rfl⟩ := List.getElem?_eq_some_iff.1 hr
  obtain ⟨hj, rfl⟩ := List.getElem?_eq_some_iff.1 hs
  exact List.pairwise_iff_getElem.1 h.sorted i j hi hj hij

theorem rank_le (h : Canonical w m) {i j : Nat} {r s : Row} (hr : m[i]? = some r)
    (hs : m[j]? = some s) (hij : i ≤ j) : Division.rank r ≤ Division.rank s := by
  rcases Nat.lt_or_eq_of_le hij with hlt | rfl
  · exact le_of_lt (h.rank_lt hr hs hlt)
  · rw [hr, Option.some.injEq] at hs
    rw [hs]

theorem eq_of_rank_le (h : Canonical w m) {i j : Nat} {r s : Row} (hr : m[i]? = some r)
    (hs : m[j]? = some s) (hij : i ≤ j) (hle : Division.rank s ≤ Division.rank r) : i = j := by
  by_contra hne
  exact not_lt_of_ge hle (h.rank_lt hr hs (by omega))

theorem nodup (h : Canonical w m) : m.Nodup := by
  refine h.sorted.imp ?_
  rintro r s hlt rfl
  exact lt_irrefl _ hlt

end Canonical

section Unique

variable {ι : Type} {w : Nat} {m m' : List Row} {a : ι → List Row} {e e' : ι → List Nat}

/-- Two embeddings that agree on the first `k` divisions send a division that refers only to these
to rows with the same entries. -/
theorem Embeds.entry_eq_of_agree {a : List Row} {e e' : List Nat}
    (h : Embeds w m.length a m e) (h' : Embeds w m'.length a m' e') (ha : ∀ r ∈ a, w ≤ r.length)
    (ht : Triangular w m.length m) {k : Nat}
    (agree : ∀ j < k, ∀ t : Nat, e[t]? = some j ↔ e'[t]? = some j) {i q : Nat} {r s : Row}
    (hk : e[i]? = some k) (hq : e'[i]? = some q) (hr : m[k]? = some r) (hs : m'[q]? = some s)
    (c : Nat) : r.entry c = s.entry c := by
  obtain ⟨x, hx⟩ : ∃ x, a[i]? = some x :=
    ⟨_, List.getElem?_eq_getElem (h.getElem?_lt hk)⟩
  rcases Nat.lt_or_ge c w with hc | hc
  · rw [h.entry_of_lt ha hx hk hr hc, h'.entry_of_lt ha hx hq hs hc]
  obtain ⟨j, rfl⟩ := Nat.exists_eq_add_of_le hc
  rcases Nat.lt_or_ge j k with hj | hj
  · by_cases hje : j ∈ e
    · obtain ⟨t, hte⟩ := List.mem_iff_getElem?.1 hje
      rw [h.entry_of_index ha (Nat.le_refl _) hx hk hr hte,
        h'.entry_of_index ha (Nat.le_refl _) hx hq hs ((agree j hj t).1 hte)]
    · have hje' : j ∉ e' := by
        intro hmem
        obtain ⟨t, hte⟩ := List.mem_iff_getElem?.1 hmem
        exact hje (List.mem_of_getElem? ((agree j hj t).2 hte))
      rw [h.entry_of_notMem ha hx hk hr hje, h'.entry_of_notMem ha hx hq hs hje']
  · rw [ht.zero_from k r hr _ (by omega)]
    by_cases hje' : j ∈ e'
    · obtain ⟨t, hte⟩ := List.mem_iff_getElem?.1 hje'
      obtain ⟨l, hl⟩ := h.exists_index (h'.getElem?_lt hte)
      have hlk : k ≤ l := by
        by_contra hlt
        rw [(agree l (by omega) t).1 hl, Option.some.injEq] at hte
        omega
      rw [h'.entry_of_index ha (Nat.le_refl _) hx hq hs hte,
        ← h.entry_of_index ha (Nat.le_refl _) hx hk hr hl, ht.zero_from k r hr _ (by omega)]
    · rw [h'.entry_of_notMem ha hx hq hs hje']

/-- Every division comes from one of the operands. -/
def Covers (m : List Row) (e : ι → List Nat) : Prop := ∀ k < m.length, ∃ s, k ∈ e s

variable (hm : Canonical w m) (hm' : Canonical w m') (ha : ∀ s, ∀ r ∈ a s, w ≤ r.length)
  (he : ∀ s, Embeds w m.length (a s) m (e s)) (he' : ∀ s, Embeds w m'.length (a s) m' (e' s))
  (hc : Covers m e) (hc' : Covers m' e')

include hm hm' ha he he' hc hc'

omit hc in
/-- Where two canonical lists agree up to `k`, a division at index `k` of one of them stands at
index `k` of the other one as well: nothing smaller is left. -/
theorem Canonical.index_eq_of_agree {k : Nat}
    (agree : ∀ j < k, ∀ (s : ι) (t : Nat), (e s)[t]? = some j ↔ (e' s)[t]? = some j) {s : ι} {t : Nat}
    (hk : (e s)[t]? = some k) : (e' s)[t]? = some k := by
  have later : ∀ {s : ι} {t q : Nat}, (e s)[t]? = some k → (e' s)[t]? = some q → k ≤ q := by
    intro s t q hk hq
    by_contra hlt
    rw [(agree q (by omega) s t).2 hq, Option.some.injEq] at hk
    omega
  obtain ⟨q, hq⟩ := (he' s).exists_index ((he s).getElem?_lt hk)
  have hkq := later hk hq
  have hkm := (he s).lt k (List.mem_of_getElem? hk)
  have hqm' := (he' s).lt q (List.mem_of_getElem? hq)
  obtain ⟨u, hu⟩ := hc' k (by omega)
  obtain ⟨v, hv⟩ := List.mem_iff_getElem?.1 hu
  obtain ⟨p, hp⟩ := (he u).exists_index ((he' u).getElem?_lt hv)
  have hkp : k ≤ p := by
    by_contra hlt
    rw [(agree p (by omega) u v).1 hp, Option.some.injEq] at hv
    omega
  have hpm := (he u).lt p (List.mem_of_getElem? hp)
  obtain ⟨r, hr⟩ : ∃ r, m[k]? = some r := ⟨_, List.getElem?_eq_getElem hkm⟩
  obtain ⟨r', hr'⟩ : ∃ r, m'[q]? = some r := ⟨_, List.getElem?_eq_getElem hqm'⟩
  obtain ⟨x, hx⟩ : ∃ r, m[p]? = some r := ⟨_, List.getElem?_eq_getElem hpm⟩
  obtain ⟨x', hx'⟩ : ∃ r, m'[k]? = some r := ⟨_, List.getElem?_eq_getElem (by omega)⟩
  have hrr' : Division.rank r = Division.rank r' := Division.rank_eq_iff.2
    ((he s).entry_eq_of_agree (he' s) (ha s) hm.triangular (fun j hj t => agree j hj s t) hk hq
      hr hr')
  have hxx' : Division.rank x' = Division.rank x := Division.rank_eq_iff.2
    ((he' u).entry_eq_of_agree (he u) (ha u) hm'.triangular
      (fun j hj t => (agree j hj u t).symm) hv hp hx' hx)
  -- r ≤ x = x' ≤ r' = r, so nothing lies between
  have hle : Division.rank r' ≤ Division.rank x' := by
    rw [← hrr', hxx']
    exact hm.rank_le hr hx hkp
  rw [hq, ← hm'.eq_of_rank_le hx' hr' hkq hle]

theorem Canonical.indices_agree (k : Nat) :
    ∀ (s : ι) (t : Nat), (e s)[t]? = some k ↔ (e' s)[t]? = some k := by
  induction k using Nat.strong_induction_on with
  | _ k ih =>
    intro s t
    constructor
    · exact hm.index_eq_of_agree hm' ha he he' hc' ih
    · exact hm'.index_eq_of_agree hm ha he' he hc fun j hj s t => (ih j hj s t).symm

theorem Canonical.embedding_unique : e = e' := by
  funext s
  apply List.ext_getElem?
  intro t
  apply Option.ext
  intro k
  exact hm.indices_agree hm' ha he he' hc hc' k s t

theorem Canonical.length_unique : m.length = m'.length := by
  obtain rfl := hm.embedding_unique hm' ha he he' hc hc'
  apply Nat.le_antisymm <;> by_contra hlt
  · obtain ⟨s, hs⟩ := hc m'.length (by omega)
    exact Nat.lt_irrefl _ ((he' s).lt _ hs)
  · obtain ⟨s, hs⟩ := hc' m.length (by omega)
    exact Nat.lt_irrefl _ ((he s).lt _ hs)

/-- A canonical list is determined by the divisions in it. -/
theorem Canonical.unique : m = m' := by
  have hlen := hm.length_unique hm' ha he he' hc hc'
  obtain rfl := hm.embedding_unique hm' ha he he' hc hc'
  apply List.ext_getElem?
  intro k
  rcases Nat.lt_or_ge k m.length with hk | hk
  · obtain ⟨s, hs⟩ := hc k hk
    obtain ⟨t, ht⟩ := List.mem_iff_getElem?.1 hs
    have hlt := (he s).getElem?_lt ht
    rw [(he s).row t _ k (List.getElem?_eq_getElem hlt) ht,
      (he' s).row t _ k (List.getElem?_eq_getElem hlt) ht, hlen]
  · rw [List.getElem?_eq_none hk, List.getElem?_eq_none (by omega)]

end Unique

end Quasiaffine
