import Quasiaffine.Proofs.Row

/-!
Lists of divisions inside one another. A list of divisions is embedded in another one by new indices
for its divisions if each of its rows, carried over to these indices, is the row that stands there.
Merging embeds both operands and exchanging divisions embeds a list in its rearrangement.
-/

set_option autoImplicit false

namespace Quasiaffine

/-- Rows with `w` columns in front of those of `n` divisions, each zero from its own column on. -/
structure Triangular (w n : Nat) (m : List Row) : Prop where
  length_row : ∀ r ∈ m, r.length = w + n
  zero_from : ∀ (k : Nat) (r : Row), m[k]? = some r → ∀ c, w + k ≤ c → r.entry c = 0

/-- Division `i` of `a` stands at index `e[i]` of `m`, whose rows have columns for `n` divisions. -/
structure Embeds (w n : Nat) (a m : List Row) (e : List Nat) : Prop where
  length : e.length = a.length
  nodup : e.Nodup
  lt : ∀ k ∈ e, k < m.length
  row : ∀ (i : Nat) (r : Row) (k : Nat), a[i]? = some r → e[i]? = some k →
    m[k]? = some (r.expand w e n)

theorem Triangular.le_length {w n : Nat} {m : List Row} (h : Triangular w n m) {r : Row}
    (hr : r ∈ m) : w ≤ r.length := by
  rw [h.length_row r hr]
  omega

theorem Triangular.nil (w n : Nat) : Triangular w n [] := ⟨by simp, by simp⟩

theorem Triangular.concat {w n : Nat} {m : List Row} {r : Row} (h : Triangular w n m)
    (hr : r.length = w + n) (hz : ∀ c, w + m.length ≤ c → r.entry c = 0) :
    Triangular w n (m ++ [r]) := by
  refine ⟨?_, ?_⟩
  · simpa [or_imp, forall_and, hr] using h.length_row
  · intro k s hs c hc
    rcases Nat.lt_or_ge k m.length with hk | hk
    · rw [List.getElem?_append_left hk] at hs
      exact h.zero_from k s hs c hc
    · rw [List.getElem?_append_right hk, List.getElem?_singleton] at hs
      split at hs
      · obtain rfl := Option.some.inj hs
        exact hz c (by omega)
      · simp at hs

theorem Triangular.map_take {w n : Nat} {m : List Row} (h : Triangular w n m)
    (hn : m.length ≤ n) : Triangular w m.length (m.map (·.take (w + m.length))) := by
  refine ⟨?_, ?_⟩
  · intro r hr
    obtain ⟨s, hs, rfl⟩ := List.mem_map.1 hr
    simp [h.length_row s hs, hn]
  · intro k r hr c hc
    rw [List.getElem?_map, Option.map_eq_some_iff] at hr
    obtain ⟨s, hs, rfl⟩ := hr
    rw [Row.entry_take, h.zero_from k s hs c hc, ite_self]

theorem wellFormed_iff (ls : LocalSpace) :
    ls.WellFormed ↔ ls.divs.columns = 2 + ls.space.total + ls.divs.rows.length ∧
      Triangular (2 + ls.space.total) ls.divs.rows.length ls.divs.rows := by
  constructor
  · intro h
    refine ⟨h.columns, fun r hr => by rw [h.rectangular r hr, h.columns]; rfl, ?_⟩
    intro k r hr c hc
    have hk := h.ordered k
    rw [Row.isZero_drop_iff] at hk
    simpa [Matrix.row, List.getD_eq_getElem?_getD, hr] using hk c hc
  · rintro ⟨hc, ht⟩
    refine ⟨hc, fun r hr => by rw [ht.length_row r hr, hc], ?_⟩
    intro k
    rw [Row.isZero_drop_iff]
    intro c hkc
    cases hk : ls.divs.rows[k]? with
    | none => simp [Matrix.row, List.getD_eq_getElem?_getD, hk]
    | some r =>
      simpa [Matrix.row, List.getD_eq_getElem?_getD, hk] using ht.zero_from k r hk c hkc

theorem LocalSpace.wellFormed_of_forall_lt {ls : LocalSpace}
    (hc : ls.divs.columns = 2 + ls.space.total + ls.divs.height)
    (hw : ∀ r ∈ ls.divs.rows, r.length = ls.divs.columns)
    (ho : ∀ k < ls.divs.height,
      Row.isZero ((ls.divs.row k).drop (2 + ls.space.total + k)) = true) : ls.WellFormed := by
  refine ⟨hc, hw, fun k => ?_⟩
  rcases Nat.lt_or_ge k ls.divs.height with hlt | hge
  · exact ho k hlt
  · simp [Matrix.row, List.getD_eq_getElem?_getD, List.getElem?_eq_none hge, Row.isZero]

theorem LocalSpace.WellFormed.triangular {ls : LocalSpace} (h : ls.WellFormed) :
    Triangular (2 + ls.space.total) ls.divs.rows.length ls.divs.rows :=
  ((wellFormed_iff ls).1 h).2

namespace Embeds

variable {w n : Nat} {a b m p : List Row} {e f : List Nat}

theorem nil (w n : Nat) (m : List Row) : Embeds w n [] m [] :=
  ⟨rfl, List.nodup_nil, by simp, by simp⟩

theorem getElem?_lt (h : Embeds w n a m e) {i k : Nat} (hi : e[i]? = some k) : i < a.length := by
  rw [← h.length]
  exact (List.getElem?_eq_some_iff.1 hi).1

theorem exists_index (h : Embeds w n a m e) {i : Nat} (hi : i < a.length) :
    ∃ k, e[i]? = some k := by
  rw [← h.length] at hi
  exact ⟨e[i], List.getElem?_eq_getElem hi⟩

theorem refl (h : ∀ r ∈ m, r.length = w + m.length) :
    Embeds w m.length m m (List.range m.length) := by
  refine ⟨by simp, List.nodup_range, by simp, ?_⟩
  intro i r k hr hk
  obtain ⟨hi, rfl⟩ := List.getElem?_eq_some_iff.1 hk
  rw [List.getElem_range, Row.expand_range (h r (List.mem_of_getElem? hr)), hr]

theorem trans (h : Embeds w m.length a m e) (g : Embeds w n m p f) (ha : ∀ r ∈ a, w ≤ r.length)
    (hp : p.length ≤ n) : Embeds w n a p (e.map (f.getD · 0)) := by
  have hget : ∀ j ∈ e, f[j]? = some (f.getD j 0) := by
    intro j hj
    obtain ⟨k, hk⟩ := g.exists_index (h.lt j hj)
    simp [List.getD_eq_getElem?_getD, hk]
  refine ⟨by simp [h.length], ?_, ?_, ?_⟩
  · refine List.Nodup.map_on ?_ h.nodup
    intro i hi j hj hij
    have hi' := hget i hi
    rw [hij, ← hget j hj] at hi'
    exact (List.getElem?_inj (by rw [g.length]; exact h.lt i hi) g.nodup).1 hi'
  · intro k hk
    obtain ⟨j, hj, rfl⟩ := List.mem_map.1 hk
    exact g.lt _ (List.mem_of_getElem? (hget j hj))
  · intro i r k hr hk
    rw [List.getElem?_map, Option.map_eq_some_iff] at hk
    obtain ⟨j, hj, rfl⟩ := hk
    rw [g.row j _ _ (h.row i r j hr hj) (hget j (List.mem_of_getElem? hj)),
      Row.expand_expand (ha r (List.mem_of_getElem? hr)) h.nodup h.lt g.nodup g.length
        (fun k hk => Nat.lt_of_lt_of_le (g.lt k hk) hp)]

theorem append_right (h : Embeds w n a m e) (s : List Row) : Embeds w n a (m ++ s) e := by
  refine ⟨h.length, h.nodup, fun k hk => ?_, fun i r k hr hk => ?_⟩
  · rw [List.length_append]
    exact Nat.lt_add_right _ (h.lt k hk)
  · rw [List.getElem?_append_left (h.lt k (List.mem_of_getElem? hk)), h.row i r k hr hk]

theorem concat {q : Nat} {r : Row} (h : Embeds w n a m e) (hm : m.length < n)
    (ha : Triangular w q a) (hr : w ≤ r.length) (hz : r.entry (w + a.length) = 0) :
    Embeds w n (a ++ [r]) (m ++ [r.expand w e n]) (e ++ [m.length]) := by
  have hfresh : m.length ∉ e := fun hmem => Nat.lt_irrefl _ (h.lt _ hmem)
  have hlt : ∀ k ∈ e, k < n := fun k hk => Nat.lt_trans (h.lt k hk) hm
  have hsame : ∀ s : Row, w ≤ s.length → s.entry (w + a.length) = 0 →
      s.expand w (e ++ [m.length]) n = s.expand w e n := fun s hs hsz =>
    Row.expand_concat hs h.nodup hlt hfresh hm (by rw [h.length]; exact hsz)
  refine ⟨by simp [h.length], ?_, ?_, ?_⟩
  · exact List.nodup_append_comm.1 (List.nodup_cons.2 ⟨hfresh, h.nodup⟩)
  · intro k hk
    rcases List.mem_append.1 hk with hk | hk
    · have := h.lt k hk
      simp only [List.length_append, List.length_singleton]
      omega
    · simp only [List.mem_singleton] at hk
      simp [hk]
  · intro i s k hs hk
    rcases Nat.lt_or_ge i a.length with hi | hi
    · rw [List.getElem?_append_left hi] at hs
      rw [List.getElem?_append_left (by rw [h.length]; exact hi)] at hk
      have hmem := List.mem_of_getElem? hs
      rw [hsame s (ha.le_length hmem) (ha.zero_from i s hs _ (by omega)),
        List.getElem?_append_left (h.lt k (List.mem_of_getElem? hk)), h.row i s k hs hk]
    · rw [List.getElem?_append_right hi, List.getElem?_singleton] at hs
      rw [List.getElem?_append_right (by rw [h.length]; exact hi), List.getElem?_singleton,
        h.length] at hk
      split at hs
      · obtain rfl := Option.some.inj hs
        rw [if_pos ‹_›] at hk
        obtain rfl := Option.some.inj hk
        rw [hsame _ hr hz, List.getElem?_append_right (Nat.le_refl _)]
        simp
      · simp at hs

theorem map_take (h : Embeds w n a m e) (hn : m.length ≤ n) (ha : ∀ r ∈ a, w ≤ r.length) :
    Embeds w m.length a (m.map (·.take (w + m.length))) e := by
  refine ⟨h.length, h.nodup, by simpa using h.lt, fun i r k hr hk => ?_⟩
  rw [List.getElem?_map, h.row i r k hr hk, Option.map_some,
    Row.take_expand (ha r (List.mem_of_getElem? hr)) h.nodup h.lt hn]

theorem entry_of_lt (h : Embeds w n a m e) (ha : ∀ r ∈ a, w ≤ r.length) {i k : Nat} {r s : Row}
    (hr : a[i]? = some r) (hk : e[i]? = some k) (hs : m[k]? = some s) {c : Nat} (hc : c < w) :
    s.entry c = r.entry c := by
  rw [h.row i r k hr hk, Option.some.injEq] at hs
  rw [← hs, Row.entry_expand_of_lt (ha r (List.mem_of_getElem? hr)) hc]

theorem entry_of_index (h : Embeds w n a m e) (ha : ∀ r ∈ a, w ≤ r.length) (hn : m.length ≤ n)
    {i k : Nat} {r s : Row} (hr : a[i]? = some r) (hk : e[i]? = some k) (hs : m[k]? = some s)
    {t j : Nat} (ht : e[t]? = some j) : s.entry (w + j) = r.entry (w + t) := by
  rw [h.row i r k hr hk, Option.some.injEq] at hs
  have hj := h.lt j (List.mem_of_getElem? ht)
  rw [← hs, Row.entry_expand (ha r (List.mem_of_getElem? hr)) h.nodup ht (by omega)]

theorem entry_of_notMem (h : Embeds w n a m e) (ha : ∀ r ∈ a, w ≤ r.length) {i k : Nat}
    {r s : Row} (hr : a[i]? = some r) (hk : e[i]? = some k) (hs : m[k]? = some s) {j : Nat}
    (hj : j ∉ e) : s.entry (w + j) = 0 := by
  rw [h.row i r k hr hk, Option.some.injEq] at hs
  rw [← hs, Row.entry_expand_of_notMem (ha r (List.mem_of_getElem? hr)) hj]

end Embeds

end Quasiaffine
