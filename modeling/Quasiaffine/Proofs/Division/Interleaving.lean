import Quasiaffine.Proofs.Division.Marking

/-!
The run of a merge. It takes the next divisions of both operands one after another, each written
over the divisions merged so far. Both operands are embedded in what has been merged. Operands in
canonical order leave it in canonical order, strictly or with ties, as far as the comparisons tell
which of the next divisions comes first.
-/

set_option autoImplicit false

namespace Quasiaffine

namespace Triangular

variable {w n : Nat} {a b : List Row} {r : Row}

theorem of_append (h : Triangular w n (a ++ b)) : Triangular w n a := by
  refine ⟨fun r hr => h.length_row r (List.mem_append_left _ hr), fun k r hr => ?_⟩
  refine h.zero_from k r ?_
  rw [List.getElem?_append_left (List.getElem?_eq_some_iff.1 hr).1, hr]

theorem entry_of_cons (h : Triangular w n (a ++ r :: b)) : r.entry (w + a.length) = 0 := by
  refine h.zero_from a.length r ?_ _ (Nat.le_refl _)
  rw [List.getElem?_append_right (Nat.le_refl _), Nat.sub_self, List.getElem?_cons_zero]

theorem le_length_of_cons (h : Triangular w n (a ++ r :: b)) : w ≤ r.length :=
  h.le_length (List.mem_append_right _ List.mem_cons_self)

end Triangular

theorem Division.eq_of_order_eq {r s : Row} {i rows columns : Nat} (hr : r.length = columns)
    (hs : s.length = columns) (h : order r s i (i + 1) rows columns = .eq) :
    r = s ∧ isKnown r = true := by
  rw [order] at h
  split at h
  · rw [Nat.compare_eq_eq] at h
    omega
  · rename_i hu
    dsimp only at h
    split at h
    · rw [Row.order_eq_eq, List.take_of_length_le (by omega), List.take_of_length_le (by omega)]
        at h
      subst h
      exact ⟨rfl, by simpa using hu⟩
    · rw [Nat.compare_eq_eq] at h
      omega

/-- What holds while divisions are merged, when those of `a` and `b` have been taken. -/
structure Merging (w n : Nat) (a b : List Row) (m : MergedRows) : Prop where
  triangular : Triangular w n m.rows
  left : Embeds w n a m.rows m.left
  right : Embeds w n b m.rows m.right
  left_increasing : m.left.Pairwise (· < ·)
  right_increasing : m.right.Pairwise (· < ·)
  covers : ∀ k < m.rows.length, k ∈ m.left ∨ k ∈ m.right
  shared : ∀ k ∈ m.left, k ∈ m.right → ∀ r : Row, m.rows[k]? = some r →
    Division.isKnown r = true
  count_le : m.rows.length ≤ a.length + b.length

namespace Merging

variable {w n p q : Nat} {a b as bs : List Row} {r s : Row} {m : MergedRows}

theorem empty (w n : Nat) : Merging w n [] [] ⟨[], [], []⟩ :=
  ⟨.nil w n, .nil w n [], .nil w n [], .nil, .nil, by simp, by simp, by simp⟩

theorem symm (h : Merging w n a b m) : Merging w n b a ⟨m.rows, m.right, m.left⟩ :=
  ⟨h.triangular, h.right, h.left, h.right_increasing, h.left_increasing,
    fun k hk => (h.covers k hk).symm, fun k hr hl => h.shared k hl hr,
    Nat.add_comm a.length _ ▸ h.count_le⟩

/-- The next row, written over the divisions merged so far, refers only to these. -/
theorem expand_zero_from {e : List Nat} (h : Embeds w n a m.rows e) (hr : w ≤ r.length) :
    ∀ c, w + m.rows.length ≤ c → (r.expand w e n).entry c = 0 := by
  intro c hc
  obtain ⟨k, rfl⟩ := Nat.exists_eq_add_of_le (Nat.le_trans (Nat.le_add_right _ _) hc)
  refine Row.entry_expand_of_notMem hr fun hk => ?_
  have := h.lt k hk
  omega

theorem pairwise_concat {e : List Nat} {k : Nat} (he : e.Pairwise (· < ·)) (hk : ∀ j ∈ e, j < k) :
    (e ++ [k]).Pairwise (· < ·) := by
  refine List.pairwise_append.2 ⟨he, List.pairwise_singleton _ _, fun j hj l hl => ?_⟩
  rw [List.mem_singleton.1 hl]
  exact hk j hj

theorem room (h : Merging w n a b m) (hn : (a ++ as).length + (b ++ bs).length ≤ n)
    (hne : as ≠ [] ∨ bs ≠ []) : m.rows.length < n := by
  have hcount := h.count_le
  rw [List.length_append, List.length_append] at hn
  rcases hne with hne | hne
  · have := List.length_pos_iff.2 hne
    omega
  · have := List.length_pos_iff.2 hne
    omega

theorem addLeft (h : Merging w n a b m) (hm : m.rows.length < n)
    (ha : Triangular w p (a ++ r :: as)) :
    Merging w n (a ++ [r]) b (m.addLeft (r.expand w m.left n)) where
  triangular := h.triangular.concat (Row.length_expand ha.le_length_of_cons)
    (expand_zero_from h.left ha.le_length_of_cons)
  left := h.left.concat hm ha.of_append ha.le_length_of_cons ha.entry_of_cons
  right := h.right.append_right _
  left_increasing := pairwise_concat h.left_increasing h.left.lt
  right_increasing := h.right_increasing
  covers := by
    intro k hk
    simp only [MergedRows.addLeft, List.length_append, List.length_singleton] at hk
    rcases Nat.lt_or_eq_of_le (Nat.le_of_lt_succ hk) with hlt | rfl
    · exact (h.covers k hlt).imp (List.mem_append_left _) id
    · exact .inl (List.mem_append_right _ (List.mem_singleton.2 rfl))
  shared := by
    intro k hl hrt s hs
    have hk := h.right.lt k hrt
    rw [MergedRows.addLeft, List.getElem?_append_left hk] at hs
    rcases List.mem_append.1 hl with hl | hl
    · exact h.shared k hl hrt s hs
    · rw [List.mem_singleton.1 hl] at hk
      exact absurd hk (Nat.lt_irrefl _)
  count_le := by
    have := h.count_le
    simp only [MergedRows.addLeft, List.length_append, List.length_singleton]
    omega

theorem addRight (h : Merging w n a b m) (hm : m.rows.length < n)
    (hb : Triangular w q (b ++ s :: bs)) :
    Merging w n a (b ++ [s]) (m.addRight (s.expand w m.right n)) :=
  (h.symm.addLeft hm hb).symm

theorem addBoth (h : Merging w n a b m) (hm : m.rows.length < n)
    (ha : Triangular w p (a ++ r :: as)) (hb : Triangular w q (b ++ s :: bs))
    (heq : r.expand w m.left n = s.expand w m.right n)
    (hk : Division.isKnown (r.expand w m.left n) = true) :
    Merging w n (a ++ [r]) (b ++ [s]) (m.addBoth (r.expand w m.left n)) where
  triangular := h.triangular.concat (Row.length_expand ha.le_length_of_cons)
    (expand_zero_from h.left ha.le_length_of_cons)
  left := h.left.concat hm ha.of_append ha.le_length_of_cons ha.entry_of_cons
  right := by
    rw [heq]
    exact h.right.concat hm hb.of_append hb.le_length_of_cons hb.entry_of_cons
  left_increasing := pairwise_concat h.left_increasing h.left.lt
  right_increasing := pairwise_concat h.right_increasing h.right.lt
  covers := by
    intro k hk
    simp only [MergedRows.addBoth, List.length_append, List.length_singleton] at hk
    rcases Nat.lt_or_eq_of_le (Nat.le_of_lt_succ hk) with hlt | rfl
    · exact (h.covers k hlt).imp (List.mem_append_left _) (List.mem_append_left _)
    · exact .inl (List.mem_append_right _ (List.mem_singleton.2 rfl))
  shared := by
    intro k hl hrt x hx
    rcases Nat.lt_trichotomy k m.rows.length with hlt | rfl | hgt
    · rw [MergedRows.addBoth, List.getElem?_append_left hlt] at hx
      have hne : k ∉ [m.count] := fun hmem => Nat.ne_of_lt hlt (List.mem_singleton.1 hmem)
      exact h.shared k ((List.mem_append.1 hl).resolve_right hne)
        ((List.mem_append.1 hrt).resolve_right hne) x hx
    · rw [MergedRows.addBoth, List.getElem?_append_right (Nat.le_refl _), Nat.sub_self,
        List.getElem?_cons_zero, Option.some.injEq] at hx
      exact hx ▸ hk
    · rw [MergedRows.addBoth, List.getElem?_eq_none (by simp; omega)] at hx
      cases hx
  count_le := by
    have := h.count_le
    simp only [MergedRows.addBoth, List.length_append, List.length_singleton]
    omega

/-- Merging keeps what holds of the divisions merged so far. -/
theorem extend {la lb : List Row} (ha : Triangular w p la) (hb : Triangular w q lb)
    (hn : la.length + lb.length ≤ n) (as bs : List Row) (m : MergedRows) {a b : List Row}
    (h : Merging w n a b m) (hla : a ++ as = la) (hlb : b ++ bs = lb) :
    Merging w n la lb (MergedRows.extend w n as bs m) := by
  induction as, bs, m using MergedRows.extend.induct w n generalizing a b with
  | case1 m =>
    rw [List.append_nil] at hla hlb
    subst hla hlb
    simpa [MergedRows.extend] using h
  | case2 m x as ih =>
    subst hla hlb
    have hm := h.room hn (.inl (List.cons_ne_nil _ _))
    rw [MergedRows.extend]
    exact ih (h.addLeft hm ha) (by simp) rfl
  | case3 m y bs ih =>
    subst hla hlb
    have hm := h.room hn (.inr (List.cons_ne_nil _ _))
    rw [MergedRows.extend]
    exact ih (h.addRight hm hb) rfl (by simp)
  | case4 m x as y bs x' y' =>
    rename_i ho ih
    subst hla hlb
    have hm := h.room hn (.inl (List.cons_ne_nil _ _))
    obtain ⟨heq, hk⟩ := Division.eq_of_order_eq (Row.length_expand ha.le_length_of_cons)
      (Row.length_expand hb.le_length_of_cons) ho
    rw [MergedRows.extend, ho]
    exact ih (h.addBoth hm ha hb heq hk) (by simp) (by simp)
  | case5 m x as y bs x' y' =>
    rename_i ho ih
    subst hla hlb
    have hm := h.room hn (.inl (List.cons_ne_nil _ _))
    rw [MergedRows.extend, ho]
    exact ih (h.addLeft hm ha) (by simp) rfl
  | case6 m x as y bs x' y' =>
    rename_i ho ih
    subst hla hlb
    have hm := h.room hn (.inl (List.cons_ne_nil _ _))
    rw [MergedRows.extend, ho]
    exact ih (h.addRight hm hb) rfl (by simp)

end Merging

def Row.newColumn (w : Nat) (e : List Nat) (c : Nat) : Nat :=
  if c < w then c else w + e.getD (c - w) 0

theorem Row.newColumn_mono {w : Nat} {e : List Nat} (he : e.Pairwise (· < ·)) :
    ∀ c d, c < w + e.length → d < w + e.length → c < d → newColumn w e c < newColumn w e d := by
  intro c d hc hd hcd
  unfold newColumn
  split_ifs with hcw hdw hdw
  · exact hcd
  · omega
  · omega
  · have hc' : c - w < e.length := by omega
    have hd' : d - w < e.length := by omega
    have hlt := List.pairwise_iff_getElem.1 he (c - w) (d - w) hc' hd' (by omega)
    simp only [List.getD_eq_getElem?_getD, List.getElem?_eq_getElem hc',
      List.getElem?_eq_getElem hd', Option.getD_some]
    omega

theorem Row.reindexed_expand {r : Row} {w n : Nat} {e : List Nat} (hw : w ≤ r.length)
    (hd : e.Nodup) (hlt : ∀ k ∈ e, k < n) (hz : ∀ c, w + e.length ≤ c → r.entry c = 0) :
    Division.Reindexed (· < w + e.length) (newColumn w e) r (r.expand w e n) := by
  refine ⟨fun c hc => ?_, fun c hc => ?_, fun d hne => ?_⟩
  · unfold newColumn
    split_ifs with hcw
    · exact entry_expand_of_lt hw hcw
    · have ht : e[c - w]? = some (e.getD (c - w) 0) := by
        simp [List.getD_eq_getElem?_getD, List.getElem?_eq_getElem (by omega : c - w < e.length)]
      rw [entry_expand hw hd ht (hlt _ (List.mem_of_getElem? ht)), Nat.add_sub_cancel' (by omega)]
  · by_contra hge
    exact hc (hz c (by omega))
  · rcases Nat.lt_or_ge d w with hdw | hdw
    · exact ⟨d, by omega, if_pos hdw⟩
    obtain ⟨k, rfl⟩ := Nat.exists_eq_add_of_le hdw
    have hk : k ∈ e := by
      by_contra hk
      exact hne (entry_expand_of_notMem hw hk)
    obtain ⟨t, ht⟩ := List.mem_iff_getElem?.1 hk
    have htl := (List.getElem?_eq_some_iff.1 ht).1
    refine ⟨w + t, by omega, ?_⟩
    rw [newColumn, if_neg (by omega), Nat.add_sub_cancel_left, List.getD_eq_getElem?_getD, ht,
      Option.getD_some]

namespace Division

/-- Row `r` comes in front of row `s` or, if `ties` holds, has the same rank. -/
def Precedes (ties : Prop) (r s : Row) : Prop := rank r < rank s ∨ ties ∧ rank r = rank s

variable {ties : Prop} {r s t : Row}

theorem precedes_false : Precedes False r s ↔ rank r < rank s := by simp [Precedes]

theorem precedes_true : Precedes True r s ↔ rank r ≤ rank s := by
  rw [Precedes, true_and, le_iff_lt_or_eq]

theorem Precedes.of_lt (h : rank r < rank s) : Precedes ties r s := .inl h

theorem Precedes.trans (h : Precedes ties r s) (h' : Precedes ties s t) : Precedes ties r t := by
  rcases h with h | ⟨-, h⟩
  · rcases h' with h' | ⟨-, h'⟩
    · exact .inl (lt_trans h h')
    · exact .inl (h' ▸ h)
  · rwa [Precedes, h]

theorem Reindexed.precedes {S : Nat → Prop} {g : Nat → Nat} {r' s' : Row}
    (mono : ∀ c d, S c → S d → c < d → g c < g d) (h : Reindexed S g r r') (h' : Reindexed S g s s')
    (hr : isKnown r = true) (hs : isKnown s = true) (hrs : Precedes ties r s) :
    Precedes ties r' s' :=
  hrs.imp (h.rank_lt mono h' hr hs) fun ⟨hties, heq⟩ =>
    ⟨hties, rank_eq_iff.2 fun _ => h.entry_congr h' fun c _ _ => rank_eq_iff.1 heq c⟩

/-- The comparison of the next divisions `r` and `s`, when `rows` have been merged, tells which of
them comes first. -/
structure Told (ties : Prop) (w n : Nat) (rows : List Row) (r s : Row) : Prop where
  lt : order r s rows.length (rows.length + 1) (1 + n) (w + n) = .lt → isKnown s = true →
    Precedes ties (mark w rows.length r) s
  gt : order r s rows.length (rows.length + 1) (1 + n) (w + n) = .gt → isKnown r = true →
    Precedes ties (mark w rows.length s) r

end Division

structure Ordered (ties : Prop) (w : Nat) (a : List Row) : Prop where
  triangular : Triangular w a.length a
  unknown : ∀ r ∈ a, Division.isKnown r = false → ∀ c, r.entry c = 0
  ordered : (Division.markAll w a).Pairwise (Division.Precedes ties)

structure Upcoming (ties : Prop) (w n : Nat) (a : List Row) (x : Row) (as rows : List Row)
    (e : List Nat) : Prop where
  pos : 0 < w
  operand : Ordered ties w (a ++ x :: as)
  embeds : Embeds w n a rows e
  increasing : e.Pairwise (· < ·)
  merged : Triangular w n rows
  room : rows.length < n

variable {ties : Prop} {w n : Nat}

namespace Upcoming

variable {a as rows : List Row} {x z : Row} {e : List Nat} (h : Upcoming ties w n a x as rows e)

include h

theorem le_length : w ≤ x.length := h.operand.triangular.le_length_of_cons

theorem length_expand : (x.expand w e n).length = w + n := Row.length_expand h.le_length

omit h in
theorem mem : x ∈ a ++ x :: as := List.mem_append_right _ List.mem_cons_self

theorem isKnown_expand : Division.isKnown (x.expand w e n) = Division.isKnown x :=
  Division.isKnown_expand h.le_length h.pos

theorem expand_eq_zero (hu : Division.isKnown x = false) :
    ∀ c, (x.expand w e n).entry c = 0 :=
  Row.expand_eq_zero h.le_length h.embeds.nodup
    (fun k hk => Nat.lt_trans (h.embeds.lt k hk) h.room) (h.operand.unknown x mem hu)

/-- All that has been merged comes in front of the next division. -/
theorem behind (hx : Division.isKnown x = true → ∀ r ∈ Division.markAll w rows,
    Division.Precedes ties r (x.expand w e n)) : ∀ r ∈ Division.markAll w rows,
    Division.Precedes ties r (Division.mark w rows.length (x.expand w e n)) := by
  intro m hm
  have hroom := h.room
  have hpos := h.pos
  cases hk : Division.isKnown x with
  | true =>
    rw [Division.mark_of_isKnown (h.isKnown_expand.trans hk)]
    exact hx hk m hm
  | false =>
    obtain ⟨k, r, hr, rfl⟩ := Division.exists_of_mem_markAll hm
    have hlt := (List.getElem?_eq_some_iff.1 hr).1
    have hlen := h.merged.length_row r (List.mem_of_getElem? hr)
    refine .of_lt (Division.rank_lt_of_lastColumn_lt ?_)
    rw [Division.lastColumn_mark (h.isKnown_expand.trans hk) (h.expand_eq_zero hk)
      (by rw [h.length_expand]; omega)]
    have := Division.lastColumn_mark_le hpos (by omega) (h.merged.zero_from k r hr)
    omega

/-- The division behind the next one comes behind it also after the next one has been merged. -/
theorem precedes (hz : z ∈ as.head?) (hk : Division.isKnown z = true) :
    Division.Precedes ties (Division.mark w rows.length (x.expand w e n))
      (z.expand w (e ++ [rows.length]) n) := by
  obtain ⟨as, rfl⟩ : ∃ tail, as = z :: tail := by
    cases as with
    | nil => simp at hz
    | cons y tail => exact ⟨tail, by simpa using hz⟩
  have hxa : (a ++ x :: z :: as)[a.length]? = some x := by simp
  have hza : (a ++ x :: z :: as)[a.length + 1]? = some z := by simp
  have ht := h.operand.triangular
  have hxl := ht.length_row x (List.mem_of_getElem? hxa)
  have hzl := ht.length_row z (List.mem_of_getElem? hza)
  rw [List.length_append, List.length_cons, List.length_cons] at hxl hzl
  have he : (e ++ [rows.length]).Pairwise (· < ·) := Merging.pairwise_concat h.increasing h.embeds.lt
  have hd : (e ++ [rows.length]).Nodup := he.imp Nat.ne_of_lt
  have hlt : ∀ k ∈ e ++ [rows.length], k < n := by
    intro k hk
    rcases List.mem_append.1 hk with hk | hk
    · exact Nat.lt_trans (h.embeds.lt k hk) h.room
    · rw [List.mem_singleton.1 hk]
      exact h.room
  have hlen : (e ++ [rows.length]).length = a.length + 1 := by simp [h.embeds.length]
  have hself : (e ++ [rows.length])[a.length]? = some rows.length := by
    simp [← h.embeds.length]
  have hsame : x.expand w (e ++ [rows.length]) n = x.expand w e n := by
    refine Row.expand_concat h.le_length h.embeds.nodup
      (fun k hk => Nat.lt_trans (h.embeds.lt k hk) h.room)
      (fun hk => Nat.lt_irrefl _ (h.embeds.lt _ hk)) h.room ?_
    rw [h.embeds.length]
    exact ht.entry_of_cons
  have hxz : Division.Precedes ties (Division.mark w a.length x) z := by
    rw [← Division.mark_of_isKnown (w := w) (k := a.length + 1) hk]
    exact Division.of_pairwise_markAll h.operand.ordered hxa hza (Nat.lt_succ_self _)
  rw [← hsame, Division.mark_expand h.pos (by omega) hd hlt hself]
  refine (Row.reindexed_expand (by simp; omega) hd hlt fun c hc => ?_).precedes
    (Row.newColumn_mono he) (Row.reindexed_expand (by omega) hd hlt fun c hc => ?_)
    (Division.isKnown_mark h.pos (by omega)) hk hxz
  · exact Division.entry_mark_eq_zero (ht.zero_from _ x hxa) (by omega)
  · exact ht.zero_from _ z hza c (by omega)

end Upcoming

/-- Wherever divisions of `a` and `b` are compared while both are merged, the comparison tells which
of them comes first. -/
def Decides (ties : Prop) (w n : Nat) (a b : List Row) : Prop :=
  ∀ ⦃a₁ a₂ b₁ b₂ rows : List Row⦄ ⦃x y : Row⦄ ⦃e f : List Nat⦄, a = a₁ ++ x :: a₂ →
    b = b₁ ++ y :: b₂ → Upcoming ties w n a₁ x a₂ rows e → Upcoming ties w n b₁ y b₂ rows f →
    Division.Told ties w n rows (x.expand w e n) (y.expand w f n)

/-- The comparison of divisions with a definition is that of their ranks. -/
theorem decides_of_known {a b : List Row} (ha : ∀ r ∈ a, Division.isKnown r = true)
    (hb : ∀ r ∈ b, Division.isKnown r = true) : Decides ties w n a b := by
  rintro a₁ a₂ b₁ b₂ rows x y e f rfl rfl hx hy
  have hxk := hx.isKnown_expand.trans (ha x Upcoming.mem)
  have hyk := hy.isKnown_expand.trans (hb y Upcoming.mem)
  refine ⟨fun h _ => ?_, fun h _ => ?_⟩
  · rw [Division.mark_of_isKnown hxk]
    exact .of_lt ((Division.order_eq_lt_iff hxk hyk hx.length_expand hy.length_expand).1 h)
  · rw [Division.mark_of_isKnown hyk]
    exact .of_lt ((Division.order_eq_gt_iff hxk hyk hx.length_expand hy.length_expand).1 h)

/-- The divisions merged so far are in canonical order. The next ones come behind them, which is
clear of those without a definition. -/
structure OrderedMerging (ties : Prop) (w n : Nat) (as bs : List Row) (m : MergedRows) : Prop where
  ordered : (Division.markAll w m.rows).Pairwise (Division.Precedes ties)
  left : ∀ x ∈ as.head?, Division.isKnown x = true → ∀ r ∈ Division.markAll w m.rows,
    Division.Precedes ties r (x.expand w m.left n)
  right : ∀ y ∈ bs.head?, Division.isKnown y = true → ∀ r ∈ Division.markAll w m.rows,
    Division.Precedes ties r (y.expand w m.right n)

theorem Merging.upcoming {a as b bs : List Row} {x : Row} {m : MergedRows} (h : Merging w n a b m)
    (hw : 0 < w) (ha : Ordered ties w (a ++ x :: as))
    (hn : (a ++ x :: as).length + (b ++ bs).length ≤ n) :
    Upcoming ties w n a x as m.rows m.left :=
  ⟨hw, ha, h.left, h.left_increasing, h.triangular, h.room hn (.inl (List.cons_ne_nil _ _))⟩

namespace OrderedMerging

variable {a b as bs : List Row} {m : MergedRows} {x y : Row}

theorem empty (ties : Prop) (w n : Nat) (as bs : List Row) :
    OrderedMerging ties w n as bs ⟨[], [], []⟩ :=
  ⟨.nil, by simp [Division.markAll], by simp [Division.markAll]⟩

theorem symm (h : OrderedMerging ties w n as bs m) :
    OrderedMerging ties w n bs as ⟨m.rows, m.right, m.left⟩ :=
  ⟨h.ordered, h.right, h.left⟩

theorem addLeft (h : OrderedMerging ties w n (x :: as) bs m)
    (hx : Upcoming ties w n a x as m.rows m.left)
    (hy : ∀ y ∈ bs.head?, Division.isKnown y = true →
      Division.Precedes ties (Division.mark w m.rows.length (x.expand w m.left n))
        (y.expand w m.right n)) :
    OrderedMerging ties w n as bs (m.addLeft (x.expand w m.left n)) where
  ordered := Division.pairwise_markAll_concat h.ordered (hx.behind (h.left x rfl))
  left := fun _ hz hk => Division.forall_mem_markAll_concat.2
    ⟨fun r hr => (hx.behind (h.left x rfl) r hr).trans (hx.precedes hz hk), hx.precedes hz hk⟩
  right := fun z hz hk => Division.forall_mem_markAll_concat.2 ⟨h.right z hz hk, hy z hz hk⟩

theorem addRight (h : OrderedMerging ties w n as (y :: bs) m)
    (hy : Upcoming ties w n b y bs m.rows m.right)
    (hx : ∀ x ∈ as.head?, Division.isKnown x = true →
      Division.Precedes ties (Division.mark w m.rows.length (y.expand w m.right n))
        (x.expand w m.left n)) :
    OrderedMerging ties w n as bs (m.addRight (y.expand w m.right n)) :=
  (h.symm.addLeft hy hx).symm

theorem addBoth (h : OrderedMerging ties w n (x :: as) (y :: bs) m)
    (hx : Upcoming ties w n a x as m.rows m.left) (hy : Upcoming ties w n b y bs m.rows m.right)
    (heq : x.expand w m.left n = y.expand w m.right n) :
    OrderedMerging ties w n as bs (m.addBoth (x.expand w m.left n)) where
  ordered := Division.pairwise_markAll_concat h.ordered (hx.behind (h.left x rfl))
  left := fun _ hz hk => Division.forall_mem_markAll_concat.2
    ⟨fun r hr => (hx.behind (h.left x rfl) r hr).trans (hx.precedes hz hk), hx.precedes hz hk⟩
  right := fun _ hz hk => Division.forall_mem_markAll_concat.2
    ⟨fun r hr => (hy.behind (h.right y rfl) r hr).trans (hy.precedes hz hk),
      heq ▸ hy.precedes hz hk⟩

/-- Merging keeps the canonical order if the comparisons tell which division comes first. -/
theorem extend {la lb : List Row} (hw : 0 < w) (ha : Ordered ties w la) (hb : Ordered ties w lb)
    (hd : Decides ties w n la lb) (hn : la.length + lb.length ≤ n) (as bs : List Row)
    (m : MergedRows) {a b : List Row} (h : Merging w n a b m)
    (hs : OrderedMerging ties w n as bs m) (hla : a ++ as = la) (hlb : b ++ bs = lb) :
    (Division.markAll w (MergedRows.extend w n as bs m).rows).Pairwise
      (Division.Precedes ties) := by
  induction as, bs, m using MergedRows.extend.induct w n generalizing a b with
  | case1 m => simpa [MergedRows.extend] using hs.ordered
  | case2 m x as ih =>
    subst hla hlb
    have hx := h.upcoming hw ha hn
    rw [MergedRows.extend]
    exact ih (h.addLeft hx.room ha.triangular) (hs.addLeft hx (by simp)) (by simp) rfl
  | case3 m y bs ih =>
    subst hla hlb
    have hy := h.symm.upcoming hw hb (Nat.add_comm _ _ ▸ hn)
    rw [MergedRows.extend]
    exact ih (h.addRight hy.room hb.triangular) (hs.addRight hy (by simp)) rfl (by simp)
  | case4 m x as y bs x' y' =>
    rename_i ho ih
    subst hla hlb
    have hx := h.upcoming hw ha hn
    have hy := h.symm.upcoming hw hb (Nat.add_comm _ _ ▸ hn)
    obtain ⟨heq, hk⟩ := Division.eq_of_order_eq hx.length_expand hy.length_expand ho
    rw [MergedRows.extend, ho]
    exact ih (h.addBoth hx.room ha.triangular hb.triangular heq hk) (hs.addBoth hx hy heq)
      (by simp) (by simp)
  | case5 m x as y bs x' y' =>
    rename_i ho ih
    subst hla hlb
    have hx := h.upcoming hw ha hn
    have hy := h.symm.upcoming hw hb (Nat.add_comm _ _ ▸ hn)
    have htold := hd rfl rfl hx hy
    rw [MergedRows.extend, ho]
    refine ih (h.addLeft hx.room ha.triangular) (hs.addLeft hx fun z hz hk => ?_) (by simp) rfl
    rw [List.head?_cons, Option.mem_some_iff] at hz
    subst hz
    exact htold.lt ho (hy.isKnown_expand.trans hk)
  | case6 m x as y bs x' y' =>
    rename_i ho ih
    subst hla hlb
    have hx := h.upcoming hw ha hn
    have hy := h.symm.upcoming hw hb (Nat.add_comm _ _ ▸ hn)
    have htold := hd rfl rfl hx hy
    rw [MergedRows.extend, ho]
    refine ih (h.addRight hy.room hb.triangular) (hs.addRight hy fun z hz hk => ?_) rfl (by simp)
    rw [List.head?_cons, Option.mem_some_iff] at hz
    subst hz
    exact htold.gt ho (hx.isKnown_expand.trans hk)

end OrderedMerging

theorem Matrix.ordered_mergeDivs {a b : Matrix} (hw : 0 < w)
    (hac : a.columns = w + a.rows.length) (ha : Ordered ties w a.rows) (hb : Ordered ties w b.rows)
    (hd : Decides ties w (a.height + b.height) a.rows b.rows) :
    (Division.markAll w (a.mergeDivs b).matrix.rows).Pairwise (Division.Precedes ties) := by
  have hwidth : a.columns - a.height = w := by
    rw [Matrix.height]
    omega
  unfold mergeDivs
  simp only [hwidth]
  have hempty := Merging.empty w (a.height + b.height)
  have hn : a.rows.length + b.rows.length ≤ a.height + b.height := Nat.le_refl _
  have h := hempty.extend ha.triangular hb.triangular hn a.rows b.rows _ rfl rfl
  have hordered := OrderedMerging.extend hw ha hb hd hn a.rows b.rows _ hempty
    (.empty ties w _ _ _) rfl rfl
  generalize MergedRows.extend w (a.height + b.height) a.rows b.rows ⟨[], [], []⟩ = m at *
  rw [MergedRows.count, Division.markAll_map_take hw (Nat.le_refl _), List.pairwise_map]
  have hz : ∀ t ∈ Division.markAll w m.rows, ∀ c, w + m.rows.length ≤ c → t.entry c = 0 := by
    intro t ht c hc
    obtain ⟨k, r, hr, rfl⟩ := Division.exists_of_mem_markAll ht
    have hk := (List.getElem?_eq_some_iff.1 hr).1
    exact Division.entry_mark_eq_zero (h.triangular.zero_from k r hr) (by omega)
  refine hordered.imp_of_mem fun {r s} hr hs hrs => ?_
  rwa [Division.Precedes, Division.rank_take (hz r hr), Division.rank_take (hz s hs)]

end Quasiaffine
