import Quasiaffine.Proofs.Division.Merging
import Quasiaffine.Proofs.Dot

/-!
Values of divisions at a point. A division with a definition takes the value that it gives; one
without takes any. Values carry over to embedded divisions, and values for two lists at one point
come from values for their merge.
-/

set_option autoImplicit false

namespace Quasiaffine

theorem add_mul_fdiv_mul {g m c t : Int} (hg : 0 < g) (hm : 0 ≤ m) :
    (c + g * t).fdiv (g * m) = (c.fdiv g + t).fdiv m := by
  have hgm : 0 ≤ g * m := Int.mul_nonneg (Int.le_of_lt hg) hm
  rw [Int.fdiv_eq_ediv_of_nonneg _ hgm, Int.fdiv_eq_ediv_of_nonneg _ (Int.le_of_lt hg),
    Int.fdiv_eq_ediv_of_nonneg _ hm, ← Int.ediv_ediv_of_nonneg (Int.le_of_lt hg),
    Int.add_mul_ediv_left _ _ (Int.ne_of_gt hg)]

namespace Division

variable {r : Row}

theorem value_expand {u d : Row} {w n : Nat} {e : List Nat} (hu : u.length = w)
    (hw : w + 1 ≤ r.length) (hd : e.Nodup) (hlt : ∀ k ∈ e, k < n) :
    value (r.expand (w + 1) e n) (u ++ d) = value r (u ++ e.map d.entry) := by
  rw [value, value, Row.drop_one_expand hw, Row.dot_expand hu (by simp; omega) hd hlt,
    Row.entry_expand_of_lt hw (by omega)]

theorem normalize_spec (hm : 0 ≤ r.entry 0) :
    (∀ v, value (normalize r) (1 :: v) = value r (1 :: v)) ∧
      isKnown (normalize r) = isKnown r ∧ 0 ≤ (normalize r).entry 0 := by
  match r with
  | [] | [m] => exact ⟨fun _ => rfl, rfl, hm⟩
  | m :: c :: coeffs =>
    rw [normalize]
    generalize hgdef : (Row.gcd coeffs).gcd m.natAbs = g
    have hgm : (g : Int) ∣ m := Int.natCast_dvd.2 (hgdef ▸ Nat.gcd_dvd_right _ _)
    have hgc : ∀ x ∈ coeffs, (g : Int) ∣ x := fun x hx =>
      Int.dvd_trans (Int.natCast_dvd_natCast.2 (hgdef ▸ Nat.gcd_dvd_left _ _)) (Row.gcd_dvd hx)
    split_ifs with hg
    · exact ⟨fun _ => rfl, rfl, hm⟩
    · have hpos : (0 : Int) < g := by omega
      have hmul : (g : Int) * m.tdiv g = m := Int.mul_tdiv_cancel' hgm
      have hnonneg : 0 ≤ m.tdiv g := Int.tdiv_nonneg hm (Int.le_of_lt hpos)
      refine ⟨fun v => ?_, ?_, hnonneg⟩
      -- Coefficients and denominator are multiples of `g`; rounding the constant down loses less
      -- than one.
      · have hdot := Row.mul_dot_divide hgc v
        simp only [value, List.drop_one, List.tail_cons, Row.entry_cons_zero, Row.dot_cons,
          Int.mul_one]
        conv_rhs => rw [← hdot, ← hmul]
        exact (add_mul_fdiv_mul hpos hnonneg).symm
      · have hiff : m.tdiv g = 0 ↔ m = 0 := by
          constructor
          · intro h
            rw [← hmul, h, Int.mul_zero]
          · rintro rfl
            simp
        rw [Bool.eq_iff_iff, isKnown_iff, isKnown_iff]
        exact not_congr hiff

theorem entry_normalize_eq_zero {c : Nat} (hc : 2 ≤ c) (h : r.entry c = 0) :
    (normalize r).entry c = 0 := by
  match r, c with
  | [], _ | [_], _ => exact h
  | _ :: _ :: coeffs, c + 2 =>
    rw [normalize]
    split_ifs with hg
    · exact h
    · change (Row.divide _ coeffs).entry c = 0
      have hcoeff : Row.entry coeffs c = 0 := h
      rw [Row.divide, Row.entry_map (f := fun x => Int.tdiv x _) (Int.zero_tdiv _), hcoeff,
        Int.zero_tdiv]

theorem value_swap {n i j : Nat} {x d : Row} (hr : r.length = 2 + x.length + n) (hi : i < n)
    (hj : j < n) (hd : d.length = n) :
    value (r.swap (2 + x.length + i) (2 + x.length + j)) (1 :: (x ++ d.swap i j)) =
      value r (1 :: (x ++ d)) := by
  cases r with
  | nil => simp at hr; omega
  | cons m r =>
    have hl : r.length = x.length + 1 + n := by simp at hr; omega
    have hi' : 2 + x.length + i = x.length + i + 1 + 1 := by omega
    have hj' : 2 + x.length + j = x.length + j + 1 + 1 := by omega
    rw [hi', hj', Row.append_swap, ← Row.swap_cons 1, Row.swap_cons, value, value]
    simp only [List.drop_one, List.tail_cons, Row.entry_cons_zero]
    rw [Row.dot_swap (by omega) (by omega) (by simp; omega)]

end Division

namespace LocalSpace

/-- Values `d` of the divisions at the point `x`: those with a definition have the value that it
gives there. -/
structure Assigns (ls : LocalSpace) (x d : Row) : Prop where
  length : d.length = ls.divs.rows.length
  value : ∀ (k : Nat) (r : Row), ls.divs.rows[k]? = some r → Division.isKnown r = true →
    d.entry k = Division.value r (1 :: (x ++ d))

namespace Assigns

variable {a b m : LocalSpace} {x d : Row} {e f : List Nat}

theorem nil (space : Space) (x : Row) : (ofSpace space).Assigns x [] :=
  ⟨rfl, by simp [ofSpace, Matrix.empty]⟩

theorem value_embedded {n : Nat} (hx : x.length = a.space.total) {r : Row}
    (hr : 2 + a.space.total ≤ r.length) (hd : e.Nodup) (hlt : ∀ k ∈ e, k < n) :
    Division.value (r.expand (2 + a.space.total) e n) (1 :: (x ++ d)) =
      Division.value r (1 :: (x ++ e.map d.entry)) := by
  have hu : (1 :: x).length = 1 + a.space.total := by simp [hx]; omega
  have hw : 2 + a.space.total = 1 + a.space.total + 1 := by omega
  have := Division.value_expand (d := d) hu (by omega : 1 + a.space.total + 1 ≤ r.length) hd hlt
  rwa [← hw] at this

theorem embedded (h : m.Assigns x d) (hx : x.length = a.space.total)
    (ha : ∀ r ∈ a.divs.rows, 2 + a.space.total ≤ r.length)
    (he : Embeds (2 + a.space.total) m.divs.rows.length a.divs.rows m.divs.rows e) :
    a.Assigns x (e.map d.entry) := by
  refine ⟨by simp [he.length], fun i r hr hk => ?_⟩
  have hlen := ha r (List.mem_of_getElem? hr)
  obtain ⟨k, hki⟩ := he.exists_index (List.getElem?_eq_some_iff.1 hr).1
  have hrow := he.row i r k hr hki
  have hval := h.value k _ hrow (by rw [Division.isKnown_expand hlen (by omega), hk])
  rw [value_embedded hx hlen he.nodup he.lt] at hval
  rw [← hval]
  simp [Row.entry, List.getD_eq_getElem?_getD, hki]

end Assigns

section Amalgam

variable {a b m : LocalSpace} {x p q : Row} {e f : List Nat}

/-- The values of the divisions of a merge that come from values for the operands. -/
def amalgam (n : Nat) (e f : List Nat) (p q : Row) : Row :=
  (List.range n).map fun k => if k ∈ e then p.entry (e.idxOf k) else q.entry (f.idxOf k)

theorem entry_amalgam {n k : Nat} (hk : k < n) :
    (amalgam n e f p q).entry k = if k ∈ e then p.entry (e.idxOf k) else q.entry (f.idxOf k) := by
  simp [amalgam, Row.entry, List.getD_eq_getElem?_getD, List.getElem?_range hk]

theorem map_entry_amalgam {n : Nat} (hd : e.Nodup) (hlt : ∀ k ∈ e, k < n)
    (hp : p.length = e.length) : e.map (amalgam n e f p q).entry = p := by
  apply Row.ext_entry (by simp [hp])
  intro i
  rcases Nat.lt_or_ge i e.length with hi | hi
  · have hi' : e[i]? = some e[i] := List.getElem?_eq_getElem hi
    have hmem := List.getElem_mem hi
    rw [Row.entry, List.getD_eq_getElem?_getD, List.getElem?_map, hi', Option.map_some,
      Option.getD_some, entry_amalgam (hlt _ hmem), if_pos hmem, idxOf_eq hd hi']
  · rw [Row.entry_eq_zero (by simpa using hi), Row.entry_eq_zero (by omega)]

theorem exists_map_entry {n : Nat} (hd : e.Nodup) (hlt : ∀ k ∈ e, k < n)
    (hp : p.length = e.length) : ∃ d : Row, e.map d.entry = p :=
  ⟨_, map_entry_amalgam (q := []) (f := []) hd hlt hp⟩

theorem dot_congr_divs {w : Nat} {r : Row} {x p q : Row} (hw : w = 2 + x.length)
    (h : ∀ t, r.entry (w + t) ≠ 0 → p.entry t = q.entry t) :
    Row.dot (r.drop 1) (1 :: (x ++ p)) = Row.dot (r.drop 1) (1 :: (x ++ q)) := by
  refine Row.dot_congr fun c hc => ?_
  cases c with
  | zero => rfl
  | succ c =>
    rw [Row.entry_cons_succ, Row.entry_cons_succ, Row.entry_append, Row.entry_append]
    split
    · rfl
    · refine h _ ?_
      rwa [Row.entry_drop, show 1 + (c + 1) = w + (c - x.length) by omega] at hc

theorem value_congr_divs {w : Nat} {r : Row} {x p q : Row} (hw : w = 2 + x.length)
    (h : ∀ t, r.entry (w + t) ≠ 0 → p.entry t = q.entry t) :
    Division.value r (1 :: (x ++ p)) = Division.value r (1 :: (x ++ q)) := by
  rw [Division.value, Division.value, dot_congr_divs hw h]

theorem entry_amalgam_right (h : IsMerge (2 + a.space.total) a.divs.rows b.divs.rows m.divs.rows e f)
    (ht : a.space.total = b.space.total) (hx : x.length = a.space.total)
    (ha : Triangular (2 + a.space.total) a.divs.rows.length a.divs.rows)
    (hb : Triangular (2 + a.space.total) b.divs.rows.length b.divs.rows)
    (hp : a.Assigns x p) (hq : b.Assigns x q) (k : Nat) : ∀ j, f[j]? = some k →
      (amalgam m.divs.rows.length e f p q).entry k = q.entry j := by
  -- Values at a shared division are equal, because each is the floor of the same
  -- definition.
  induction k using Nat.strong_induction_on with
  | _ k ih =>
    intro j hj
    have hkf := List.mem_of_getElem? hj
    have hkn := h.right.lt k hkf
    by_cases hke : k ∈ e
    · obtain ⟨i, hi⟩ := List.mem_iff_getElem?.1 hke
      obtain ⟨r, hr⟩ : ∃ r, a.divs.rows[i]? = some r :=
        ⟨_, List.getElem?_eq_getElem (h.left.getElem?_lt hi)⟩
      obtain ⟨s, hs⟩ : ∃ s, b.divs.rows[j]? = some s :=
        ⟨_, List.getElem?_eq_getElem (h.right.getElem?_lt hj)⟩
      have hrl := ha.le_length (List.mem_of_getElem? hr)
      have hsl := hb.le_length (List.mem_of_getElem? hs)
      have hrow := h.left.row i r k hr hi
      have hsow := h.right.row j s k hs hj
      have hsame := Option.some.inj (hrow.symm.trans hsow)
      have hk := h.shared k hke hkf _ hrow
      have hks := hk
      rw [Division.isKnown_expand hrl (by omega)] at hk
      rw [hsame, Division.isKnown_expand hsl (by omega)] at hks
      have hpe := map_entry_amalgam (q := q) (f := f) h.left.nodup h.left.lt
        (hp.length.trans h.left.length.symm)
      have hpi := hp.value i r hr hk
      rw [← hpe, ← Assigns.value_embedded hx hrl h.left.nodup h.left.lt, hsame,
        Assigns.value_embedded hx hsl h.right.nodup h.right.lt, hpe] at hpi
      rw [entry_amalgam hkn, if_pos hke, idxOf_eq h.left.nodup hi, hpi, hq.value j s hs hks]
      -- The definition mentions only divisions before it, and these have smaller indices.
      refine value_congr_divs (w := 2 + a.space.total) (by omega) fun t hst => ?_
      have htj : t < j := by
        by_contra hge
        exact hst (hb.zero_from j s hs _ (by omega))
      obtain ⟨u, hu⟩ := h.right.exists_index (Nat.lt_trans htj (h.right.getElem?_lt hj))
      have hlt : u < k := by
        obtain ⟨htl, rfl⟩ := List.getElem?_eq_some_iff.1 hu
        obtain ⟨hjl, rfl⟩ := List.getElem?_eq_some_iff.1 hj
        exact List.pairwise_iff_getElem.1 h.right_increasing t j htl hjl htj
      rw [← ih u hlt t hu]
      simp [Row.entry, List.getD_eq_getElem?_getD, hu]
    · rw [entry_amalgam hkn, if_neg hke, idxOf_eq h.right.nodup hj]

theorem Assigns.operands {d : Row}
    (h : IsMerge (2 + a.space.total) a.divs.rows b.divs.rows m.divs.rows e f)
    (ht : a.space.total = b.space.total) (hx : x.length = a.space.total)
    (ha : Triangular (2 + a.space.total) a.divs.rows.length a.divs.rows)
    (hb : Triangular (2 + a.space.total) b.divs.rows.length b.divs.rows) (hd : m.Assigns x d) :
    a.Assigns x (e.map d.entry) ∧ b.Assigns x (f.map d.entry) := by
  have hright := h.right
  rw [ht] at hx hb hright
  exact ⟨hd.embedded (hx.trans ht.symm) (fun _ => ha.le_length) h.left,
    hd.embedded hx (fun _ => hb.le_length) hright⟩

/-- Values for both operands at one point come from values for the merge. -/
theorem Assigns.amalgam (h : IsMerge (2 + a.space.total) a.divs.rows b.divs.rows m.divs.rows e f)
    (ht : a.space.total = b.space.total) (hx : x.length = a.space.total)
    (ha : Triangular (2 + a.space.total) a.divs.rows.length a.divs.rows)
    (hb : Triangular (2 + a.space.total) b.divs.rows.length b.divs.rows)
    (hp : a.Assigns x p) (hq : b.Assigns x q) :
    ∃ d, m.Assigns x d ∧ e.map d.entry = p ∧ f.map d.entry = q := by
  have hright := entry_amalgam_right h ht hx ha hb hp hq
  generalize hd : LocalSpace.amalgam m.divs.rows.length e f p q = d at hright
  have hpe : e.map d.entry = p :=
    hd ▸ map_entry_amalgam h.left.nodup h.left.lt (hp.length.trans h.left.length.symm)
  have hqf : f.map d.entry = q := by
    apply Row.ext_entry (by simp [h.right.length, hq.length])
    intro j
    rcases Nat.lt_or_ge j f.length with hj | hj
    · have hj' : f[j]? = some f[j] := List.getElem?_eq_getElem hj
      rw [← hright _ j hj']
      simp [Row.entry, List.getD_eq_getElem?_getD, hj']
    · rw [Row.entry_eq_zero (by simpa using hj), Row.entry_eq_zero]
      rw [hq.length, ← h.right.length]
      exact hj
  refine ⟨d, ⟨by simp [← hd, LocalSpace.amalgam], fun k r hr hk => ?_⟩, hpe, hqf⟩
  rcases h.covers k (List.getElem?_eq_some_iff.1 hr).1 with hke | hkf
  · obtain ⟨i, hi⟩ := List.mem_iff_getElem?.1 hke
    obtain ⟨s, hs⟩ : ∃ s, a.divs.rows[i]? = some s :=
      ⟨_, List.getElem?_eq_getElem (h.left.getElem?_lt hi)⟩
    have hsl := ha.le_length (List.mem_of_getElem? hs)
    obtain rfl := Option.some.inj (hr.symm.trans (h.left.row i s k hs hi))
    rw [Division.isKnown_expand hsl (by omega)] at hk
    rw [value_embedded hx hsl h.left.nodup h.left.lt, hpe, ← hp.value i s hs hk, ← hpe]
    simp [Row.entry, List.getD_eq_getElem?_getD, hi]
  · obtain ⟨j, hj⟩ := List.mem_iff_getElem?.1 hkf
    obtain ⟨s, hs⟩ : ∃ s, b.divs.rows[j]? = some s :=
      ⟨_, List.getElem?_eq_getElem (h.right.getElem?_lt hj)⟩
    have hsl := hb.le_length (List.mem_of_getElem? hs)
    obtain rfl := Option.some.inj (hr.symm.trans (h.right.row j s k hs hj))
    rw [Division.isKnown_expand hsl (by omega)] at hk
    rw [value_embedded hx hsl h.right.nodup h.right.lt, hqf, ← hq.value j s hs hk, ← hqf]
    simp [Row.entry, List.getD_eq_getElem?_getD, hj]

end Amalgam

section Known

variable {ls : LocalSpace} {x : Row}

/-- The values of divisions after those of the dimensions, each computed from the ones before. -/
def floors (values : Row) (divs : List Row) : Row :=
  divs.foldl (fun values r => values ++ [Division.value r values]) values

theorem floors_append (values : Row) (as bs : List Row) :
    floors values (as ++ bs) = floors (floors values as) bs := List.foldl_append

theorem prefix_floors (values : Row) (divs : List Row) :
    ∃ d, floors values divs = values ++ d ∧ d.length = divs.length := by
  induction divs generalizing values with
  | nil => exact ⟨[], by simp [floors]⟩
  | cons r divs ih =>
    obtain ⟨d, hd, hl⟩ := ih (values ++ [Division.value r values])
    exact ⟨Division.value r values :: d, by simpa [floors] using hd, by simp [hl]⟩

/-- Each of the values computed one after the other comes from the row of its division. -/
theorem floors_spec (hwf : ls.WellFormed) (hx : x.length = ls.space.total) :
    ∃ d : Row, floors (1 :: x) ls.divs.rows = 1 :: (x ++ d) ∧ d.length = ls.divs.rows.length ∧
      ∀ (k : Nat) (r : Row), ls.divs.rows[k]? = some r →
        d.entry k = Division.value r (1 :: (x ++ d)) := by
  obtain ⟨d, hd, hl⟩ := prefix_floors (1 :: x) ls.divs.rows
  refine ⟨d, hd, hl, fun k r hr => ?_⟩
  obtain ⟨hlt, hrk⟩ := List.getElem?_eq_some_iff.1 hr
  obtain ⟨p, hp, hpl⟩ := prefix_floors (1 :: x) (ls.divs.rows.take k)
  obtain ⟨q, hq, -⟩ := prefix_floors
    (floors (1 :: x) (ls.divs.rows.take k) ++ [Division.value r (1 :: (x ++ p))])
    (ls.divs.rows.drop (k + 1))
  have hsplit : ls.divs.rows = ls.divs.rows.take k ++ r :: ls.divs.rows.drop (k + 1) := by
    rw [← hrk, List.getElem_cons_drop, List.take_append_drop]
  have hdq : d = p ++ Division.value r (1 :: (x ++ p)) :: q := by
    have hrun := floors_append (1 :: x) (ls.divs.rows.take k) (r :: ls.divs.rows.drop (k + 1))
    rw [← hsplit, hd] at hrun
    have hstep : floors (floors (1 :: x) (ls.divs.rows.take k)) (r :: ls.divs.rows.drop (k + 1)) =
        floors (floors (1 :: x) (ls.divs.rows.take k) ++ [Division.value r (1 :: (x ++ p))])
          (ls.divs.rows.drop (k + 1)) := by
      rw [hp]
      rfl
    rw [hstep, hq, hp] at hrun
    simpa using hrun
  have hpk : p.length = k := by rw [hpl, List.length_take]; omega
  rw [hdq, ← hpk, ← Nat.add_zero p.length, Row.entry_append_right, Row.entry_cons_zero]
  refine value_congr_divs (w := 2 + ls.space.total) (by omega) fun t ht => ?_
  have htk : t < k := by
    by_contra hge
    exact ht (hwf.triangular.zero_from k r hr _ (by omega))
  rw [Row.entry_append_left _ (by omega)]

theorem assigns_floors (hwf : ls.WellFormed) (hx : x.length = ls.space.total) :
    ∃ d, floors (1 :: x) ls.divs.rows = 1 :: (x ++ d) ∧ ls.Assigns x d :=
  (floors_spec hwf hx).imp fun _ h => ⟨h.1, h.2.1, fun k r hr _ => h.2.2 k r hr⟩

theorem exists_assigns (hwf : ls.WellFormed) (hx : x.length = ls.space.total) : ∃ d, ls.Assigns x d :=
  (assigns_floors hwf hx).imp fun _ h => h.2

/-- The values of all divisions are determined by those of the divisions without a definition. -/
theorem Assigns.unique_of_unknown {d d' : Row} (h : ls.Assigns x d) (h' : ls.Assigns x d')
    (hwf : ls.WellFormed) (hx : x.length = ls.space.total)
    (hu : ∀ (k : Nat) (r : Row), ls.divs.rows[k]? = some r → Division.isKnown r = false →
      d.entry k = d'.entry k) : d = d' := by
  apply Row.ext_entry (h.length.trans h'.length.symm)
  intro k
  induction k using Nat.strong_induction_on with
  | _ k ih =>
    cases hr : ls.divs.rows[k]? with
    | none =>
      have hlen := List.getElem?_eq_none_iff.1 hr
      rw [Row.entry_eq_zero (h.length ▸ hlen), Row.entry_eq_zero (h'.length ▸ hlen)]
    | some r =>
      cases hknown : Division.isKnown r with
      | false => exact hu k r hr hknown
      | true =>
        rw [h.value k r hr hknown, h'.value k r hr hknown]
        refine value_congr_divs (w := 2 + ls.space.total) (by omega) fun t ht => ih t ?_
        by_contra hge
        exact ht (hwf.triangular.zero_from k r hr _ (by omega))

theorem Assigns.unique {d d' : Row} (h : ls.Assigns x d) (h' : ls.Assigns x d')
    (hwf : ls.WellFormed) (hk : ls.allKnown = true) (hx : x.length = ls.space.total) : d = d' := by
  refine h.unique_of_unknown h' hwf hx fun k r hr hu => ?_
  rw [List.all_eq_true.1 hk r (List.mem_of_getElem? hr)] at hu
  cases hu

end Known

section Swap

variable {ls : LocalSpace} {x d : Row} {i j : Nat}

theorem assigns_swapDiv_iff (hx : x.length = ls.space.total)
    (hw : ∀ r ∈ ls.divs.rows, r.length = 2 + ls.space.total + ls.divs.rows.length)
    (hi : i < ls.divs.rows.length) (hj : j < ls.divs.rows.length)
    (hd : d.length = ls.divs.rows.length) :
    (ls.swapDiv i j).Assigns x (d.swap i j) ↔ ls.Assigns x d := by
  by_cases hij : i = j
  · subst hij
    rw [LocalSpace.swapDiv, if_pos rfl, Row.swap_self]
  have hrow := getElem?_swapDiv hij hi hj
  have hentry := Row.entry_swap d (hd.symm ▸ hi) (hd.symm ▸ hj)
  have hstep : ∀ r ∈ ls.divs.rows,
      Division.isKnown (r.swap (2 + ls.space.total + i) (2 + ls.space.total + j)) =
        Division.isKnown r ∧
      Division.value (r.swap (2 + ls.space.total + i) (2 + ls.space.total + j))
        (1 :: (x ++ d.swap i j)) = Division.value r (1 :: (x ++ d)) := by
    intro r hr
    have hlen := hw r hr
    refine ⟨?_, by rw [← hx, Division.value_swap (by omega) hi hj hd]⟩
    rw [Division.isKnown, Division.isKnown, Row.entry_swap _ (by omega) (by omega),
      Equiv.swap_apply_of_ne_of_ne (by omega) (by omega)]
  constructor
  · rintro ⟨-, hval⟩
    refine ⟨hd, fun k r hr hk => ?_⟩
    obtain ⟨hknown, hvalue⟩ := hstep r (List.mem_of_getElem? hr)
    rw [← hvalue, ← hval (Equiv.swap i j k) _ (by rw [hrow, Equiv.swap_apply_self, hr]; rfl)
      (hknown.trans hk), hentry, Equiv.swap_apply_self]
  · rintro ⟨-, hval⟩
    refine ⟨by rw [Row.length_swap, hd, length_rows_swapDiv], fun k r hr hk => ?_⟩
    rw [hrow, Option.map_eq_some_iff] at hr
    obtain ⟨s, hs, rfl⟩ := hr
    obtain ⟨hknown, hvalue⟩ := hstep s (List.mem_of_getElem? hs)
    rw [hvalue, hentry, hval _ s hs (hknown.symm.trans hk)]

end Swap

end LocalSpace

end Quasiaffine
