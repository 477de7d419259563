import Quasiaffine.Proofs.BasicRelation.Definitions

/-!
One pass recovers all definitions. The bounds that are added for a division have their last entry in
its own column, so they say nothing about any other division: which divisions get a definition is
settled by the constraints that are there at the start.
-/

set_option autoImplicit false

namespace Quasiaffine.BasicRelation

variable {b : BasicRelation} {c lower upper : Constraint} {i k pos : Nat} {row : Row}

section Bounds

theorem boundsLast_unique {pos' : Nat} (h : boundsLast pos c = true)
    (h' : boundsLast pos' c = true) : pos = pos' := by
  obtain ⟨hne, hz⟩ := boundsLast_iff.1 h
  obtain ⟨hne', hz'⟩ := boundsLast_iff.1 h'
  by_contra hpos
  rcases Nat.lt_or_gt_of_ne hpos with hlt | hgt
  · exact hne' (hz pos' hlt)
  · exact hne (hz' pos hgt)

theorem boundsLast_divBounds (h : b.WellFormed) (hb : b.divBounds? k = some (lower, upper)) :
    boundsLast (1 + b.space.total + k) lower = true ∧
      boundsLast (1 + b.space.total + k) upper = true := by
  obtain ⟨r, hr, hknown, rfl, rfl⟩ := divBounds?_eq_some_iff.1 hb
  rw [Division.isKnown_iff] at hknown
  have hlen := h.divisions.triangular.length_row r (List.mem_of_getElem? hr)
  have hk := (List.getElem?_eq_some_iff.1 hr).1
  have htotal : b.ls.space.total = b.space.total := rfl
  have hself : (b.lowerBound r k).entry (1 + b.space.total + k) = -r.entry 0 := by
    rw [lowerBound, Row.entry_set, if_pos ⟨rfl, by rw [List.length_drop]; omega⟩]
  have hlater : ∀ c, 1 + b.space.total + k + 1 ≤ c → (b.lowerBound r k).entry c = 0 := by
    intro c hc
    rw [lowerBound, Row.entry_set, if_neg (by omega), Row.entry_drop]
    exact h.divisions.triangular.zero_from k r hr _ (by omega)
  have hneg : ∀ (x : Int) (c : Nat), 0 < c →
      Row.entry ((b.lowerBound r k).neg.set 0 x) c = -(b.lowerBound r k).entry c := by
    intro x c hc
    rw [Row.entry_set, if_neg (by omega)]
    exact Row.entry_map (f := fun x => -x) rfl _ c
  refine ⟨boundsLast_iff.2 ⟨by rw [hself]; omega, hlater⟩, boundsLast_iff.2 ⟨?_, fun c hc => ?_⟩⟩
  · rw [hneg _ _ (by omega), hself]
    omega
  · rw [hneg _ _ (by omega), hlater c hc, Int.neg_zero]

theorem filter_insert (hc : boundsLast pos c = false) :
    (b.insert c).constraints.filter (boundsLast pos) =
      b.constraints.filter (boundsLast pos) := by
  unfold insert
  split
  · rfl
  · simp [hc]

/-- The bounds of a division say nothing about another one. -/
theorem filter_insertDivBounds (h : b.WellFormed) (hpos : pos ≠ 1 + b.space.total + k) :
    (b.insertDivBounds k).constraints.filter (boundsLast pos) =
      b.constraints.filter (boundsLast pos) := by
  have hother : ∀ c, boundsLast (1 + b.space.total + k) c = true → boundsLast pos c = false :=
    fun c hc => Bool.eq_false_iff.2 fun h => hpos (boundsLast_unique h hc)
  unfold insertDivBounds
  split
  · rename_i lower upper hb
    obtain ⟨hl, hu⟩ := boundsLast_divBounds h hb
    rw [filter_insert (hother upper hu), filter_insert (hother lower hl)]
  · rfl

theorem definition?_congr {cs cs' : List Constraint}
    (h : cs.filter (boundsLast pos) = cs'.filter (boundsLast pos)) :
    definition? cs pos = definition? cs' pos := by
  simp only [definition?, h]

end Bounds

def isRecoverable (b : BasicRelation) (k : Nat) : Bool :=
  !b.ls.isKnown k && (definition? b.constraints (1 + b.space.total + k)).isSome

theorem div?_defined_of_ne {j : Nat} (h : j ≠ k) :
    (b.defined k row).ls.div? j = b.ls.div? j := by
  rw [LocalSpace.div?, rows_defined, List.getElem?_set_ne (Ne.symm h), LocalSpace.div?]

theorem isKnown_defined (hk : k < b.ls.divCount) (hm : 0 < row.entry 0) :
    (b.defined k row).ls.isKnown k = true := by
  obtain ⟨-, hknown, -⟩ := Division.normalize_spec (Int.le_of_lt hm)
  rw [LocalSpace.isKnown, LocalSpace.div?, rows_defined, List.getElem?_set_self hk,
    Option.any_some, hknown, Division.isKnown_iff]
  omega

/-- The pass over the first `i` divisions of `b` has come to `r`. -/
structure Recovering (b : BasicRelation) (i : Nat) (r : Recovery) : Prop where
  wellFormed : r.relation.WellFormed
  space : r.relation.space = b.space
  count : r.relation.ls.divCount = b.ls.divCount
  holds : ∀ x d, x.length = b.space.total → (r.relation.Holds x d ↔ b.Holds x d)
  /-- Divisions with a definition, and those still to come, are as they were. -/
  kept : ∀ k, b.ls.isKnown k = true ∨ i ≤ k → r.relation.ls.div? k = b.ls.div? k
  known : ∀ k < i, r.relation.ls.isKnown k = (b.ls.isKnown k || b.isRecoverable k)
  /-- No constraint was added that says anything about a division without a definition. -/
  bounds : ∀ k, r.relation.ls.isKnown k = false →
    r.relation.constraints.filter (boundsLast (1 + b.space.total + k)) =
      b.constraints.filter (boundsLast (1 + b.space.total + k))
  found : r.found = (List.range i).countP b.isRecoverable

namespace Recovering

variable {r : Recovery}

theorem start (h : b.WellFormed) : Recovering b 0 ⟨b, 0⟩ :=
  ⟨h, rfl, rfl, fun _ _ _ => Iff.rfl, fun _ _ => rfl, fun _ hk => absurd hk (Nat.not_lt_zero _),
    fun _ _ => rfl, rfl⟩

theorem isKnown_eq (h : Recovering b i r) : r.relation.ls.isKnown i = b.ls.isKnown i := by
  rw [LocalSpace.isKnown, h.kept i (.inr (Nat.le_refl i)), LocalSpace.isKnown]

theorem definition?_eq (h : Recovering b i r) (hk : r.relation.ls.isKnown k = false) :
    definition? r.relation.constraints (1 + r.relation.space.total + k) =
      definition? b.constraints (1 + b.space.total + k) := by
  rw [h.space]
  exact definition?_congr (h.bounds k hk)

theorem not_isRecoverable (h : Recovering b i r) (hs : r.relation.ls.isKnown i = true ∨
    definition? r.relation.constraints (1 + r.relation.space.total + i) = none) :
    b.isRecoverable i = false := by
  rw [isRecoverable, ← h.isKnown_eq]
  cases hknown : r.relation.ls.isKnown i with
  | true => rfl
  | false =>
    rw [← h.definition?_eq hknown, hs.resolve_left (by rw [hknown]; decide)]
    rfl

theorem skip (h : Recovering b i r) (hs : b.isRecoverable i = false) :
    Recovering b (i + 1) r where
  wellFormed := h.wellFormed
  space := h.space
  count := h.count
  holds := h.holds
  kept := fun k hk => h.kept k (hk.imp_right Nat.le_of_succ_le)
  known := by
    intro k hk
    rcases Nat.lt_succ_iff_lt_or_eq.1 hk with hk | rfl
    · exact h.known k hk
    · rw [h.isKnown_eq, hs, Bool.or_false]
  bounds := h.bounds
  found := by
    rw [List.range_succ, List.countP_append, List.countP_singleton, hs, h.found]
    rfl

theorem define (h : Recovering b i r) (hi : i < b.ls.divCount)
    (hunknown : r.relation.ls.isKnown i = false)
    (hdef : definition? r.relation.constraints (1 + r.relation.space.total + i) = some row)
    (hwf : ((r.relation.defined i row).insertDivBounds i).WellFormed)
    (hholds : ∀ x d, x.length = r.relation.space.total →
      (((r.relation.defined i row).insertDivBounds i).Holds x d ↔ r.relation.Holds x d)) :
    Recovering b (i + 1) ⟨(r.relation.defined i row).insertDivBounds i, r.found + 1⟩ := by
  obtain ⟨hrow, -⟩ := definition?_spec (by omega) h.wellFormed.width hdef
  have hls := ls_insertDivBounds (r.relation.defined i row) i
  have hspace : (r.relation.defined i row).space = b.space := h.space
  have hdiv : ∀ k, k ≠ i →
      ((r.relation.defined i row).insertDivBounds i).ls.div? k = r.relation.ls.div? k :=
    fun k hk => by rw [hls, div?_defined_of_ne hk]
  have hself : ((r.relation.defined i row).insertDivBounds i).ls.isKnown i = true := by
    rw [hls, isKnown_defined (h.count ▸ hi) hrow.positive]
  have hrec : b.isRecoverable i = true := by
    rw [isRecoverable, ← h.isKnown_eq, hunknown, ← h.definition?_eq hunknown, hdef]
    rfl
  have hknown := h.isKnown_eq.symm.trans hunknown
  -- The new bounds end in the column of `i`, so later steps find the same constraints as `b` has
  -- for them.
  refine ⟨hwf, ?_, ?_, fun x d hx => ?_, fun k hk => ?_, fun k hk => ?_, fun k hk => ?_, ?_⟩
  · rw [BasicRelation.space, hls]
    exact hspace
  · rw [hls, LocalSpace.divCount, Matrix.height, rows_defined, List.length_set]
    exact h.count
  · rw [hholds x d (by rw [h.space, hx]), h.holds x d hx]
  · have hne : k ≠ i := by
      rintro rfl
      rcases hk with hk | hk
      · rw [hknown] at hk
        cases hk
      · omega
    rw [hdiv k hne, h.kept k (hk.imp_right Nat.le_of_succ_le)]
  · by_cases hki : k = i
    · rw [hki, hself, hrec, Bool.or_true]
    · rw [LocalSpace.isKnown, hdiv k hki]
      exact h.known k (by omega)
  · have hne : k ≠ i := by
      rintro rfl
      rw [hself] at hk
      cases hk
    rw [LocalSpace.isKnown, hdiv k hne] at hk
    rw [filter_insertDivBounds (h.wellFormed.defined hrow) (by rw [hspace]; omega)]
    exact h.bounds k hk
  · rw [List.range_succ, List.countP_append, List.countP_singleton, hrec, h.found]
    rfl

theorem step (h : Recovering b i r) (hi : i < b.ls.divCount) :
    ∃ r', recoverDiv r i = .ok r' ∧ Recovering b (i + 1) r' := by
  have hi' : i < r.relation.ls.divCount := h.count.symm ▸ hi
  obtain ⟨r', hok, hwf, -, -, -, -, hholds⟩ := recoverDiv_eq_ok h.wellFormed hi'
  refine ⟨r', hok, ?_⟩
  obtain ⟨hsettled, hsame⟩ | ⟨row, hunknown, hdef, hnew⟩ := recoverDiv_cases h.wellFormed hi'
  · obtain rfl := Except.ok.inj (hok.symm.trans hsame)
    exact h.skip (h.not_isRecoverable hsettled)
  · obtain rfl := Except.ok.inj (hok.symm.trans hnew)
    exact h.define hi hunknown hdef hwf hholds

/-- At the end of a pass there is nothing left to find. -/
theorem settled (h : Recovering b b.ls.divCount r) :
    ∀ k < r.relation.ls.divCount, r.relation.ls.isKnown k = true ∨
      definition? r.relation.constraints (1 + r.relation.space.total + k) = none := by
  intro k hk
  cases hknown : r.relation.ls.isKnown k with
  | true => exact .inl rfl
  | false =>
    refine .inr ?_
    have hrec := h.known k (h.count ▸ hk)
    rw [hknown, eq_comm, Bool.or_eq_false_iff, isRecoverable] at hrec
    rw [h.definition?_eq hknown]
    simpa [hrec.1] using hrec.2

end Recovering

theorem recovering_recoverDefinitions (h : b.WellFormed) :
    ∃ r, b.recoverDefinitions = .ok r ∧ Recovering b b.ls.divCount r :=
  foldlM_range_eq_ok (P := Recovering b) (.start h) fun _ hi _ hr => hr.step hi

/-- Recovering definitions succeeds, keeps the points and all definitions that are there, and finds
in one pass what the constraints give: a definition for each division that has none and whose last
bounds are an equality or close in on one value. At all points each has the value that its new
definition gives. -/
theorem recoverDefinitions_complete (b : BasicRelation) (h : b.WellFormed) :
    ∃ r, b.recoverDefinitions = .ok r ∧ r.relation.WellFormed ∧ r.relation.space = b.space ∧
      r.relation.ls.divCount = b.ls.divCount ∧
      (∀ x, x ∈ r.relation ↔ x ∈ b) ∧
      (∀ k, b.ls.isKnown k = true → r.relation.ls.div? k = b.ls.div? k) ∧
      (∀ k row, r.relation.ls.div? k = some row → Division.isKnown row = true →
        ∀ x d, x.length = b.space.total → b.Holds x d →
          d.entry k = Division.value row (1 :: (x ++ d))) ∧
      (∀ k < b.ls.divCount, r.relation.ls.isKnown k = (b.ls.isKnown k ||
        (definition? b.constraints (1 + b.space.total + k)).isSome)) ∧
      r.found = (List.range b.ls.divCount).countP
        (fun k => !b.ls.isKnown k && r.relation.ls.isKnown k) ∧
      r.relation.recoverDefinitions = .ok ⟨r.relation, 0⟩ := by
  obtain ⟨r, hok, hr⟩ := recovering_recoverDefinitions h
  have hknown : ∀ k < b.ls.divCount, r.relation.ls.isKnown k = (b.ls.isKnown k ||
      (definition? b.constraints (1 + b.space.total + k)).isSome) := by
    intro k hk
    rw [hr.known k hk, isRecoverable]
    cases b.ls.isKnown k <;> rfl
  refine ⟨r, hok, hr.wellFormed, hr.space, hr.count, fun x => ?_, fun k hk => hr.kept k (.inl hk),
    fun k row hrow hk x d hx hd => ?_, hknown, ?_, recoverDefinitions_of_settled hr.settled⟩
  · rw [mem_iff, mem_iff, hr.space]
    exact and_congr_right fun hx => exists_congr fun d => hr.holds x d hx
  · exact ((hr.holds x d hx).2 hd).assigns.value k row hrow hk
  · rw [hr.found]
    refine List.countP_congr fun k hk => ?_
    rw [hr.known k (List.mem_range.1 hk), isRecoverable]
    cases b.ls.isKnown k <;> simp

/-- From `x = 2 d` and `0 ≤ d - 3 e ≤ 2` come the definitions `d = ⌊x / 2⌋` and `e = ⌊d / 3⌋`. -/
theorem recoverDefinitions_complete_pair :
    let b : BasicRelation := ⟨⟨.anonymousSet 0 1, ⟨5, [[0, 0, 0, 0, 0], [0, 0, 0, 0, 0]]⟩⟩,
      [⟨[0, 1, -2, 0], .equality⟩, ⟨[0, 0, 1, -3], .inequality⟩, ⟨[2, 0, -1, 3], .inequality⟩], false⟩
    b.WellFormed ∧ ∃ r, b.recoverDefinitions = .ok r ∧
      r.relation.ls.divs.rows = [[2, 0, 1, 0, 0], [3, 0, 0, 1, 0]] ∧ r.found = 2 ∧
      r.relation.recoverDefinitions = .ok ⟨r.relation, 0⟩ := by
  intro b
  have hwf : b.WellFormed := ⟨LocalSpace.wellFormed_of_forall_lt rfl (by decide) (by decide),
    by decide, by decide⟩
  obtain ⟨r, hok, -, -, -, -, -, -, -, -, hagain⟩ := recoverDefinitions_complete b hwf
  have hresult : b.recoverDefinitions.map (fun r => (r.relation.ls.divs.rows, r.found)) =
      .ok ([[2, 0, 1, 0, 0], [3, 0, 0, 1, 0]], 2) := by
    cbv
  rw [hok] at hresult
  obtain ⟨hrows, hfound⟩ := Prod.mk.inj (Except.ok.inj hresult)
  exact ⟨hwf, r, hok, hrows, hfound, hagain⟩

end Quasiaffine.BasicRelation
