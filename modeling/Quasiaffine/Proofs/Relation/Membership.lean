import Quasiaffine.Proofs.Relation.Points

set_option autoImplicit false

namespace Quasiaffine

namespace BasicRelation

variable {b : BasicRelation} {x : Row} {n : Nat}

/-- What a search that succeeds has found for the divisions of the list. -/
theorem exists_of_search {radius : Int} {divs : List Row} {values : Row}
    (h : b.search radius divs values = true) :
    ∃ d : Row, d.length = divs.length ∧ (∀ c ∈ b.constraints, c.isSatisfied (values ++ d) = true) ∧
      ∀ (k : Nat) (r : Row), divs[k]? = some r → Division.isKnown r = true →
        d.entry k = Division.value r (values ++ d.take k) := by
  induction divs generalizing values with
  | nil => exact ⟨[], rfl, by simpa [search] using h, by simp⟩
  | cons div divs ih =>
    simp only [search, List.any_eq_true, Bool.and_eq_true] at h
    obtain ⟨value, hvalue, -, hrest⟩ := h
    obtain ⟨d, hlen, hsat, hknown⟩ := ih hrest
    refine ⟨value :: d, by simp [hlen], by simpa using hsat, fun k r hr hk => ?_⟩
    cases k with
    | zero =>
      obtain rfl : div = r := by simpa using hr
      rw [candidates, if_pos hk, List.mem_singleton] at hvalue
      simp [hvalue]
    | succ k => simpa using hknown k r (by simpa using hr) hk

theorem value_take {d : Row} (hb : b.WellFormed) (hx : x.length = b.space.total) {k : Nat} {r : Row}
    (hr : b.ls.divs.rows[k]? = some r) :
    Division.value r (1 :: (x ++ d.take k)) = Division.value r (1 :: (x ++ d)) := by
  -- No division refers to a later one, so the values of the earlier ones tell its value.
  refine LocalSpace.value_congr_divs (w := 2 + b.space.total) (by omega) fun t ht => ?_
  have htk : t < k := by
    by_contra hge
    exact ht (hb.divisions.triangular.zero_from k r hr _ (by
      change 2 + b.space.total + k ≤ 2 + b.space.total + t
      omega))
  simp [Row.entry, htk]

/-- The values that a search finds are those that the definitions ask for. -/
theorem mem_of_search {radius : Int} (hb : b.WellFormed) (hx : x.length = b.space.total)
    (hc : b.contradictory = false) (h : b.search radius b.ls.divs.rows (1 :: x) = true) : x ∈ b := by
  obtain ⟨d, hlen, hsat, hknown⟩ := exists_of_search h
  refine mem_iff.2 ⟨hx, d, ⟨hlen, fun k r hr hk => ?_⟩, hc, hsat⟩
  rw [hknown k r hr hk, ← value_take hb hx hr]
  rfl

theorem contains_spec (hb : b.WellFormed) (hx : x.length = b.space.total) (n : Nat) :
    ∃ found, b.contains x n = .ok found ∧ (found = true → x ∈ b) := by
  refine ⟨!b.contradictory && b.holdsSoFar (1 :: x) && b.search n b.ls.divs.rows (1 :: x), ?_, ?_⟩
  · simp [contains, require, hx, bind, Except.bind, pure, Except.pure]
  · simp only [Bool.and_eq_true, Bool.not_eq_true']
    exact fun h => mem_of_search hb hx h.1.1 h.2

theorem contains_eq_error (hx : x.length ≠ b.space.total) (n : Nat) :
    b.contains x n = .error (.argument (.pointSize x.length b.space.total)) := by
  simp [contains, require, hx, bind, Except.bind]

end BasicRelation

namespace Relation

variable {r : Relation} {x : Row} {n : Nat}

theorem anyContains_spec {bs : List BasicRelation}
    (hbs : ∀ b ∈ bs, b.WellFormed ∧ x.length = b.space.total) (n : Nat) :
    ∃ found, anyContains x n bs = .ok found ∧ (found = true → ∃ b ∈ bs, x ∈ b) := by
  induction bs with
  | nil => exact ⟨false, rfl, nofun⟩
  | cons b bs ih =>
    rw [List.forall_mem_cons] at hbs
    obtain ⟨found, hok, hfound⟩ := BasicRelation.contains_spec hbs.1.1 hbs.1.2 n
    cases found with
    | true => exact ⟨true, by simp [anyContains, hok, bind, Except.bind, pure, Except.pure],
        fun _ => ⟨b, List.mem_cons_self, hfound rfl⟩⟩
    | false =>
      obtain ⟨rest, hrest, hmem⟩ := ih hbs.2
      refine ⟨rest, by simp [anyContains, hok, hrest, bind, Except.bind], fun h => ?_⟩
      obtain ⟨b', hb', hx⟩ := hmem h
      exact ⟨b', List.mem_cons_of_mem _ hb', hx⟩

/-- The test succeeds at points of the right size, and says yes only at points of the relation. -/
theorem WellFormed.contains_spec (h : r.WellFormed) (hx : x.length = r.space.total) (n : Nat) :
    ∃ found, r.contains x n = .ok found ∧ (found = true → x ∈ r) := by
  obtain ⟨found, hok, hmem⟩ := anyContains_spec (x := x)
    (fun b hb => ⟨(h.basics b hb).wellFormed, hx.trans ((h.basics b hb).total_eq h.proper)⟩) n
  refine ⟨found, ?_, hmem⟩
  cases found <;> simp [contains, hok, require, hx, bind, Except.bind, pure, Except.pure]

theorem WellFormed.contains_eq_error (h : r.WellFormed) (hx : x.length ≠ r.space.total) (n : Nat) :
    r.contains x n = .error (.argument (.pointSize x.length r.space.total)) := by
  rw [contains]
  cases hbs : r.basics with
  | nil => simp [anyContains, require, hx, bind, Except.bind]
  | cons b bs =>
    have ht := (h.basics b (by simp [hbs])).total_eq h.proper
    simp [anyContains, BasicRelation.contains_eq_error (ht ▸ hx), ht, bind, Except.bind]

end Relation

end Quasiaffine
