import Quasiaffine.Proofs.BasicRelation.Windows
import Quasiaffine.Proofs.Relation.Membership

set_option autoImplicit false

namespace Quasiaffine.BasicRelation

variable {b : BasicRelation} {c : Constraint} {divs : List Row} {values x d : Row}
  {radius radius' : Int} {n : Nat}

theorem candidates_subset {div : Row} (hr : radius ≤ radius') :
    b.candidates radius div values ⊆ b.candidates radius' div values := by
  intro v hv
  cases hdiv : Division.isKnown div with
  | true =>
    rw [candidates, if_pos hdiv] at hv ⊢
    exact hv
  | false =>
    rw [candidates_eq hdiv] at hv ⊢
    exact Window.candidates_mono hr hv

theorem search_mono (hr : radius ≤ radius') (h : b.search radius divs values = true) :
    b.search radius' divs values = true := by
  induction divs generalizing values with
  | nil => exact h
  | cons div divs ih =>
    simp only [search, List.any_eq_true, Bool.and_eq_true] at h ⊢
    obtain ⟨v, hv, hsofar, hrest⟩ := h
    exact ⟨v, candidates_subset hr hv, hsofar, ih hrest⟩

theorem isSatisfied_append (hz : c.isZeroFrom values.length = true) (d : Row) :
    c.isSatisfied (values ++ d) = c.isSatisfied values := by
  have hdot : c.row.dot (values ++ d) = c.row.dot values := by
    refine Row.dot_congr fun k hk => Row.entry_append_left d ?_
    by_contra hge
    exact hk ((Row.isZero_drop_iff _ _).1 hz k (by omega))
  rw [Constraint.isSatisfied, Constraint.isSatisfied, hdot]

theorem holdsSoFar_of_isSatisfied
    (hsat : ∀ c ∈ b.constraints, c.isSatisfied (values ++ d) = true) :
    b.holdsSoFar values = true := by
  refine List.all_eq_true.2 fun c hc => ?_
  obtain ⟨hc, hz⟩ := List.mem_filter.1 hc
  rw [← isSatisfied_append hz d, hsat c hc]

/-- A search finds values with which all constraints hold if it tries each of them. -/
theorem search_of_mem_candidates (hlen : d.length = divs.length)
    (hsat : ∀ c ∈ b.constraints, c.isSatisfied (values ++ d) = true)
    (htry : ∀ (k : Nat) (r : Row), divs[k]? = some r →
      d.entry k ∈ b.candidates radius r (values ++ d.take k)) :
    b.search radius divs values = true := by
  induction divs generalizing values d with
  | nil =>
    obtain rfl := List.eq_nil_of_length_eq_zero hlen
    simpa [search] using hsat
  | cons div divs ih =>
    obtain ⟨v, d, rfl⟩ := List.exists_cons_of_length_eq_add_one hlen
    have hsat' : ∀ c ∈ b.constraints, c.isSatisfied (values ++ [v] ++ d) = true := by
      simpa using hsat
    simp only [search, List.any_eq_true, Bool.and_eq_true]
    refine ⟨v, by simpa using htry 0 div rfl, holdsSoFar_of_isSatisfied hsat',
      ih (by simpa using hlen) hsat' fun k r hr => ?_⟩
    simpa using htry (k + 1) r hr

/-- Where a division has no definition, its value is tried if it lies within reach. -/
theorem Holds.mem_candidates (hd : b.Holds x d) {k : Nat} {r : Row}
    (hr : b.ls.divs.rows[k]? = some r) (hk : Division.isKnown r = false)
    (hreach : b.Reaches radius (1 :: (x ++ d.take k)) (d.entry k)) :
    d.entry k ∈ b.candidates radius r (1 :: (x ++ d.take k)) := by
  have hlt : k < d.length := by
    rw [hd.assigns.length]
    exact (List.getElem?_eq_some_iff.1 hr).1
  refine BasicRelation.mem_candidates hk (fun c hc => ?_) hreach
  obtain ⟨hc, hlast⟩ := List.mem_filter.1 hc
  have hsplit : 1 :: (x ++ d) = (1 :: (x ++ d.take k)) ++ [d.entry k] ++ d.drop (k + 1) := by
    have hdrop : d.drop k = d.entry k :: d.drop (k + 1) := by
      rw [List.drop_eq_getElem_cons hlt]
      simp [Row.entry, hlt]
    simp [← hdrop]
  have hsat := hd.admits.satisfied c hc
  rw [hsplit, isSatisfied_append] at hsat
  · exact hsat
  · rw [boundsLast, Bool.and_eq_true] at hlast
    rw [List.length_append, List.length_singleton]
    exact hlast.2

/-- The values of the divisions that are searched lie within reach, one after the other. -/
def WithinReach (b : BasicRelation) (n : Nat) (x d : Row) : Prop :=
  ∀ (k : Nat) (r : Row), b.ls.divs.rows[k]? = some r → Division.isKnown r = false →
    b.Reaches n (1 :: (x ++ d.take k)) (d.entry k)

theorem Holds.contains (hb : b.WellFormed) (hx : x.length = b.space.total) (hd : b.Holds x d)
    (hreach : b.WithinReach n x d) : b.contains x n = .ok true := by
  have hsat : ∀ c ∈ b.constraints, c.isSatisfied ((1 :: x) ++ d) = true := hd.admits.satisfied
  have hsearch : b.search n b.ls.divs.rows (1 :: x) = true := by
    refine search_of_mem_candidates hd.assigns.length hsat fun k r hr => ?_
    cases hk : Division.isKnown r with
    | true =>
      rw [candidates, if_pos hk, hd.assigns.value k r hr hk, List.cons_append,
        value_take hb hx hr]
      exact List.mem_singleton_self _
    | false => exact hd.mem_candidates hr hk (hreach k r hr hk)
  simp [BasicRelation.contains, require, hx, hd.admits.consistent, holdsSoFar_of_isSatisfied hsat,
    hsearch, bind, Except.bind, pure, Except.pure]

theorem contains_mono {m : Nat} (hmn : m ≤ n) (h : b.contains x m = .ok true) :
    b.contains x n = .ok true := by
  simp only [contains, bind_eq_ok_iff, require_eq_ok_iff, exists_const, pure, Except.pure,
    Except.ok.injEq, Bool.and_eq_true] at h ⊢
  exact ⟨h.1, h.2.1, search_mono (by exact_mod_cast hmn) h.2.2⟩

theorem contains_of_mem (hb : b.WellFormed) (hk : b.ls.allKnown = true) (hx : x ∈ b) :
    b.contains x n = .ok true := by
  obtain ⟨hlen, d, hd⟩ := hx
  refine Holds.contains hb hlen hd fun k r hr hunknown => ?_
  rw [List.all_eq_true.1 hk r (List.mem_of_getElem? hr)] at hunknown
  cases hunknown

/-- The test says yes only at points of the relation, keeps to it for every greater radius, and says
yes wherever values of the divisions lie within reach. If all divisions have definitions it says yes
at all points of the relation. -/
theorem contains_complete (hb : b.WellFormed) (hc : b.contradictory = false)
    (hx : x.length = b.space.total) (n : Nat) :
    ∃ found, b.contains x n = .ok found ∧
      (found = true → ∃ d, b.ls.Assigns x d ∧
        ∀ c ∈ b.constraints, c.isSatisfied (1 :: (x ++ d)) = true) ∧
      (found = true → ∀ m, n ≤ m → b.contains x m = .ok true) ∧
      (∀ d, b.ls.Assigns x d → (∀ c ∈ b.constraints, c.isSatisfied (1 :: (x ++ d)) = true) →
        b.WithinReach n x d → found = true) ∧
      (b.ls.allKnown = true → (found = true ↔ ∃ d, b.ls.Assigns x d ∧
        ∀ c ∈ b.constraints, c.isSatisfied (1 :: (x ++ d)) = true)) := by
  obtain ⟨found, hok, hsound⟩ := contains_spec hb hx n
  have hpoint : found = true → ∃ d, b.ls.Assigns x d ∧
      ∀ c ∈ b.constraints, c.isSatisfied (1 :: (x ++ d)) = true := by
    intro h
    obtain ⟨-, d, hd⟩ := hsound h
    exact ⟨d, hd.assigns, hd.admits.satisfied⟩
  have hfound : ∀ d, b.ls.Assigns x d →
      (∀ c ∈ b.constraints, c.isSatisfied (1 :: (x ++ d)) = true) → b.WithinReach n x d →
        found = true := by
    intro d hd hsat hreach
    have hyes := Holds.contains hb hx ⟨hd, hc, hsat⟩ hreach
    exact Except.ok.inj (hok.symm.trans hyes)
  refine ⟨found, hok, hpoint, fun h m hm => contains_mono hm (h ▸ hok), hfound, fun hk =>
    ⟨hpoint, fun ⟨d, hd, hsat⟩ => hfound d hd hsat fun k r hr hunknown => ?_⟩⟩
  rw [List.all_eq_true.1 hk r (List.mem_of_getElem? hr)] at hunknown
  cases hunknown

def nearThirds : BasicRelation :=
  ⟨.overOneVariable [[0, 0, 0, 0]],
    [⟨[0, 1, -3], .inequality⟩, ⟨[1, -1, 3], .inequality⟩], false⟩

theorem wellFormed_nearThirds : nearThirds.WellFormed :=
  ⟨LocalSpace.wellFormed_overOneVariable (by decide) (by decide), by decide, by decide⟩

/-- The least multiple that is allowed is tried first. -/
theorem contains_complete_nearThirds :
    nearThirds.WellFormed ∧ nearThirds.contradictory = false ∧ nearThirds.WithinReach 0 [7] [2] ∧
      nearThirds.contains [7] 0 = .ok true := by
  have hreach : nearThirds.WithinReach 0 [7] [2] := by
    intro k r hr _
    match k, hr with
    | 0, _ =>
      have hlower : nearThirds.lowerBounds 2 = [⟨[1, -1, 3], .inequality⟩] := by decide
      have hleast : IsLeast (solutions (nearThirds.lowerBounds 2) [1, 7]) 2 := by
        rw [hlower]
        refine ⟨List.forall_mem_singleton.2 rfl, fun v hv => ?_⟩
        have := hv _ (List.mem_singleton_self _)
        simp [Constraint.isSatisfied, ConstraintKind.admits] at this
        omega
      exact .above hleast (by decide)
    | k + 1, hr => simp [nearThirds, LocalSpace.overOneVariable] at hr
  refine ⟨wellFormed_nearThirds, rfl, hreach, ?_⟩
  obtain ⟨found, hok, -, -, hfound, -⟩ :=
    contains_complete (x := [7]) wellFormed_nearThirds rfl rfl 0
  have hassigns : nearThirds.ls.Assigns [7] [2] := by
    refine ⟨rfl, fun k r hr hk => ?_⟩
    match k, hr with
    | 0, hr =>
      obtain rfl := Option.some.inj hr
      cases hk
    | k + 1, hr => simp [nearThirds, LocalSpace.overOneVariable] at hr
  rw [hok, hfound [2] hassigns (by decide) hreach]

end Quasiaffine.BasicRelation

namespace Quasiaffine.Relation

variable {r : Relation} {x : Row} {n : Nat}

theorem anyContains_of_mem {bs : List BasicRelation}
    (hbs : ∀ b ∈ bs, (b.WellFormed ∧ x.length = b.space.total) ∧ b.ls.allKnown = true)
    (hx : ∃ b ∈ bs, x ∈ b) : anyContains x n bs = .ok true := by
  induction bs with
  | nil => simp at hx
  | cons b bs ih =>
    rw [List.forall_mem_cons] at hbs
    rw [List.exists_mem_cons_iff] at hx
    obtain ⟨found, hok, -⟩ := BasicRelation.contains_spec hbs.1.1.1 hbs.1.1.2 n
    rcases hx with hx | hx
    · simp [anyContains, BasicRelation.contains_of_mem hbs.1.1.1 hbs.1.2 hx, bind, Except.bind,
        pure, Except.pure]
    · cases found <;> simp [anyContains, hok, ih hbs.2 hx, bind, Except.bind, pure, Except.pure]

theorem WellFormed.contains_eq_ok (h : r.WellFormed) (hk : r.Known) (hx : x ∈ r) (n : Nat) :
    r.contains x n = .ok true := by
  have hlen := h.length_of_mem hx
  have hany : anyContains x n r.basics = .ok true := anyContains_of_mem (fun b hb =>
    ⟨⟨(h.basics b hb).wellFormed, hlen.trans ((h.basics b hb).total_eq h.proper)⟩, hk b hb⟩) hx
  simp [contains, hany, bind, Except.bind, pure, Except.pure]

end Quasiaffine.Relation
