import Quasiaffine.Proofs.Division.Value

set_option autoImplicit false

namespace Quasiaffine.LocalSpace

/-- Values and behind them those of some divisions. A division with a definition is computed from
all values before it; one without takes the next of the `unknowns`. -/
def assigned : List Row → (values unknowns : Row) → Row
  | [], values, _ => values
  | r :: divs, values, unknowns =>
    if Division.isKnown r then assigned divs (values ++ [Division.value r (1 :: values)]) unknowns
    else assigned divs (values ++ [unknowns.entry 0]) (unknowns.drop 1)

def unknownCount (divs : List Row) : Nat := divs.countP fun r => !Division.isKnown r

/-- Values of some divisions behind others, each division with a definition computed from what
stands before it. -/
structure Follows (divs : List Row) (values d : Row) : Prop where
  length : d.length = divs.length
  value : ∀ (k : Nat) (r : Row), divs[k]? = some r → Division.isKnown r = true →
    d.entry k = Division.value r (1 :: (values ++ d.take k))

variable {ls : LocalSpace} {divs : List Row} {r x d values : Row} {a : Int}

theorem follows_cons_iff : Follows (r :: divs) values (a :: d) ↔
    (Division.isKnown r = true → a = Division.value r (1 :: values)) ∧
      Follows divs (values ++ [a]) d := by
  constructor
  · intro h
    refine ⟨fun hr => by simpa using h.value 0 r rfl hr, Nat.succ_inj.1 h.length, fun k s hs hk => ?_⟩
    simpa using h.value (k + 1) s hs hk
  · rintro ⟨ha, h⟩
    refine ⟨congrArg (· + 1) h.length, fun k s hs hk => ?_⟩
    cases k with
    | zero =>
      obtain rfl := Option.some.inj hs
      simpa using ha hk
    | succ k => simpa using h.value k s hs hk

theorem exists_follows_assigned (divs : List Row) (values unknowns : Row) :
    ∃ d, assigned divs values unknowns = values ++ d ∧ Follows divs values d := by
  induction divs generalizing values unknowns with
  | nil => exact ⟨[], by simp [assigned], rfl, by simp⟩
  | cons r divs ih =>
    rw [assigned]
    split
    · obtain ⟨d, hd, h⟩ := ih (values ++ [Division.value r (1 :: values)]) unknowns
      exact ⟨_ :: d, by simpa using hd, follows_cons_iff.2 ⟨fun _ => rfl, h⟩⟩
    · rename_i hr
      obtain ⟨d, hd, h⟩ := ih (values ++ [unknowns.entry 0]) (unknowns.drop 1)
      exact ⟨_ :: d, by simpa using hd, follows_cons_iff.2 ⟨fun hk => absurd hk hr, h⟩⟩

/-- Where all divisions have definitions there is nothing to choose. -/
theorem floors_eq_assigned (hk : ∀ r ∈ divs, Division.isKnown r = true) (values unknowns : Row) :
    floors (1 :: values) divs = 1 :: assigned divs values unknowns := by
  induction divs generalizing values with
  | nil => rfl
  | cons r divs ih =>
    rw [List.forall_mem_cons] at hk
    rw [assigned, if_pos hk.1, ← ih hk.2]
    rfl

/-- All values are computed from the right ones for the divisions without a definition. -/
theorem Follows.exists_assigned (h : Follows divs values d) :
    ∃ unknowns : Row, unknowns.length = unknownCount divs ∧
      assigned divs values unknowns = values ++ d := by
  induction divs generalizing values d with
  | nil =>
    obtain rfl := List.eq_nil_of_length_eq_zero h.length
    exact ⟨[], rfl, by simp [assigned]⟩
  | cons r divs ih =>
    obtain ⟨a, d, rfl⟩ := List.exists_cons_of_length_eq_add_one h.length
    obtain ⟨ha, h⟩ := follows_cons_iff.1 h
    obtain ⟨unknowns, hcount, hvalues⟩ := ih h
    by_cases hr : Division.isKnown r = true
    · refine ⟨unknowns, by simpa [unknownCount, hr] using hcount, ?_⟩
      rw [assigned, if_pos hr, ← ha hr, hvalues, List.append_assoc, List.singleton_append]
    · refine ⟨a :: unknowns, by simpa [unknownCount, hr] using hcount, ?_⟩
      rw [assigned, if_neg hr, Row.entry_cons_zero, List.drop_one, List.tail_cons, hvalues,
        List.append_assoc, List.singleton_append]

theorem assigns_iff_follows (hwf : ls.WellFormed) (hx : x.length = ls.space.total) :
    ls.Assigns x d ↔ Follows ls.divs.rows x d := by
  have hbefore : ∀ (k : Nat) (r : Row), ls.divs.rows[k]? = some r →
      Division.value r (1 :: (x ++ d)) = Division.value r (1 :: (x ++ d.take k)) := by
    intro k r hr
    refine value_congr_divs (w := 2 + ls.space.total) (by omega) fun t ht => ?_
    rw [Row.entry_take, if_pos]
    by_contra hge
    exact ht (hwf.triangular.zero_from k r hr _ (by omega))
  constructor
  · exact fun h => ⟨h.length, fun k r hr hk => (h.value k r hr hk).trans (hbefore k r hr)⟩
  · exact fun h => ⟨h.length, fun k r hr hk => (h.value k r hr hk).trans (hbefore k r hr).symm⟩

end Quasiaffine.LocalSpace
