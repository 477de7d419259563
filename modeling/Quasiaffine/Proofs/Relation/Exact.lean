import Quasiaffine.Proofs.Relation.Points

set_option autoImplicit false

namespace Quasiaffine

namespace BasicRelation

variable {b : BasicRelation} {kind : DimKind} {first : Nat}

theorem addDims_zero (b : BasicRelation) (kind : DimKind) : b.addDims kind 0 = .ok b := by
  have hls : b.ls.insertDims kind (b.ls.dim kind) 0 = .ok b.ls := by
    simp [LocalSpace.insertDims, require, bind, Except.bind, pure, Except.pure]
  have hinsert : ∀ c : Constraint, c.insertZeros (1 + b.ls.offset kind + b.ls.dim kind) 0 = c := by
    intro c
    simp [Constraint.insertZeros, Row.insertZeros, Row.zeros]
  simp only [addDims, insertDims, hls, bind, Except.bind, pure, Except.pure, mapConstraints,
    hinsert, List.map_id']

theorem projectOut_zero (hk : kind ≠ .div) (hf : first ≤ b.space.dim kind) :
    b.projectOut kind first 0 = .ok b := by
  have hdim : b.ls.dim kind = b.space.dim kind := by
    cases kind <;> first | rfl | exact absurd rfl hk
  have hls : b.ls.dimsToDivs kind first 0 = .ok b.ls := by
    simp [LocalSpace.dimsToDivs, require, hk, hdim, hf, bind, Except.bind, pure, Except.pure]
  have hmove : ∀ c : Constraint,
      c.moveEntries (1 + b.ls.offset kind + first) 0 (1 + b.space.total - 0) = c := by
    intro c
    simp [Constraint.moveEntries, Row.moveEntries, Row.dropEntries]
  simp only [projectOut, hls, bind, Except.bind, pure, Except.pure, mapConstraints, hmove,
    List.map_id']

end BasicRelation

namespace Relation

variable {r a b : Relation} {kind : DimKind} {first n : Nat}

def Changeable (r : Relation) (kind : DimKind) : Prop :=
  kind = .param ∨ r.space.hasTuple kind = true

theorem Changeable.ne_div (h : r.Changeable kind) : kind ≠ .div := by
  rintro rfl
  simp [Changeable, Space.hasTuple] at h

theorem mapBasics_of_forall_eq {space : Space} {f : BasicRelation → Except Error BasicRelation}
    (h : ∀ b ∈ r.basics, f b = .ok b) : r.mapBasics space f = .ok ⟨space, r.basics⟩ := by
  simp only [mapBasics, mapM_eq_ok_map (g := id) h, List.map_id, bind, Except.bind, pure,
    Except.pure]

theorem changeable_of_addDims (hok : r.addDims kind n = .ok a) : r.Changeable kind := by
  obtain ⟨s, hs, -⟩ := bind_eq_ok_iff.1 hok
  simp only [Space.addDims, Space.insertDims, bind_eq_ok_iff, require_eq_ok_iff, exists_const,
    Bool.or_eq_true, decide_eq_true_eq] at hs
  exact hs.2.1

theorem changeable_of_projectOut (hok : r.projectOut kind first n = .ok a) :
    r.Changeable kind ∧ first + n ≤ r.space.dim kind := by
  obtain ⟨s, hs, -⟩ := bind_eq_ok_iff.1 hok
  simp only [Space.dropDims, bind_eq_ok_iff, require_eq_ok_iff, exists_const,
    Bool.or_eq_true, decide_eq_true_eq] at hs
  exact ⟨hs.2.1, hs.1⟩

theorem addDims_zero_eq_ok (hc : r.Changeable kind) :
    r.addDims kind 0 = .ok ⟨r.space.insertUnchecked (r.space.dim kind) 0 kind, r.basics⟩ := by
  have hspace : r.space.addDims kind 0 =
      .ok (r.space.insertUnchecked (r.space.dim kind) 0 kind) := by
    simp [Space.addDims, Space.insertDims, require, show _ ∨ _ from hc, bind, Except.bind, pure,
      Except.pure]
  rw [addDims, hspace]
  exact mapBasics_of_forall_eq fun b _ => b.addDims_zero kind

theorem WellFormed.projectOut_zero_eq_ok (h : r.WellFormed) (hc : r.Changeable kind)
    (hf : first ≤ r.space.dim kind) :
    r.projectOut kind first 0 = .ok ⟨r.space.dropUnchecked first 0 kind, r.basics⟩ := by
  have hspace : r.space.dropDims kind first 0 = .ok (r.space.dropUnchecked first 0 kind) := by
    simp [Space.dropDims, require, hf, show _ ∨ _ from hc, bind, Except.bind, pure, Except.pure]
  rw [projectOut, hspace]
  refine mapBasics_of_forall_eq fun b hb => BasicRelation.projectOut_zero hc.ne_div ?_
  have hb' := h.basics b hb
  rw [← Space.dim_eq_of_agrees kind hb'.agrees h.proper hb'.proper]
  exact hf

theorem WellFormed.addDims_spec (h : r.WellFormed) (hc : r.Changeable kind) (n : Nat) :
    ∃ r', r.addDims kind n = .ok r' ∧ (∀ x ∈ r', x.length = r.space.total + n) ∧
      ∀ u v w, u.length = r.space.offset kind + r.space.dim kind → v.length = n →
        (u ++ v ++ w ∈ r' ↔ u ++ w ∈ r) := by
  rcases Nat.eq_zero_or_pos n with rfl | hn
  · refine ⟨_, addDims_zero_eq_ok hc, fun x hx => h.length_of_mem hx, fun u v w _ hv => ?_⟩
    rw [List.eq_nil_of_length_eq_zero hv, List.append_nil]
    rfl
  · obtain ⟨r', hok, hspace, hwf, -, -, hmem⟩ := addDims_eq_ok kind n h hc.ne_div hc hn
    refine ⟨r', hok, fun x hx => ?_, hmem⟩
    rw [hwf.length_of_mem hx, hspace, Space.total_insertUnchecked hc.ne_div (Nat.le_refl _)]

theorem WellFormed.projectOut_spec (h : r.WellFormed) (hc : r.Changeable kind)
    (hf : first + n ≤ r.space.dim kind) :
    ∃ r', r.projectOut kind first n = .ok r' ∧ (∀ x ∈ r', x.length + n = r.space.total) ∧
      ∀ u w, u.length = r.space.offset kind + first →
        (u ++ w ∈ r' ↔ ∃ v : Row, v.length = n ∧ u ++ v ++ w ∈ r) := by
  rcases Nat.eq_zero_or_pos n with rfl | hn
  · refine ⟨_, h.projectOut_zero_eq_ok hc hf, fun x hx => h.length_of_mem hx,
      fun u w _ => ⟨fun hx => ⟨[], rfl, ?_⟩, ?_⟩⟩
    · rw [List.append_nil]
      exact hx
    · rintro ⟨v, hv, hx⟩
      rw [List.eq_nil_of_length_eq_zero hv, List.append_nil] at hx
      exact hx
  · obtain ⟨r', hok, hspace, hwf, -, hmem⟩ :=
      projectOut_eq_ok kind first n h hc.ne_div hf hc hn
    refine ⟨r', hok, fun x hx => ?_, hmem⟩
    rw [hwf.length_of_mem hx, hspace, Space.total_dropUnchecked hc.ne_div hf]

/-- Each operation on relations over one space is that on their sets of points. A relation may lose
and gain parameters and dimensions of the tuples that its space has, and nothing else. -/
theorem operations_exact (ha : a.WellFormed) (hb : b.WellFormed)
    (hs : a.space.agrees b.space = true) :
    (∃ r, a.intersect b = .ok r ∧ ∀ x, x ∈ r ↔ x ∈ a ∧ x ∈ b) ∧
    (∃ r, a.union b = .ok r ∧ ∀ x, x ∈ r ↔ x ∈ a ∨ x ∈ b) ∧
    (∀ kind first n,
      ((∃ r, a.projectOut kind first n = .ok r) ↔
        a.Changeable kind ∧ first + n ≤ a.space.dim kind) ∧
      ∀ r, a.projectOut kind first n = .ok r →
        (∀ x ∈ r, x.length + n = a.space.total) ∧
        ∀ u w, u.length = a.space.offset kind + first →
          (u ++ w ∈ r ↔ ∃ v : Row, v.length = n ∧ u ++ v ++ w ∈ a)) ∧
    ∀ kind n,
      ((∃ r, a.addDims kind n = .ok r) ↔ a.Changeable kind) ∧
      ∀ r, a.addDims kind n = .ok r →
        (∀ x ∈ r, x.length = a.space.total + n) ∧
        ∀ u v w, u.length = a.space.offset kind + a.space.dim kind → v.length = n →
          (u ++ v ++ w ∈ r ↔ u ++ w ∈ a) := by
  refine ⟨?intersect, ?union, fun kind first n => ⟨⟨fun ⟨r, hok⟩ => changeable_of_projectOut hok,
    fun ⟨hc, hf⟩ => ?project⟩, fun r hok => ?projected⟩, fun kind n => ⟨⟨fun ⟨r, hok⟩ =>
    changeable_of_addDims hok, fun hc => ?add⟩, fun r hok => ?added⟩⟩
  case intersect =>
    obtain ⟨r, hok, -, -, -, -, hmem⟩ := intersect_eq_ok ha hb hs
    exact ⟨r, hok, hmem⟩
  case union =>
    obtain ⟨r, hok, -, -, -, -, hmem⟩ := ha.union_eq_ok hb hs
    exact ⟨r, hok, hmem⟩
  case project =>
    obtain ⟨r, hok, -⟩ := ha.projectOut_spec hc hf
    exact ⟨r, hok⟩
  case projected =>
    obtain ⟨hc, hf⟩ := changeable_of_projectOut hok
    obtain ⟨r', hok', hspec⟩ := ha.projectOut_spec hc hf
    obtain rfl := Except.ok.inj (hok'.symm.trans hok)
    exact hspec
  case add =>
    obtain ⟨r, hok, -⟩ := ha.addDims_spec hc n
    exact ⟨r, hok⟩
  case added =>
    obtain ⟨r', hok', hspec⟩ := ha.addDims_spec (changeable_of_addDims hok) n
    obtain rfl := Except.ok.inj (hok'.symm.trans hok)
    exact hspec

def doubles : Relation :=
  ⟨.anonymousSet 0 2, [⟨.ofSpace (.anonymousSet 0 2), [⟨[0, 1, -2], .equality⟩], false⟩]⟩

theorem wellFormed_doubles : doubles.WellFormed := by
  refine ⟨fun _ => rfl, List.forall_mem_singleton.2 ⟨⟨LocalSpace.wellFormed_ofSpace _, ?_, ?_⟩,
    fun _ => rfl, rfl⟩⟩
  · simp [LocalSpace.ofSpace, Matrix.empty]
  · decide

theorem mem_doubles {n m : Int} : [n, m] ∈ doubles ↔ n = 2 * m := by
  simp only [mem_iff, doubles, List.mem_singleton, exists_eq_left]
  constructor
  · rintro ⟨-, d, -, hd⟩
    have := hd.satisfied _ (List.mem_singleton_self _)
    simp [Constraint.isSatisfied, ConstraintKind.admits] at this
    omega
  · intro h
    refine ⟨rfl, [], LocalSpace.Assigns.nil _ _, rfl, List.forall_mem_singleton.2 ?_⟩
    simp [Constraint.isSatisfied, ConstraintKind.admits]
    omega

/-- The even numbers are what is left of the pairs without the halves. -/
theorem operations_exact_doubles :
    doubles.WellFormed ∧ doubles.space.agrees doubles.space = true ∧
      ∃ r, doubles.projectOut .output 1 1 = .ok r ∧ ∀ n, [n] ∈ r ↔ ∃ m, n = 2 * m := by
  have hwf := wellFormed_doubles
  refine ⟨hwf, rfl, ?_⟩
  obtain ⟨-, -, hproject, -⟩ := operations_exact hwf hwf rfl
  obtain ⟨r, hok⟩ := (hproject .output 1 1).1.2 ⟨.inr rfl, by decide⟩
  refine ⟨r, hok, fun n => (((hproject .output 1 1).2 r hok).2 [n] [] rfl).trans ⟨?_, ?_⟩⟩
  · rintro ⟨v, hv, hx⟩
    obtain ⟨m, rfl⟩ := List.length_eq_one_iff.1 hv
    exact ⟨m, mem_doubles.1 hx⟩
  · rintro ⟨m, hm⟩
    exact ⟨[m], rfl, mem_doubles.2 hm⟩

end Relation

end Quasiaffine
