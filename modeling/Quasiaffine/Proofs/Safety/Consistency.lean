import Quasiaffine.Proofs.Parse.Objects

set_option autoImplicit false

namespace Quasiaffine

namespace Reader

inductive Gives (config : Config) (source : String) : Relation → Prop
  | relation {r : Relation} (h : (Reader.relation config source).result = .ok r) :
    Gives config source r
  | set {r : Relation} (h : (Reader.set config source).result = .ok r) : Gives config source r
  | member {u : RelationUnion} {r : Relation} (h : (union config source).result = .ok u)
    (hr : r ∈ u.members) : Gives config source r
  | domain {f : Piecewise} {p : Piece} (h : (piecewise source).result = .ok f)
    (hp : p ∈ f.pieces) : Gives config source p.domain

end Reader

namespace Relation

inductive Obtained : Relation → Prop
  | full (s : Space) : Obtained (full s)
  | empty (s : Space) : Obtained (empty s)
  | ofBasic (b : BasicRelation) : Obtained (ofBasic b)
  | read {config : Config} {source : String} {r : Relation} (h : Reader.Gives config source r) :
    Obtained r
  | intersect {a b r : Relation} (ha : Obtained a) (hb : Obtained b) (h : a.intersect b = .ok r) :
    Obtained r
  | union {a b r : Relation} (ha : Obtained a) (hb : Obtained b) (h : a.union b = .ok r) :
    Obtained r
  | subtract {a b r : Relation} (ha : Obtained a) (hb : Obtained b) (h : a.subtract b = .ok r) :
    Obtained r
  | addDims {a r : Relation} {kind : DimKind} {n : Nat} (ha : Obtained a)
    (h : a.addDims kind n = .ok r) : Obtained r
  | projectOut {a r : Relation} {kind : DimKind} {first n : Nat} (ha : Obtained a)
    (h : a.projectOut kind first n = .ok r) : Obtained r
  | resetSpace {a r : Relation} {s : Space} (ha : Obtained a) (h : a.resetSpace s = .ok r) :
    Obtained r
  | sortDivs {a : Relation} (ha : Obtained a) : Obtained a.sortDivs
  | recoverDefinitions {a : Relation} {recovery : Recovery} (ha : Obtained a)
    (h : a.recoverDefinitions = .ok recovery) : Obtained recovery.relation

end Relation

namespace Reader

variable {config : Config} {source : String} {r : Relation}

theorem Outcome.andThen_eq_ok_iff {α β : Type} {o : Outcome α} {f : α → Except Error β} {y : β} :
    (o.andThen f).result = .ok y ↔ ∃ x, o.result = .ok x ∧ f x = .ok y := by
  simp only [andThen]
  cases o.result with
  | error stop => simp
  | ok x =>
    cases hf : f x with
    | error e => simp [hf]
    | ok y => simp [hf]

theorem object_of_relation (h : (relation config source).result = .ok r) :
    (object config source).result = .ok (.relation r) := by
  obtain ⟨o, ho, h⟩ := Outcome.andThen_eq_ok_iff.1 h
  cases o with
  | relation s => rw [ho, Except.ok.inj h]
  | union u => cases h

theorem Gives.consistent (h : Gives config source r) : r.Consistent := by
  cases h with
  | relation h =>
    exact (declared_of_object (object_of_relation h) r (List.mem_singleton_self r)).consistent
  | set h =>
    obtain ⟨s, hs, h⟩ := Outcome.andThen_eq_ok_iff.1 h
    obtain ⟨_, -, h⟩ := bind_eq_ok_iff.1 h
    obtain rfl := Except.ok.inj h
    exact (declared_of_object (object_of_relation hs) s (List.mem_singleton_self s)).consistent
  | member h hr =>
    obtain ⟨o, ho, h⟩ := Outcome.andThen_eq_ok_iff.1 h
    obtain rfl := Except.ok.inj h
    exact (declared_of_object ho r hr).consistent
  | domain h hp =>
    exact fun b hb => ((regular_of_piecewise h).2.tidy _ hp b hb).consistent

end Reader

namespace Relation

theorem Obtained.consistent {r : Relation} (h : Obtained r) : r.Consistent := by
  induction h with
  | full s => exact .full s
  | empty s => exact .empty s
  | ofBasic b => exact .ofBasic b
  | read h => exact h.consistent
  | intersect _ _ h => exact .intersect h
  | union _ _ h iha => exact iha.union h
  | subtract _ _ h => exact .subtract h
  | addDims _ h ih => exact ih.addDims h
  | projectOut _ h ih => exact ih.projectOut h
  | resetSpace _ h ih => exact ih.resetSpace h
  | sortDivs _ ih => exact ih.sortDivs
  | recoverDefinitions _ h ih => exact ih.recoverDefinitions h

/-- A constraint marks a basic relation only if nothing satisfies it. Without the mark the quick test
for emptiness finds only constraints that nothing satisfies together. And no relation that is
obtained has a basic relation with the mark, so the constraints tell its points. -/
theorem mark_spec :
    (∀ (b b' : BasicRelation) (c : Constraint), b.addConstraint c = .ok b' →
      (b'.contradictory = true ↔ b.contradictory = true ∨
        ∀ v : Row, v.length = b.ls.total → c.isSatisfied (1 :: v) = false)) ∧
    (∀ b : BasicRelation, b.isObviouslyEmpty = true → b.contradictory = false →
      ∀ v : Row, v.length = b.ls.total → ¬∀ c ∈ b.constraints, c.isSatisfied (1 :: v) = true) ∧
    ∀ r, Obtained r → (∀ b ∈ r.basics, b.contradictory = false) ∧
      ∀ x, x ∈ r ↔ ∃ b ∈ r.basics, x.length = b.space.total ∧ ∃ d, b.ls.Assigns x d ∧
        ∀ c ∈ b.constraints, c.isSatisfied (1 :: (x ++ d)) = true :=
  ⟨fun _ _ _ => BasicRelation.contradictory_of_addConstraint,
    fun _ hempty hcon v _ => BasicRelation.not_satisfied_of_isObviouslyEmpty hempty hcon v,
    fun _ hr => ⟨hr.consistent, fun _ => hr.consistent.mem_iff⟩⟩

/-- `-1 ≥ 0` marks the line, which then adds nothing to a union, and `x ≥ 0` and `-x - 1 ≥ 0` leave
no room. -/
theorem mark_spec_line :
    let line : Space := .ofSet [] (.flat none [none])
    let marked : BasicRelation := ⟨.ofSpace line, [], true⟩
    let gap : BasicRelation :=
      ⟨.ofSpace line, [⟨[0, 1], .inequality⟩, ⟨[-1, -1], .inequality⟩], false⟩
    (BasicRelation.full line).addConstraint ⟨[-1, 0], .inequality⟩ = .ok marked ∧
      gap.isObviouslyEmpty = true ∧ (∀ v : Row, v.length = gap.ls.total →
        ¬∀ c ∈ gap.constraints, c.isSatisfied (1 :: v) = true) ∧
      ∃ r, (Relation.full line).union (.ofBasic marked) = .ok r ∧ r.basics.length = 1 ∧
        ∀ b ∈ r.basics, b.contradictory = false := by
  intro line marked gap
  obtain ⟨-, hempty, hobtained⟩ := mark_spec
  have hunion : (Relation.full line).union (.ofBasic marked) = .ok (.full line) := by
    decide +kernel
  exact ⟨by decide +kernel, by decide +kernel, hempty gap (by decide +kernel) rfl, _, hunion, rfl,
    (hobtained _ (.union (.full line) (.ofBasic marked) hunion)).1⟩

end Relation

end Quasiaffine
