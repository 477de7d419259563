import Quasiaffine.Object
import Quasiaffine.Proofs.BasicRelation.Alike
import Quasiaffine.Proofs.Relation.Points

set_option autoImplicit false

namespace Quasiaffine

theorem BasicRelation.Alike.resetSpace {b c : BasicRelation} (h : b.Alike c) (s : Space) :
    SameOutcome Alike (b.resetSpace s) (c.resetSpace s) := by
  by_cases ht : s.total = b.space.total
  · obtain ⟨b', hb, hbs, -, hbc, hbcon, -, hbmem⟩ := resetSpace_eq_ok ht
    obtain ⟨c', hc, hcs, -, hcc, hccon, -, hcmem⟩ :=
      resetSpace_eq_ok (ht.trans (congrArg Space.total h.space.symm))
    rw [hb, hc]
    refine .ok ⟨hcs.trans hbs.symm, ?_, fun x => ?_⟩
    · rw [BasicRelation.isObviouslyEmpty, BasicRelation.isObviouslyEmpty, hbc, hbcon, hcc, hccon]
      exact h.isObviouslyEmpty
    · rw [hbmem, hcmem, h.mem_iff]
  · have hfails : ∀ a : BasicRelation, a.space = b.space →
        a.resetSpace s = .error (.argument (.spaceSize s.total b.space.total)) := by
      intro a ha
      have hat : ¬s.total = a.ls.space.total := by rwa [← ha] at ht
      rw [← ha]
      simp [BasicRelation.resetSpace, LocalSpace.resetSpace, require, hat, bind, Except.bind,
        BasicRelation.space]
    rw [hfails b rfl, hfails c h.space]
    exact .error _

namespace Relation

structure Alike (r s : Relation) : Prop where
  space : s.space = r.space
  basics : List.Forall₂ BasicRelation.Alike r.basics s.basics

variable {a a' b b' r s : Relation}

theorem Alike.refl (r : Relation) : r.Alike r :=
  ⟨rfl, List.forall₂_same.2 fun b _ => .refl b⟩

theorem Alike.symm (h : r.Alike s) : s.Alike r :=
  ⟨h.space.symm, h.basics.flip.imp fun _ _ h => h.symm⟩

theorem alike_sortDivs (h : r.WellFormed) : r.Alike r.sortDivs :=
  ⟨rfl, List.forall₂_map_right_iff.2 (List.forall₂_same.2 fun b hb =>
    BasicRelation.alike_sortDivs (h.basics b hb).wellFormed.wide)⟩

theorem Alike.isSet (h : r.Alike s) : s.isSet = r.isSet := by
  rw [Relation.isSet, Relation.isSet, h.space]

theorem Alike.insert {p q : BasicRelation} (h : r.Alike s) (hpq : p.Alike q) :
    (r.insert p).Alike (s.insert q) := by
  rw [Relation.insert, Relation.insert, hpq.isObviouslyEmpty]
  split
  · exact h
  · exact ⟨h.space, List.rel_append h.basics (.cons hpq .nil)⟩

theorem Alike.insertAll {ps qs : List BasicRelation} (h : r.Alike s)
    (hpqs : List.Forall₂ BasicRelation.Alike ps qs) : (r.insertAll ps).Alike (s.insertAll qs) := by
  induction hpqs generalizing r s with
  | nil => exact h
  | cons hpq _ ih => exact ih (h.insert hpq)

theorem Alike.union (ha : a.Alike a') (hb : b.Alike b') :
    SameOutcome Alike (a.union b) (a'.union b') := by
  rw [Relation.union, Relation.union, requireSameSpace, requireSameSpace, ha.space, hb.space]
  refine .same_bind fun _ => ?_
  exact (SameOutcome.mapM hb.basics fun _ _ h => h.resetSpace a.space).bind fun _ _ h =>
    .ok (ha.insertAll h)

end Relation

namespace RelationUnion

def Alike (u v : RelationUnion) : Prop := List.Forall₂ Relation.Alike u.members v.members

variable {u v : RelationUnion} {r s : Relation}

theorem alike_ofRelation (h : r.Alike s) : (ofRelation r).Alike (ofRelation s) := .cons h .nil

theorem alike_insertMember {ms ns : List Relation} (h : List.Forall₂ Relation.Alike ms ns)
    (hrs : r.Alike s) :
    SameOutcome (List.Forall₂ Relation.Alike) (insertMember r ms) (insertMember s ns) := by
  induction h with
  | nil => exact .ok (.cons hrs .nil)
  | cons hmn hrest ih =>
    rw [insertMember, insertMember, hmn.space, hrs.space]
    split
    · exact (hmn.union hrs).bind fun _ _ h => .ok (.cons h hrest)
    · exact ih.bind fun _ _ h => .ok (.cons hmn h)

theorem Alike.insert (h : u.Alike v) (hrs : r.Alike s) :
    SameOutcome Alike (u.insert r) (v.insert s) := by
  obtain ⟨ms⟩ := u
  obtain ⟨ns⟩ := v
  simp only [RelationUnion.insert]
  cases h with
  | nil => exact (alike_insertMember .nil hrs).bind fun _ _ h => .ok h
  | cons hmn hrest =>
    rw [List.head?_cons, List.head?_cons]
    simp only [hmn.space, hrs.space]
    exact .same_bind fun _ => (alike_insertMember (.cons hmn hrest) hrs).bind fun _ _ h => .ok h

end RelationUnion

namespace Object

inductive Alike : Object → Object → Prop
  | relation {r s : Relation} (h : r.Alike s) : Alike (.relation r) (.relation s)
  | union {u v : RelationUnion} (h : u.Alike v) : Alike (.union u) (.union v)

variable {o o' : Object} {r s : Relation}

theorem Alike.isSet? (h : o.Alike o') : o'.isSet? = o.isSet? := by
  cases h with
  | relation h => exact congrArg some h.isSet
  | union h =>
    rename_i u v
    obtain ⟨ms⟩ := u
    obtain ⟨ns⟩ := v
    cases h with
    | nil => rfl
    | cons h _ => exact congrArg some h.isSet

theorem Alike.insert (h : o.Alike o') (hrs : r.Alike s) (span : Span) :
    SameOutcome Alike (o.insert r span) (o'.insert s span) := by
  simp only [Object.insert, h.isSet?, hrs.isSet]
  split
  · exact .error _
  · cases h with
    | relation h =>
      simp only [h.space, hrs.space]
      split
      · exact (h.union hrs).bind fun _ _ h => .ok (.relation h)
      · exact ((RelationUnion.alike_ofRelation h).insert hrs).bind fun _ _ h => .ok (.union h)
    | union h => exact (h.insert hrs).bind fun _ _ h => .ok (.union h)

end Object

end Quasiaffine
