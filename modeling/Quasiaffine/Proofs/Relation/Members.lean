import Quasiaffine.Object
import Quasiaffine.Proofs.Relation.Points

set_option autoImplicit false

namespace Quasiaffine

namespace RelationUnion

variable {u v : RelationUnion} {r : Relation} {ms ms' : List Relation}

theorem insertMember_of_apart (h : ∀ m ∈ ms, m.space.agrees r.space = false) :
    insertMember r ms = .ok (ms ++ [r]) := by
  induction ms with
  | nil => rfl
  | cons m ms ih =>
    rw [List.forall_mem_cons] at h
    rw [insertMember, h.1, ih h.2]
    rfl

theorem insertMember_cases (h : insertMember r ms = .ok ms') :
    ((∀ m ∈ ms, m.space.agrees r.space = false) ∧ ms' = ms ++ [r]) ∨
      ∃ (before behind : List Relation) (m both : Relation), ms = before ++ m :: behind ∧
        (∀ m' ∈ before, m'.space.agrees r.space = false) ∧ m.space.agrees r.space = true ∧
        m.union r = .ok both ∧ ms' = before ++ both :: behind := by
  induction ms generalizing ms' with
  | nil =>
    obtain rfl := Except.ok.inj h
    exact .inl ⟨nofun, rfl⟩
  | cons m ms ih =>
    rw [insertMember] at h
    split at h
    · rename_i hagrees
      obtain ⟨both, hboth, h⟩ := bind_eq_ok_iff.1 h
      obtain rfl := Except.ok.inj h
      exact .inr ⟨[], ms, m, both, rfl, nofun, hagrees, hboth, rfl⟩
    · rename_i hno
      rw [Bool.not_eq_true] at hno
      obtain ⟨rest, hrest, h⟩ := bind_eq_ok_iff.1 h
      obtain rfl := Except.ok.inj h
      rcases ih hrest with ⟨hall, rfl⟩ | ⟨before, behind, m', both, rfl, hall, hagrees, hboth, rfl⟩
      · exact .inl ⟨List.forall_mem_cons.2 ⟨hno, hall⟩, rfl⟩
      · exact .inr ⟨m :: before, behind, m', both, rfl, List.forall_mem_cons.2 ⟨hno, hall⟩, hagrees,
          hboth, rfl⟩

theorem insert_eq_ok_iff : u.insert r = .ok v ↔
    (∀ first ∈ u.members.head?, first.space.params = r.space.params) ∧
      insertMember r u.members = .ok v.members := by
  have hmembers : (insertMember r u.members >>= fun ms => (.ok ⟨ms⟩ : Except Error RelationUnion)) =
      .ok v ↔ insertMember r u.members = .ok v.members := by
    rw [bind_eq_ok_iff]
    constructor
    · rintro ⟨ms, hms, h⟩
      rw [hms, ← Except.ok.inj h]
    · exact fun h => ⟨_, h, rfl⟩
  rw [RelationUnion.insert]
  cases hhead : u.members.head? with
  | none => exact hmembers.trans ⟨fun h => ⟨nofun, h⟩, And.right⟩
  | some first =>
    by_cases hparams : first.space.params = r.space.params
    · simp only [require, hparams, beq_self_eq_true, if_true]
      exact hmembers.trans (by simp [hparams])
    · simp [require, hparams, bind, Except.bind]

def spaces (u : RelationUnion) : List Space := u.members.map (·.space)

theorem spaces_of_insert (h : u.insert r = .ok v) : v.spaces = u.spaces ∨
    v.spaces = u.spaces ++ [r.space] ∧ ∀ s ∈ u.spaces, s.agrees r.space = false := by
  rcases insertMember_cases (insert_eq_ok_iff.1 h).2 with
    ⟨hapart, hv⟩ | ⟨before, behind, m, both, hms, -, -, hboth, hv⟩
  · exact .inr ⟨by simp [spaces, hv], by simpa [spaces] using hapart⟩
  · exact .inl (by simp [spaces, hv, hms, (Relation.union_spec hboth).1])

theorem forall_members_insert {P : Relation → Prop} (hu : ∀ m ∈ u.members, P m) (hr : P r)
    (union : ∀ m both, P m → m.union r = .ok both → P both) (h : u.insert r = .ok v) :
    ∀ m ∈ v.members, P m := by
  obtain ⟨-, h⟩ := insert_eq_ok_iff.1 h
  rcases insertMember_cases h with ⟨-, hv⟩ | ⟨before, behind, m, both, hms, -, -, hboth, hv⟩
  · rw [hv]
    exact List.forall_mem_append.2 ⟨hu, List.forall_mem_singleton.2 hr⟩
  · rw [hms, List.forall_mem_append, List.forall_mem_cons] at hu
    rw [hv, List.forall_mem_append, List.forall_mem_cons]
    exact ⟨hu.1, union m both hu.2.1 hboth, hu.2.2⟩

end RelationUnion

theorem Object.toUnion_insert {o o' : Object} {r : Relation} {span : Span}
    (h : o.insert r span = .ok o') : o.toUnion.insert r = .ok o'.toUnion := by
  cases o with
  | relation s =>
    simp only [Object.insert] at h
    split_ifs at h with hkind hkind' hagrees
    · cases h
    · cases h
    · obtain ⟨both, hboth, h⟩ := bind_eq_ok_iff.1 h
      obtain rfl := Except.ok.inj h
      refine RelationUnion.insert_eq_ok_iff.2 ⟨?_, ?_⟩
      · rintro _ ⟨⟩
        exact ((Space.agrees_iff _ _).1 hagrees).2.1
      · simp only [toUnion, RelationUnion.ofRelation, RelationUnion.insertMember, hagrees, if_true,
          hboth]
        rfl
    · obtain ⟨u, hu, h⟩ := bind_eq_ok_iff.1 h
      obtain rfl := Except.ok.inj h
      exact hu
  | union u =>
    simp only [Object.insert] at h
    split_ifs at h
    · cases h
    · obtain ⟨v, hv, h⟩ := bind_eq_ok_iff.1 h
      obtain rfl := Except.ok.inj h
      exact hv

end Quasiaffine
