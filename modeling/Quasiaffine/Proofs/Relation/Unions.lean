import Quasiaffine.Proofs.Relation.Members

set_option autoImplicit false

namespace Quasiaffine

namespace RelationUnion

inductive Built : RelationUnion → Prop
  | empty : Built .empty
  | insert {u v : RelationUnion} {r : Relation} (hu : Built u) (hv : u.insert r = .ok v) : Built v
  | union {u w v : RelationUnion} (hu : Built u) (hw : Built w) (hv : u.union w = .ok v) : Built v

variable {u v w : RelationUnion} {r m : Relation} {rs ts ms ms' : List Relation} {s : Space}

section Spaces

def SameParams (u : RelationUnion) : Prop :=
  ∀ s ∈ u.spaces, ∀ t ∈ u.spaces, s.params = t.params

def Apart (u : RelationUnion) : Prop := u.spaces.Pairwise fun s t => s.agrees t = false

theorem SameParams.params_of_insert (h : u.SameParams) (hv : u.insert r = .ok v) :
    ∀ s ∈ u.spaces, s.params = r.space.params := by
  have hfirst := (insert_eq_ok_iff.1 hv).1
  intro s hs
  obtain ⟨m, hm, rfl⟩ := List.mem_map.1 hs
  obtain ⟨first, rest, hms⟩ := List.exists_cons_of_ne_nil (List.ne_nil_of_mem hm)
  rw [h _ hs first.space (List.mem_map_of_mem (hms ▸ List.mem_cons_self))]
  exact hfirst first (by rw [hms]; rfl)

theorem SameParams.insert (h : u.SameParams) (hv : u.insert r = .ok v) : v.SameParams := by
  rcases spaces_of_insert hv with hsame | ⟨hnew, -⟩
  · rwa [SameParams, hsame]
  · have hall : ∀ s ∈ v.spaces, s.params = r.space.params := by
      rw [hnew, List.forall_mem_append]
      exact ⟨h.params_of_insert hv, List.forall_mem_singleton.2 rfl⟩
    exact fun s hs t ht => (hall s hs).trans (hall t ht).symm

theorem Apart.insert (h : u.Apart) (hv : u.insert r = .ok v) : v.Apart := by
  rcases spaces_of_insert hv with hsame | ⟨hnew, hapart⟩
  · rwa [Apart, hsame]
  · rw [Apart, hnew]
    exact List.pairwise_append.2 ⟨h, List.pairwise_singleton _ _, by simpa using hapart⟩

theorem Built.sameParams (h : Built u) : u.SameParams := by
  induction h with
  | empty => exact nofun
  | insert _ hv ih => exact ih.insert hv
  | union _ _ hv ih => exact foldlM_induction (fun _ _ _ _ hv ih => ih.insert hv) ih hv

theorem Built.apart (h : Built u) : u.Apart := by
  induction h with
  | empty => exact .nil
  | insert _ hv ih => exact ih.insert hv
  | union _ _ hv ih => exact foldlM_induction (fun _ _ _ _ hv ih => ih.insert hv) ih hv

theorem get?_spec (h : u.get? s = some m) : m ∈ u.members ∧ m.space.agrees s = true :=
  ⟨List.mem_of_find?_eq_some h, List.find?_some (p := fun m : Relation => m.space.agrees s) h⟩

theorem Apart.eq_of_agrees (h : u.Apart) {m m' : Relation} (hm : m ∈ u.members)
    (hm' : m' ∈ u.members) (hagrees : m.space.agrees m'.space = true) : m = m' := by
  by_contra hne
  have : Std.Symm fun m m' : Relation => m.space.agrees m'.space = false := by
    refine ⟨fun m m' hmm' => ?_⟩
    rw [← Bool.not_eq_true] at hmm' ⊢
    exact fun h => hmm' (Space.agrees_symm h)
  have hapart := (List.pairwise_map.1 h).forall hm hm' hne
  rw [hagrees] at hapart
  cases hapart

end Spaces

section SamePoints

/-- Relations over the same spaces, and over each space with the same points. -/
structure SamePoints (rs ts : List Relation) : Prop where
  spaces : ∀ s, (∃ r ∈ rs, r.space.agrees s = true) ↔ ∃ t ∈ ts, t.space.agrees s = true
  points : ∀ s x, (∃ r ∈ rs, r.space.agrees s = true ∧ x ∈ r) ↔
    ∃ t ∈ ts, t.space.agrees s = true ∧ x ∈ t

theorem SamePoints.refl (rs : List Relation) : SamePoints rs rs :=
  ⟨fun _ => Iff.rfl, fun _ _ => Iff.rfl⟩

theorem SamePoints.symm (h : SamePoints rs ts) : SamePoints ts rs :=
  ⟨fun s => (h.spaces s).symm, fun s x => (h.points s x).symm⟩

theorem SamePoints.trans (h : SamePoints rs ts) (h' : SamePoints ts ms) : SamePoints rs ms :=
  ⟨fun s => (h.spaces s).trans (h'.spaces s), fun s x => (h.points s x).trans (h'.points s x)⟩

theorem SamePoints.append (h : SamePoints rs ts) (h' : SamePoints ms ms') :
    SamePoints (rs ++ ms) (ts ++ ms') := by
  constructor
  · intro s
    simp only [List.mem_append, or_and_right, exists_or, h.spaces, h'.spaces]
  · intro s x
    simp only [List.mem_append, or_and_right, exists_or, h.points, h'.points]

theorem SamePoints.of_perm (h : rs.Perm ts) : SamePoints rs ts :=
  ⟨fun s => by simp only [h.mem_iff], fun s x => by simp only [h.mem_iff]⟩

theorem SamePoints.of_union {both : Relation} (h : m.union r = .ok both) :
    SamePoints [both] [m, r] := by
  obtain ⟨_, hagrees, -⟩ := bind_eq_ok_iff.1 h
  obtain ⟨hspace, -, hmem⟩ := Relation.union_spec h
  have hover : ∀ s, r.space.agrees s = true ↔ m.space.agrees s = true := by
    have hagrees := require_eq_ok_iff.1 hagrees
    exact fun s => ⟨Space.agrees_trans hagrees, Space.agrees_trans (Space.agrees_symm hagrees)⟩
  constructor
  · intro s
    simp [hspace, hover]
  · intro s x
    simp [hspace, hover, hmem, and_or_left]

theorem insert_samePoints (h : u.insert r = .ok v) : SamePoints v.members (u.members ++ [r]) := by
  rcases insertMember_cases (insert_eq_ok_iff.1 h).2 with
    ⟨-, hv⟩ | ⟨before, behind, m, both, hms, -, -, hboth, hv⟩
  · rw [hv]
    exact .refl _
  · rw [hv, hms]
    have hmerged : SamePoints (before ++ both :: behind) (before ++ (m :: r :: behind)) :=
      (SamePoints.refl before).append ((SamePoints.of_union hboth).append (.refl behind))
    refine hmerged.trans (.of_perm ?_)
    rw [List.append_assoc, List.cons_append]
    exact .append_left before (.cons m (List.perm_append_singleton r behind).symm)

theorem union_samePoints (h : u.union w = .ok v) :
    SamePoints v.members (u.members ++ w.members) := by
  rw [union] at h
  generalize w.members = ms at h
  induction ms generalizing u with
  | nil =>
    obtain rfl := Except.ok.inj h
    rw [List.append_nil]
    exact .refl _
  | cons m ms ih =>
    rw [List.foldlM_cons, bind_eq_ok_iff] at h
    obtain ⟨u', hu', h⟩ := h
    rw [← List.singleton_append, ← List.append_assoc]
    exact (ih h).trans ((insert_samePoints hu').append (.refl ms))

theorem SamePoints.mem_iff_of_get? (h : SamePoints u.members rs) (hu : u.Apart)
    (hm : u.get? s = some m) (x : Row) :
    x ∈ m ↔ ∃ r ∈ rs, r.space.agrees s = true ∧ x ∈ r := by
  obtain ⟨hmem, hs⟩ := get?_spec hm
  rw [← h.points]
  constructor
  · exact fun hx => ⟨m, hmem, hs, hx⟩
  · rintro ⟨m', hmem', hs', hx⟩
    rwa [hu.eq_of_agrees hmem hmem' (Space.agrees_trans hs (Space.agrees_symm hs'))]

theorem SamePoints.get?_eq_none_iff (h : SamePoints u.members rs) :
    u.get? s = none ↔ ∀ r ∈ rs, r.space.agrees s = false := by
  have hspaces := not_congr (h.spaces s)
  push Not at hspaces
  simp only [Bool.not_eq_true] at hspaces
  rw [← hspaces, get?, List.find?_eq_none]
  simp only [Bool.not_eq_true]

theorem SamePoints.get?_rel (h : SamePoints u.members v.members) (hu : u.Apart) (hv : v.Apart)
    (s : Space) : Option.Rel (fun m m' => ∀ x, x ∈ m ↔ x ∈ m') (u.get? s) (v.get? s) := by
  cases hm : u.get? s with
  | none =>
    have hnone := h.get?_eq_none_iff.1 hm
    rw [(SamePoints.refl v.members).get?_eq_none_iff.2 hnone]
    exact .none
  | some m =>
    cases hm' : v.get? s with
    | none =>
      rw [h.get?_eq_none_iff.2 ((SamePoints.refl v.members).get?_eq_none_iff.1 hm')] at hm
      cases hm
    | some m' =>
      refine .some fun x => ?_
      rw [h.mem_iff_of_get? hu hm, (SamePoints.refl v.members).mem_iff_of_get? hv hm']

end SamePoints

section Refusal

theorem insert_eq_error (hm : m ∈ u.members) (hu : u.SameParams)
    (hr : m.space.params ≠ r.space.params) : ∃ first ∈ u.members.head?,
      u.insert r = .error (.argument (.parametersDiffer r.space first.space)) := by
  obtain ⟨first, rest, hms⟩ := List.exists_cons_of_ne_nil (List.ne_nil_of_mem hm)
  refine ⟨first, by rw [hms]; rfl, ?_⟩
  have hfirst : first.space.params ≠ r.space.params :=
    hu _ (List.mem_map_of_mem hm) _ (List.mem_map_of_mem (hms ▸ List.mem_cons_self)) ▸ hr
  simp [insert, hms, require, hfirst, bind, Except.bind]

theorem insertMember_eq_ok (hr : r.WellFormed) (hms : ∀ m ∈ ms, m.WellFormed) :
    ∃ ms', insertMember r ms = .ok ms' := by
  induction ms with
  | nil => exact ⟨[r], rfl⟩
  | cons m ms ih =>
    rw [List.forall_mem_cons] at hms
    rw [insertMember]
    split
    · rename_i hagrees
      obtain ⟨both, hboth, -⟩ := hms.1.union_eq_ok hr hagrees
      exact ⟨both :: ms, by rw [hboth]; rfl⟩
    · obtain ⟨ms', hms'⟩ := ih hms.2
      exact ⟨m :: ms', by rw [hms']; rfl⟩

theorem insert_eq_ok (hu : ∀ m ∈ u.members, m.WellFormed ∧ m.space.params = r.space.params)
    (hr : r.WellFormed) : ∃ v, u.insert r = .ok v := by
  obtain ⟨ms, hms⟩ := insertMember_eq_ok hr fun m hm => (hu m hm).1
  exact ⟨⟨ms⟩, insert_eq_ok_iff.2
    ⟨fun first hfirst => (hu first (List.mem_of_mem_head? hfirst)).2, hms⟩⟩

end Refusal

/-- Calls that add relations and unite unions, on unions that start out empty. -/
inductive Calls
  | start
  | insert (before : Calls) (r : Relation)
  | union (left right : Calls)

namespace Calls

/-- The union after the calls. One that fails leaves it as it was. -/
def result : Calls → RelationUnion
  | start => .empty
  | insert before r =>
    match before.result.insert r with
    | .ok u => u
    | .error _ => before.result
  | union left right =>
    match left.result.union right.result with
    | .ok u => u
    | .error _ => left.result

def added : Calls → List Relation
  | start => []
  | insert before r =>
    match before.result.insert r with
    | .ok _ => before.added ++ [r]
    | .error _ => before.added
  | union left right =>
    match left.result.union right.result with
    | .ok _ => left.added ++ right.added
    | .error _ => left.added

theorem built_result (calls : Calls) : Built calls.result := by
  induction calls with
  | start => exact .empty
  | insert before r ih =>
    rw [result]
    split
    · exact .insert ih ‹_›
    · exact ih
  | union left right ihl ihr =>
    rw [result]
    split
    · exact .union ihl ihr ‹_›
    · exact ihl

/-- Nothing that was added is lost, and nothing else comes in. -/
theorem samePoints_added (calls : Calls) : SamePoints calls.result.members calls.added := by
  induction calls with
  | start => exact .refl _
  | insert before r ih =>
    rw [result, added]
    split
    · exact (insert_samePoints ‹_›).trans (ih.append (.refl _))
    · exact ih
  | union left right ihl ihr =>
    rw [result, added]
    split
    · exact (union_samePoints ‹_›).trans (ihl.append ihr)
    · exact ihl

theorem wellFormed_result (calls : Calls) (h : ∀ r ∈ calls.added, r.WellFormed) :
    ∀ m ∈ calls.result.members, m.WellFormed := by
  have hinsert : ∀ {u v : RelationUnion} {r : Relation}, u.insert r = .ok v → r.WellFormed →
      (∀ m ∈ u.members, m.WellFormed) → ∀ m ∈ v.members, m.WellFormed := fun hv hr hu =>
    forall_members_insert hu hr (fun _ _ hm hboth => (Relation.union_spec hboth).2.1 hm hr) hv
  induction calls with
  | start => exact nofun
  | insert before r ih =>
    rw [added] at h
    rw [result]
    split at h
    · rename_i u hu
      rw [List.forall_mem_append] at h
      exact hinsert hu (h.2 r (List.mem_singleton_self r)) (ih h.1)
    · exact ih h
  | union left right ihl ihr =>
    rw [added] at h
    rw [result]
    split at h
    · rename_i u hu
      rw [List.forall_mem_append] at h
      exact foldlM_induction (fun _ m hm _ hv hu => hinsert hv (ihr h.2 m hm) hu) (ihl h.1) hu
    · exact ihl h

theorem exists_added_params (calls : Calls) {m : Relation} (hm : m ∈ calls.result.members) :
    ∃ r ∈ calls.added, r.space.params = m.space.params := by
  obtain ⟨r, hr, hagrees⟩ := (calls.samePoints_added.spaces m.space).1 ⟨m, hm, m.space.agrees_refl⟩
  exact ⟨r, hr, ((Space.agrees_iff _ _).1 hagrees).2.1⟩

theorem added_insertAll (calls : Calls) (rs : List Relation)
    (hwf : ∀ r ∈ calls.added ++ rs, r.WellFormed) (hparams : ∀ r ∈ calls.added ++ rs,
      ∀ t ∈ calls.added ++ rs, r.space.params = t.space.params) :
    (rs.foldl insert calls).added = calls.added ++ rs := by
  induction rs generalizing calls with
  | nil => simp
  | cons r rs ih =>
    have hmembers : ∀ m ∈ calls.result.members,
        m.WellFormed ∧ m.space.params = r.space.params := by
      intro m hm
      obtain ⟨t, ht, hmt⟩ := calls.exists_added_params hm
      exact ⟨calls.wellFormed_result (fun a ha => hwf a (List.mem_append_left _ ha)) m hm,
        hmt ▸ hparams t (List.mem_append_left _ ht) r (by simp)⟩
    have hadded : (calls.insert r).added = calls.added ++ [r] := by
      obtain ⟨u, hu⟩ := insert_eq_ok hmembers (hwf r (by simp))
      rw [added, hu]
    rw [List.foldl_cons, ih (calls.insert r), hadded, List.append_assoc, List.singleton_append]
    · rwa [hadded, List.append_assoc, List.singleton_append]
    · rwa [hadded, List.append_assoc, List.singleton_append]

/-- Unions with different parameters do not unite. -/
theorem union_refused {left right : Calls} {m m' : Relation} (hm : m ∈ left.result.members)
    (hm' : m' ∈ right.result.members) (hparams : m.space.params ≠ m'.space.params) :
    ∃ e, left.result.union right.result = .error e := by
  cases hunion : left.result.union right.result with
  | error e => exact ⟨e, rfl⟩
  | ok u =>
    have hsame := (Built.union left.built_result right.built_result hunion).sameParams
    have hmember : ∀ t ∈ left.result.members ++ right.result.members, ∃ s ∈ u.spaces,
        s.params = t.space.params := by
      intro t ht
      obtain ⟨n, hn, hagrees⟩ := ((union_samePoints hunion).spaces t.space).2
        ⟨t, ht, t.space.agrees_refl⟩
      exact ⟨n.space, List.mem_map_of_mem hn, ((Space.agrees_iff _ _).1 hagrees).2.1⟩
    obtain ⟨s, hs, hsm⟩ := hmember m (List.mem_append_left _ hm)
    obtain ⟨t, ht, htm⟩ := hmember m' (List.mem_append_right _ hm')
    exact absurd (hsm.symm.trans ((hsame s hs t ht).trans htm)) hparams

/-- After any calls all members have the same parameters and no two lie over equal spaces. The
member over a space has just the points of the relations over it that were added, so these make the
same union, space by space, in every order. A call with other parameters is refused and changes
nothing; well-formed relations with the same parameters are all added. -/
theorem result_spec (calls : Calls) :
    (∀ m ∈ calls.result.members, ∀ m' ∈ calls.result.members, m.space.params = m'.space.params) ∧
    (calls.result.members.Pairwise fun m m' => m.space.agrees m'.space = false) ∧
    (∀ s, (∀ m, calls.result.get? s = some m →
        ∀ x, x ∈ m ↔ ∃ r ∈ calls.added, r.space.agrees s = true ∧ x ∈ r) ∧
      (calls.result.get? s = none ↔ ∀ r ∈ calls.added, r.space.agrees s = false)) ∧
    (∀ others : Calls, calls.added.Perm others.added → ∀ s,
      Option.Rel (fun m m' => ∀ x, x ∈ m ↔ x ∈ m') (calls.result.get? s) (others.result.get? s)) ∧
    (∀ r, (∃ m ∈ calls.result.members, m.space.params ≠ r.space.params) →
      (∃ first ∈ calls.result.members.head?, calls.result.insert r =
        .error (.argument (.parametersDiffer r.space first.space))) ∧
      (calls.insert r).result = calls.result ∧ (calls.insert r).added = calls.added) ∧
    (∀ others : Calls, (∃ m ∈ calls.result.members, ∃ m' ∈ others.result.members,
        m.space.params ≠ m'.space.params) →
      (calls.union others).result = calls.result ∧ (calls.union others).added = calls.added) ∧
    ∀ rs, (∀ r ∈ calls.added ++ rs, r.WellFormed) →
      (∀ r ∈ calls.added ++ rs, ∀ t ∈ calls.added ++ rs, r.space.params = t.space.params) →
        (rs.foldl insert calls).added = calls.added ++ rs := by
  have hparams := calls.built_result.sameParams
  have hapart := calls.built_result.apart
  have hsame := calls.samePoints_added
  refine ⟨fun m hm m' hm' => hparams _ (List.mem_map_of_mem hm) _ (List.mem_map_of_mem hm'),
    List.pairwise_map.1 hapart,
    fun s => ⟨fun m hm => hsame.mem_iff_of_get? hapart hm, hsame.get?_eq_none_iff⟩,
    fun others hperm => ?_, ?_, ?_, calls.added_insertAll⟩
  · have hothers := others.samePoints_added
    exact (hsame.trans ((SamePoints.of_perm hperm).trans hothers.symm)).get?_rel hapart
      others.built_result.apart
  · rintro r ⟨m, hm, hr⟩
    obtain ⟨first, hfirst, herror⟩ := insert_eq_error hm hparams hr
    exact ⟨⟨first, hfirst, herror⟩, by rw [result, herror], by rw [added, herror]⟩
  · rintro others ⟨m, hm, m', hm', hdiffer⟩
    obtain ⟨e, herror⟩ := union_refused hm hm' hdiffer
    exact ⟨by rw [result, herror], by rw [added, herror]⟩

/-- Two halves of the line `A` and all of `B`, in two orders, once with a refused relation in
between. -/
theorem result_spec_halves :
    let line (name : String) : Space := .ofSet [] (.flat (some name) [none])
    let right : Relation := ⟨line "A", [⟨.ofSpace (line "A"), [⟨[0, 1], .inequality⟩], false⟩]⟩
    let left : Relation := ⟨line "A", [⟨.ofSpace (line "A"), [⟨[-3, -1], .inequality⟩], false⟩]⟩
    let other : Relation := .full (.ofSet [some "n"] (.flat (some "A") [none]))
    let calls := (((start.insert right).insert (.full (line "B"))).insert other).insert left
    let others := union (start.insert left) ((start.insert (.full (line "B"))).insert right)
    calls.added = [right, .full (line "B"), left] ∧
      others.added = [left, .full (line "B"), right] ∧
      calls.result ≠ others.result ∧ calls.result.size = 2 ∧
      (calls.insert other).result = calls.result ∧
      ∀ s, Option.Rel (fun m m' => ∀ x, x ∈ m ↔ x ∈ m') (calls.result.get? s)
        (others.result.get? s) := by
  intro line right left other calls others
  have hadded : calls.added = [right, .full (line "B"), left] := by decide +kernel
  have hadded' : others.added = [left, .full (line "B"), right] := by decide +kernel
  obtain ⟨-, -, -, hperm, hrefused, -⟩ := result_spec calls
  refine ⟨hadded, hadded', by decide +kernel, by decide +kernel,
    (hrefused other (by decide +kernel)).2.1, hperm others ?_⟩
  rw [hadded, hadded']
  decide +kernel

end Calls

end RelationUnion

end Quasiaffine
