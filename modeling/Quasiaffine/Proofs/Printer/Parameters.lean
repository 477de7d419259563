import Quasiaffine.Proofs.Printer.Objects

/-!
The names of parameters in the text of a union. All members have the same parameters, and in front
of the braces stand the names that the first member makes for them. A member makes the same ones as
long as no name made up on either side is that of a dimension of a tuple on the other.
-/

set_option autoImplicit false

namespace Quasiaffine

section Fresh

variable {taken taken' : List String} {stem : String} {n : Nat}

/-- All numbers before the one that is used are taken. -/
theorem freshFrom_spec (taken : List String) (stem : String) (fuel n : Nat) :
    ∃ k, n ≤ k ∧ freshFrom taken stem fuel n = stem ++ toString k ∧
      ∀ j, n ≤ j → j < k → stem ++ toString j ∈ taken := by
  induction fuel generalizing n with
  | zero => exact ⟨n, Nat.le_refl n, rfl, fun j hn hk => absurd hk (Nat.not_lt.2 hn)⟩
  | succ fuel ih =>
    rw [freshFrom]
    split
    · rename_i hn
      obtain ⟨k, hk, heq, hall⟩ := ih (n + 1)
      refine ⟨k, by omega, heq, fun j hj hjk => ?_⟩
      rcases Nat.eq_or_lt_of_le hj with rfl | hj
      · simpa using hn
      · exact hall j hj hjk
    · exact ⟨n, Nat.le_refl n, rfl, fun j hn hk => absurd hk (Nat.not_lt.2 hn)⟩

/-- The same name is made up against two lists if neither has the one made up against the other. -/
theorem fresh_eq_iff : fresh taken stem n = fresh taken' stem n ↔
    fresh taken stem n ∉ taken' ∧ fresh taken' stem n ∉ taken := by
  constructor
  · intro h
    exact ⟨h ▸ fresh_notMem taken' stem n, h ▸ fresh_notMem taken stem n⟩
  · rintro ⟨hnew, hnew'⟩
    obtain ⟨k, hk, heq, hall⟩ := freshFrom_spec taken stem taken.length n
    obtain ⟨k', hk', heq', hall'⟩ := freshFrom_spec taken' stem taken'.length n
    rw [fresh, heq] at hnew ⊢
    rw [fresh, heq'] at hnew' ⊢
    rcases Nat.lt_trichotomy k k' with hlt | rfl | hlt
    · exact absurd (hall' k hk hlt) hnew
    · rfl
    · exact absurd (hall k' hk' hlt) hnew'

end Fresh

namespace NameRequest

variable {taken taken' : List String} {requests : List NameRequest}

/-- Earlier requests do not see the later ones. -/
theorem exists_settle_append (taken : List String) (first requests : List NameRequest) :
    ∃ rest, settle taken (first ++ requests) = settle taken first ++ rest := by
  induction first generalizing taken with
  | nil => exact ⟨_, rfl⟩
  | cons request first ih =>
    rw [List.cons_append, settle, settle]
    split
    · exact (ih taken).imp fun _ h => congrArg (request :: ·) h
    · split
      · exact (ih taken).imp fun _ h => congrArg (_ :: ·) h
      · exact (ih _).imp fun _ h => congrArg (request :: ·) h

theorem take_names_append (taken : List String) (first requests : List NameRequest) :
    (names taken (first ++ requests)).take first.length = names taken first := by
  induction first generalizing taken with
  | nil => rfl
  | cons request first ih =>
    rw [List.cons_append, names, names]
    split <;> rw [List.length_cons, List.take_succ_cons, ih]

theorem names_cons_some {request : NameRequest} {name : String} (h : request.label = some name) :
    names taken (request :: requests) = name :: names taken requests := by
  rw [names, h]

theorem names_cons_none {request : NameRequest} (h : request.label = none) :
    names taken (request :: requests) = fresh taken request.stem request.number ::
      names (fresh taken request.stem request.number :: taken) requests := by
  rw [names, h]

/-- A taken name is among the names only if it was asked for. -/
theorem mem_asked_of_mem_names {x : String} (hx : x ∈ names taken requests) (ht : x ∈ taken) :
    x ∈ asked requests :=
  (mem_names hx).resolve_right fun h => h.1 ht

/-- Two lists of taken names lead to the same names if neither has a name that is made up against
the other. -/
theorem names_eq_iff (h : asked requests ⊆ taken) (h' : asked requests ⊆ taken') :
    names taken requests = names taken' requests ↔
      (∀ x ∈ names taken requests, x ∉ asked requests → x ∉ taken') ∧
        ∀ x ∈ names taken' requests, x ∉ asked requests → x ∉ taken := by
  constructor
  · intro heq
    exact ⟨fun x hx hasked ht => hasked (mem_asked_of_mem_names (heq ▸ hx) ht),
      fun x hx hasked ht => hasked (mem_asked_of_mem_names (heq ▸ hx) ht)⟩
  · rintro ⟨hnew, hnew'⟩
    induction requests generalizing taken taken' with
    | nil => rfl
    | cons request requests ih =>
      cases hlabel : request.label with
      | some name =>
        simp only [names_cons_some hlabel, asked_cons_some hlabel, List.cons_subset]
          at h h' hnew hnew'
        rw [names_cons_some hlabel, names_cons_some hlabel]
        -- A name that is asked for is taken on both sides, so none of the others is equal to it.
        have hother : ∀ {t : List String} {x : String}, name ∈ t → x ∈ names t requests →
            x ∉ asked requests → x ∉ name :: asked requests := by
          intro t x hname hx hasked hmem
          rcases List.mem_cons.1 hmem with rfl | hmem
          · exact hasked (mem_asked_of_mem_names hx hname)
          · exact hasked hmem
        refine congrArg (name :: ·) (ih h.2 h'.2 (fun x hx hasked => ?_) fun x hx hasked => ?_)
        · exact hnew x (List.mem_cons_of_mem _ hx) (hother h.1 hx hasked)
        · exact hnew' x (List.mem_cons_of_mem _ hx) (hother h'.1 hx hasked)
      | none =>
        simp only [names_cons_none hlabel, asked_cons_none hlabel, List.forall_mem_cons]
          at h h' hnew hnew'
        rw [names_cons_none hlabel, names_cons_none hlabel]
        have hfresh := fresh_eq_iff.2 ⟨hnew.1 fun hx => fresh_notMem _ _ _ (h hx),
          hnew'.1 fun hx => fresh_notMem _ _ _ (h' hx)⟩
        rw [← hfresh] at hnew' ⊢
        generalize fresh taken request.stem request.number = name at hnew hnew' ⊢
        have hother : ∀ {t t' : List String} {x : String}, x ∈ names (name :: t) requests →
            x ∉ asked requests → x ∉ t' → x ∉ name :: t' := by
          intro t t' x hx hasked hnew hmem
          rcases List.mem_cons.1 hmem with rfl | hmem
          · exact hasked (mem_asked_of_mem_names hx List.mem_cons_self)
          · exact hnew hmem
        refine congrArg (name :: ·) (ih (List.subset_cons_of_subset _ h)
          (List.subset_cons_of_subset _ h') (fun x hx hasked => ?_) fun x hx hasked => ?_)
        · exact hother hx hasked (hnew.2 x hx hasked)
        · exact hother hx hasked (hnew'.2 x hx hasked)

end NameRequest

namespace Space

variable {s t : Space}

def paramNames (s : Space) : List String := s.namesOf s.names .param

/-- A name made up for a parameter of `s` is that of a dimension of a tuple of `t`. -/
def MeetsIn (s t : Space) : Prop :=
  ∃ x ∈ s.paramNames, some x ∉ s.params ∧ some x ∈ t.input.ids ++ t.output.ids

instance (s t : Space) : Decidable (s.MeetsIn t) :=
  inferInstanceAs (Decidable (∃ x ∈ s.paramNames, _))

def takenNames (s : Space) : List String := NameRequest.asked (NameRequest.settle [] s.allRequests)

theorem mem_takenNames {x : String} :
    x ∈ s.takenNames ↔ some x ∈ s.params ∨ some x ∈ s.input.ids ++ s.output.ids := by
  rw [takenNames, NameRequest.mem_asked_settle, NameRequest.mem_asked, allRequests,
    List.append_assoc]
  simp [labels]

theorem paramNames_eq (s : Space) :
    s.paramNames =
      NameRequest.names s.takenNames (NameRequest.settle [] (s.nameRequests .param)) := by
  obtain ⟨rest, hrest⟩ := NameRequest.exists_settle_append [] (s.nameRequests .param)
    (s.nameRequests .input ++ s.nameRequests .output)
  have hlen : s.dim .param = (NameRequest.settle [] (s.nameRequests .param)).length := by simp
  rw [paramNames, namesOf, names_eq, ← takenNames, allRequests, List.append_assoc, hrest, hlen]
  exact NameRequest.take_names_append _ _ _

theorem mem_asked_params {x : String} :
    x ∈ NameRequest.asked (NameRequest.settle [] (s.nameRequests .param)) ↔ some x ∈ s.params := by
  rw [NameRequest.mem_asked_settle, NameRequest.mem_asked, map_label_nameRequests]
  simp [labels]

/-- Spaces with the same parameters write them under the same names, unless a name made up for one
of them is in the way. -/
theorem paramNames_eq_iff (h : s.params = t.params) :
    s.paramNames = t.paramNames ↔ ¬s.MeetsIn t ∧ ¬t.MeetsIn s := by
  have hrequests : t.nameRequests .param = s.nameRequests .param := by
    rw [nameRequests, nameRequests, labels, labels, h]
    rfl
  have hsub : ∀ {u : Space}, u.params = s.params →
      NameRequest.asked (NameRequest.settle [] (s.nameRequests .param)) ⊆ u.takenNames := by
    intro u hu x hx
    rw [mem_asked_params, ← hu] at hx
    exact mem_takenNames.2 (.inl hx)
  have hmeets : ∀ {u w : Space}, u.params = s.params → w.params = s.params →
      ((∀ x ∈ u.paramNames,
        x ∉ NameRequest.asked (NameRequest.settle [] (s.nameRequests .param)) → x ∉ w.takenNames) ↔
          ¬u.MeetsIn w) := by
    intro u w hu hw
    rw [MeetsIn, hu]
    simp only [mem_asked_params, mem_takenNames, hw, not_exists, not_and, not_or]
    exact forall_congr' fun x => forall_congr' fun _ => forall_congr' fun hx => and_iff_right hx
  have hiff := NameRequest.names_eq_iff (hsub rfl) (hsub h.symm)
  rw [← paramNames_eq, ← hrequests, ← paramNames_eq, hrequests] at hiff
  rw [hiff, hmeets rfl h.symm, hmeets h.symm rfl]

end Space

namespace RelationUnion

variable {u : RelationUnion} {first m : Relation} {rest : List Relation}

theorem Built.pair (hparams : first.space.params = m.space.params)
    (hapart : first.space.agrees m.space = false) : Built ⟨[first, m]⟩ := by
  refine .insert (u := ⟨[first]⟩) (r := m) (.insert (r := first) .empty rfl) ?_
  exact insert_eq_ok_iff.2 ⟨by simpa using hparams,
    insertMember_of_apart (List.forall_mem_singleton.2 hapart)⟩

/-- In front of the braces stand the names that the first member makes for the parameters. A member
with conditions is written with the same names exactly if no name that either of the two makes up
is that of a dimension of the other. -/
theorem member_parameters_eq_header_iff (h : Built u) (hu : u.members = first :: rest)
    (hm : m ∈ u.members) :
    u.text = (if first.space.params.isEmpty then ""
        else "[" ++ ", ".intercalate first.space.paramNames ++ "] -> ") ++ "\x7b " ++
      "; ".intercalate (u.members.map fun m => Printer.relationBody m m.space.names) ++ " \x7d" ∧
      m.space.params = first.space.params ∧
      (m.space.namesOf m.space.names .param = first.space.paramNames ↔
        ¬m.space.MeetsIn first.space ∧ ¬first.space.MeetsIn m.space) := by
  have hparams := h.sameParams _ (List.mem_map_of_mem hm) _
    (List.mem_map_of_mem (hu ▸ List.mem_cons_self))
  refine ⟨?_, hparams, Space.paramNames_eq_iff hparams⟩
  rw [RelationUnion.text, hu]
  rfl

/-- The name `p1` of a dimension of `B` is not in the way of `p0`, and `N` is a parameter's own. -/
theorem member_parameters_eq_header_iff_twoMembers :
    let b : Relation := .full (.ofSet [none, some "N"] (.flat (some "B") [some "p1", some "N"]))
    let space : Space := .ofSet [none, some "N"] (.flat (some "A") [none])
    let a : Relation := ⟨space, [⟨.ofSpace space, [⟨[0, -1, 1, 0], .inequality⟩], false⟩]⟩
    Built ⟨[b, a]⟩ ∧ a ∈ [b, a] ∧
      text ⟨[b, a]⟩ = "[p0, N] -> \x7b B[p1, i1]; A[i0] : N >= p0 \x7d" ∧
      ¬a.space.MeetsIn b.space ∧ ¬b.space.MeetsIn a.space ∧
      a.space.namesOf a.space.names .param = b.space.paramNames := by
  intro b space a
  have hbuilt : Built ⟨[b, a]⟩ := .pair rfl rfl
  have hmem : a ∈ [b, a] := by simp
  obtain ⟨htext, -, hiff⟩ := member_parameters_eq_header_iff (m := a) hbuilt rfl hmem
  have hmeets : ¬a.space.MeetsIn b.space ∧ ¬b.space.MeetsIn a.space := by decide +kernel
  refine ⟨hbuilt, hmem, ?_, hmeets.1, hmeets.2, hiff.2 hmeets⟩
  rw [htext]
  decide +kernel

/-- The dimension `p0` of `B` makes the parameter `p1` in front of the braces, but in the condition
of `A` it is `p0`. -/
theorem member_parameters_differ :
    let b : Relation := .full (.ofSet [none] (.flat (some "B") [some "p0"]))
    let space : Space := .ofSet [none] (.flat (some "A") [none])
    let a : Relation := ⟨space, [⟨.ofSpace space, [⟨[0, 1, 0], .inequality⟩], false⟩]⟩
    Built ⟨[b, a]⟩ ∧ text ⟨[b, a]⟩ = "[p1] -> \x7b B[p0]; A[i0] : p0 >= 0 \x7d" ∧
      ¬∀ (u : RelationUnion) (first m : Relation) (rest : List Relation), Built u →
        u.members = first :: rest → m ∈ u.members →
          m.space.namesOf m.space.names .param = first.space.paramNames := by
  intro b space a
  have hbuilt : Built ⟨[b, a]⟩ := .pair rfl rfl
  refine ⟨hbuilt, by decide +kernel, fun h => ?_⟩
  have hsame := h ⟨[b, a]⟩ b a [a] hbuilt rfl (by simp)
  have hdiffer : ¬a.space.namesOf a.space.names .param = b.space.paramNames := by decide +kernel
  exact hdiffer hsame

end RelationUnion

end Quasiaffine
