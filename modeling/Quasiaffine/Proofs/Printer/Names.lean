import Quasiaffine.Printer.Expression
import Quasiaffine.Proofs.Token.Scanning

set_option autoImplicit false

namespace Quasiaffine

section Fresh

variable {taken : List String} {stem : String} {n : Nat}

theorem append_toString_injective (stem : String) :
    Function.Injective fun n : Nat => stem ++ toString n := by
  intro m n h
  have h : stem ++ toString m = stem ++ toString n := h
  rw [String.append_right_inj] at h
  exact Nat.repr_inj.1 h

/-- If all attempts are taken, there are more names taken than attempts. -/
theorem mem_of_freshFrom_mem {fuel : Nat} (h : freshFrom taken stem fuel n ∈ taken) :
    ∀ k ≤ fuel, stem ++ toString (n + k) ∈ taken := by
  induction fuel generalizing n with
  | zero =>
    intro k hk
    rw [Nat.le_zero.1 hk]
    exact h
  | succ fuel ih =>
    rw [freshFrom] at h
    split at h
    · rename_i hn
      rintro (_ | k) hk
      · simpa using hn
      · rw [Nat.add_comm k 1, ← Nat.add_assoc]
        exact ih h k (Nat.le_of_succ_le_succ hk)
    · rename_i hn
      exact absurd h (by simpa using hn)

theorem fresh_notMem (taken : List String) (stem : String) (n : Nat) :
    fresh taken stem n ∉ taken := by
  intro h
  have hall := mem_of_freshFrom_mem h
  have hsub : (List.range (taken.length + 1)).map (fun k => stem ++ toString (n + k)) ⊆ taken := by
    intro name hname
    obtain ⟨k, hk, rfl⟩ := List.mem_map.1 hname
    exact hall k (Nat.le_of_lt_succ (List.mem_range.1 hk))
  have hnodup : ((List.range (taken.length + 1)).map fun k => stem ++ toString (n + k)).Nodup :=
    List.nodup_range.map fun a b hab => Nat.add_left_cancel (append_toString_injective stem hab)
  have hle := (hnodup.subperm hsub).length_le
  rw [List.length_map, List.length_range] at hle
  omega

theorem freshFrom_eq (taken : List String) (stem : String) (fuel n : Nat) :
    ∃ k : Nat, freshFrom taken stem fuel n = stem ++ toString k := by
  induction fuel generalizing n with
  | zero => exact ⟨n, rfl⟩
  | succ fuel ih =>
    rw [freshFrom]
    split
    · exact ih (n + 1)
    · exact ⟨n, rfl⟩

def IsStem (stem : String) : Prop := ∃ c, stem.toList = [c] ∧ Text.isLetter c = true

theorem ofText?_eq_none {word : String} {a : Char} (ha : a ∈ word.toList) (hd : a.isDigit = true) :
    Keyword.ofText? word = none := by
  have hkeywords : ∀ k : Keyword, ∀ a ∈ k.text.toList, a.isDigit = false := by
    intro k
    cases k <;> simp [Keyword.text, Char.isDigit]
  refine List.find?_eq_none.2 fun k _ hk => ?_
  rw [beq_iff_eq] at hk
  rw [← hk] at ha
  rw [hkeywords k a ha] at hd
  cases hd

theorem isName_append_toString (hstem : IsStem stem) (n : Nat) : IsName (stem ++ toString n) := by
  -- A letter and a number are one name, because no keyword has a digit in it.
  obtain ⟨c, hstem, hc⟩ := hstem
  have hlist : (stem ++ toString n).toList = c :: (Nat.toDigits 10 n ++ []) := by
    rw [String.toList_append, hstem, Nat.toString_eq_repr, Nat.toList_repr, List.append_nil]
    rfl
  have hdigits : ∀ a ∈ Nat.toDigits 10 n, a.isDigit = true := fun a ha =>
    Nat.isDigit_of_mem_toDigits (by decide) (by decide) ha
  have hword : Lexeme.IsWord (stem ++ toString n).toList :=
    ⟨c, Nat.toDigits 10 n, [], hlist, Lexeme.isIdentifierStart_of_isLetter hc,
      fun a ha => Text.isIdentifierContinue_of_digit (Lexeme.isDigit_of_isDigit (hdigits a ha)),
      by simp⟩
  have hscan := Lexeme.scan_word [] hword (by simp)
  rw [List.append_nil, String.ofList_toList] at hscan
  obtain ⟨a, ha⟩ := List.exists_mem_of_ne_nil _ (Nat.toDigits_ne_nil (n := n) (b := 10))
  have hnone : Keyword.ofText? (stem ++ toString n) = none :=
    ofText?_eq_none (by rw [hlist]; simp [ha]) (hdigits a ha)
  rw [IsName, hscan, Lexeme.ofWord, hnone]

end Fresh

namespace NameRequest

variable {taken : List String} {requests : List NameRequest}

def asked (requests : List NameRequest) : List String := requests.filterMap label

theorem mem_asked {name : String} : name ∈ asked requests ↔ some name ∈ requests.map label := by
  simp [asked]

@[simp] theorem asked_cons_none {request : NameRequest} (h : request.label = none) :
    asked (request :: requests) = asked requests :=
  List.filterMap_cons_none h

@[simp] theorem asked_cons_some {request : NameRequest} {name : String}
    (h : request.label = some name) : asked (request :: requests) = name :: asked requests :=
  List.filterMap_cons_some h

@[simp] theorem length_settle (taken : List String) (requests : List NameRequest) :
    (settle taken requests).length = requests.length := by
  induction requests generalizing taken with
  | nil => rfl
  | cons request requests ih =>
    rw [settle]
    split
    · simp [ih]
    · split <;> simp [ih]

@[simp] theorem map_stem_settle (taken : List String) (requests : List NameRequest) :
    (settle taken requests).map stem = requests.map stem := by
  induction requests generalizing taken with
  | nil => rfl
  | cons request requests ih =>
    rw [settle]
    split
    · simp [ih]
    · split <;> simp [ih]

theorem nodup_asked_settle (taken : List String) (requests : List NameRequest) :
    (asked (settle taken requests)).Nodup ∧ ∀ name ∈ asked (settle taken requests), name ∉ taken := by
  induction requests generalizing taken with
  | nil => simp [settle, asked]
  | cons request requests ih =>
    rw [settle]
    split
    · rename_i hlabel
      rw [asked_cons_none hlabel]
      exact ih taken
    · rename_i name hlabel
      split
      · rw [asked_cons_none rfl]
        exact ih taken
      · rename_i hname
        obtain ⟨hnodup, hnew⟩ := ih (name :: taken)
        rw [asked_cons_some hlabel, List.nodup_cons, List.forall_mem_cons]
        refine ⟨⟨fun h => hnew name h List.mem_cons_self, hnodup⟩, by simpa using hname, ?_⟩
        exact fun x hx hx' => hnew x hx (List.mem_cons_of_mem _ hx')

theorem asked_settle_subset (taken : List String) (requests : List NameRequest) :
    asked (settle taken requests) ⊆ asked requests := by
  induction requests generalizing taken with
  | nil => exact List.Subset.refl _
  | cons request requests ih =>
    rw [settle]
    split
    · rename_i hlabel
      rw [asked_cons_none hlabel, asked_cons_none hlabel]
      exact ih taken
    · rename_i name hlabel
      rw [asked_cons_some hlabel]
      split
      · rw [asked_cons_none rfl]
        exact List.subset_cons_of_subset _ (ih taken)
      · rw [asked_cons_some hlabel]
        exact List.cons_subset_cons _ (ih _)

@[simp] theorem length_names (taken : List String) (requests : List NameRequest) :
    (names taken requests).length = requests.length := by
  induction requests generalizing taken with
  | nil => rfl
  | cons request requests ih =>
    rw [names]
    split <;> simp [ih]

/-- A name is one that was asked for, or one made up that was not taken. -/
theorem mem_names {name : String} (h : name ∈ names taken requests) : name ∈ asked requests ∨
    name ∉ taken ∧ ∃ request ∈ requests, ∃ n : Nat, name = request.stem ++ toString n := by
  induction requests generalizing taken with
  | nil => simp [names] at h
  | cons request requests ih =>
    rw [names] at h
    split at h
    · rename_i x hlabel
      rw [asked_cons_some hlabel]
      rcases List.mem_cons.1 h with rfl | h
      · exact .inl List.mem_cons_self
      · refine (ih h).imp (List.mem_cons_of_mem _) (And.imp_right ?_)
        rintro ⟨r, hr, hn⟩
        exact ⟨r, List.mem_cons_of_mem _ hr, hn⟩
    · rename_i hlabel
      rw [asked_cons_none hlabel]
      rcases List.mem_cons.1 h with rfl | h
      · exact .inr ⟨fresh_notMem _ _ _, request, List.mem_cons_self, freshFrom_eq _ _ _ _⟩
      · refine (ih h).imp_right fun ⟨hnew, r, hr, hn⟩ => ?_
        exact ⟨fun hx => hnew (List.mem_cons_of_mem _ hx), r, List.mem_cons_of_mem _ hr, hn⟩

theorem asked_subset_names (taken : List String) (requests : List NameRequest) :
    asked requests ⊆ names taken requests := by
  induction requests generalizing taken with
  | nil => exact List.Subset.refl _
  | cons request requests ih =>
    rw [names]
    split
    · rename_i name hlabel
      rw [asked_cons_some hlabel]
      exact List.cons_subset_cons _ (ih taken)
    · rename_i hlabel
      rw [asked_cons_none hlabel]
      exact List.subset_cons_of_subset _ (ih _)

/-- The first of equal requests is met. -/
theorem mem_asked_settle {name : String} :
    name ∈ asked (settle taken requests) ↔ name ∈ asked requests ∧ name ∉ taken := by
  refine ⟨fun h => ⟨asked_settle_subset _ _ h, (nodup_asked_settle _ _).2 name h⟩, ?_⟩
  rintro ⟨h, hnew⟩
  induction requests generalizing taken with
  | nil => exact h
  | cons request requests ih =>
    rw [settle]
    split
    · rename_i hlabel
      rw [asked_cons_none hlabel] at h ⊢
      exact ih h hnew
    · rename_i x hlabel
      rw [asked_cons_some hlabel] at h
      split
      · rename_i hx
        rw [asked_cons_none rfl]
        refine ih ((List.mem_cons.1 h).resolve_left ?_) hnew
        rintro rfl
        exact hnew (by simpa using hx)
      · rw [asked_cons_some hlabel, List.mem_cons]
        by_cases hname : name = x
        · exact .inl hname
        · exact .inr (ih ((List.mem_cons.1 h).resolve_left hname) (by simp [hname, hnew]))

/-- Different names are made if different names are asked for and all of these are taken. -/
theorem nodup_names (h : (asked requests).Nodup) (hsub : asked requests ⊆ taken) :
    (names taken requests).Nodup := by
  induction requests generalizing taken with
  | nil => exact List.nodup_nil
  | cons request requests ih =>
    rw [names]
    split
    · rename_i name hlabel
      rw [asked_cons_some hlabel] at h hsub
      rw [List.nodup_cons] at h ⊢
      refine ⟨fun hname => ?_, ih h.2 fun x hx => hsub (List.mem_cons_of_mem _ hx)⟩
      rcases mem_names hname with hasked | ⟨hnew, -⟩
      · exact h.1 hasked
      · exact hnew (hsub List.mem_cons_self)
    · rename_i hlabel
      rw [asked_cons_none hlabel] at h hsub
      have hfresh := fresh_notMem taken request.stem request.number
      refine List.nodup_cons.2 ⟨fun hname => ?_, ih h (List.subset_cons_of_subset _ hsub)⟩
      rcases mem_names hname with hasked | ⟨hnew, -⟩
      · exact hfresh (hsub hasked)
      · exact hnew List.mem_cons_self

theorem settle_append {first : List NameRequest} {xs : List String}
    (hfirst : first.map label = xs.map some) (hnodup : xs.Nodup) (hnew : ∀ x ∈ xs, x ∉ taken)
    (requests : List NameRequest) :
    ∃ rest, settle taken (first ++ requests) = first ++ rest := by
  induction first generalizing taken xs with
  | nil => exact ⟨_, rfl⟩
  | cons request first ih =>
    cases xs with
    | nil => cases hfirst
    | cons x xs =>
      obtain ⟨hlabel, hfirst⟩ := List.cons.inj hfirst
      rw [List.nodup_cons] at hnodup
      rw [List.forall_mem_cons] at hnew
      have hrestNew : ∀ y ∈ xs, y ∉ x :: taken := fun y hy => by
        rw [List.mem_cons, not_or]
        exact ⟨fun h => hnodup.1 (h ▸ hy), hnew.2 y hy⟩
      obtain ⟨rest, hrest⟩ := ih hfirst hnodup.2 hrestNew
      refine ⟨rest, ?_⟩
      rw [List.cons_append, settle, hlabel]
      simp [hnew.1, hrest]

theorem names_append {first : List NameRequest} {xs : List String}
    (hfirst : first.map label = xs.map some) (requests : List NameRequest) :
    names taken (first ++ requests) = xs ++ names taken requests := by
  induction first generalizing xs with
  | nil =>
    obtain rfl := List.map_eq_nil_iff.1 hfirst.symm
    rfl
  | cons request first ih =>
    cases xs with
    | nil => cases hfirst
    | cons x xs =>
      obtain ⟨hlabel, hfirst⟩ := List.cons.inj hfirst
      rw [List.cons_append, names, hlabel]
      simp [ih hfirst]

end NameRequest

namespace Space

variable {s : Space} {kind : DimKind}

theorem isStem_stem (s : Space) (kind : DimKind) : IsStem (s.stem kind) := by
  have hp : IsStem "p" := ⟨'p', rfl, by decide⟩
  have hi : IsStem "i" := ⟨'i', rfl, by decide⟩
  have ho : IsStem "o" := ⟨'o', rfl, by decide⟩
  cases kind with
  | param => exact hp
  | output =>
    rw [stem]
    split
    · exact hi
    · exact ho
  | _ => exact hi

@[simp] theorem map_label_nameRequests (s : Space) (kind : DimKind) :
    (s.nameRequests kind).map NameRequest.label = s.labels kind :=
  List.ext_getElem (by simp [nameRequests]) (by simp [nameRequests])

@[simp] theorem length_nameRequests (s : Space) (kind : DimKind) :
    (s.nameRequests kind).length = s.dim kind := by
  simp [nameRequests, dim]

def allRequests (s : Space) : List NameRequest :=
  s.nameRequests .param ++ s.nameRequests .input ++ s.nameRequests .output

theorem names_eq (s : Space) : s.names =
    NameRequest.names (NameRequest.asked (NameRequest.settle [] s.allRequests))
      (NameRequest.settle [] s.allRequests) := rfl

theorem length_names (s : Space) : s.names.length = s.total := by
  rw [names_eq, NameRequest.length_names, NameRequest.length_settle, allRequests]
  simp [total, dim, labels, Tuple.size, Nat.add_assoc]

theorem nodup_names (s : Space) : s.names.Nodup :=
  NameRequest.nodup_names (NameRequest.nodup_asked_settle [] _).1 (List.Subset.refl _)

theorem isStem_of_mem_settle {request : NameRequest}
    (h : request ∈ NameRequest.settle [] s.allRequests) : IsStem request.stem := by
  have hstem := List.mem_map_of_mem (f := NameRequest.stem) h
  rw [NameRequest.map_stem_settle, allRequests] at hstem
  simp only [List.map_append, List.mem_append, List.mem_map, nameRequests, List.mem_mapIdx] at hstem
  obtain (⟨_, ⟨i, hi, rfl⟩, hr⟩ | ⟨_, ⟨i, hi, rfl⟩, hr⟩) | ⟨_, ⟨i, hi, rfl⟩, hr⟩ := hstem <;>
    exact hr ▸ s.isStem_stem _

/-- Every dimension is written under one name if the names that dimensions have are such. -/
theorem isName_of_mem_names (h : ∀ x, some x ∈ s.params ++ s.input.ids ++ s.output.ids → IsName x)
    {name : String} (hname : name ∈ s.names) : IsName name := by
  rw [names_eq] at hname
  rcases NameRequest.mem_names hname with hasked | ⟨-, request, hr, n, rfl⟩
  · have hmem := NameRequest.mem_asked.1 (NameRequest.asked_settle_subset _ _ hasked)
    rw [allRequests, List.map_append, List.map_append, map_label_nameRequests,
      map_label_nameRequests, map_label_nameRequests] at hmem
    exact h name hmem
  · exact isName_append_toString (isStem_of_mem_settle hr) n

theorem mem_names_of_label {x : String} (h : some x ∈ s.params ++ s.input.ids ++ s.output.ids) :
    x ∈ s.names := by
  rw [names_eq]
  refine NameRequest.asked_subset_names _ _
    (NameRequest.mem_asked_settle.2 ⟨?_, List.not_mem_nil⟩)
  rw [NameRequest.mem_asked, allRequests, List.map_append, List.map_append, map_label_nameRequests,
    map_label_nameRequests, map_label_nameRequests]
  exact h

theorem take_names {xs : List String} (hparams : s.params = xs.map some) (hnodup : xs.Nodup) :
    s.names.take s.params.length = xs := by
  have hfirst : (s.nameRequests .param).map NameRequest.label = xs.map some :=
    (s.map_label_nameRequests .param).trans hparams
  have hnew : ∀ x ∈ xs, x ∉ ([] : List String) := fun _ _ => List.not_mem_nil
  obtain ⟨rest, hrest⟩ := NameRequest.settle_append hfirst hnodup hnew
    (s.nameRequests .input ++ s.nameRequests .output)
  rw [names_eq, allRequests, List.append_assoc, hrest, NameRequest.names_append hfirst, hparams,
    List.length_map, List.take_left]

end Space

end Quasiaffine
