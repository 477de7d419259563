import Quasiaffine.Proofs.Reader.Separation
import Quasiaffine.Proofs.Relation.Alike

/-!
Sorting divisions does not change what is read. A reading that sorts and one that does not go
through the same states; what they have built in one of them differs in how divisions are arranged
only, and the rest of the reading does not see that.
-/

set_option autoImplicit false

namespace Quasiaffine

section Actions

variable {ε σ α β γ δ : Type} {I : σ → Prop} {R : α → β → Prop} {S : γ → δ → Prop}

/-- Started in the same state, where `I` holds, two actions stop with the same error in the same
state, or they end in the same state, where `I` holds, with related results. -/
def Matches (I : σ → Prop) (R : α → β → Prop) (m : ExceptT ε (StateM σ) α)
    (m' : ExceptT ε (StateM σ) β) : Prop :=
  ∀ s, I s → (m' s).2 = (m s).2 ∧ SameOutcome (fun a b => I (m s).2 ∧ R a b) (m s).1 (m' s).1

variable {m : ExceptT ε (StateM σ) α} {m' : ExceptT ε (StateM σ) β}
  {k : α → ExceptT ε (StateM σ) γ} {k' : β → ExceptT ε (StateM σ) δ}

theorem Matches.bind (h : Matches I R m m') (hk : ∀ a b, R a b → Matches I S (k a) (k' b)) :
    Matches I S (m >>= k) (m' >>= k') := by
  intro s hs
  have hrun : (m >>= k) s = ExceptT.bindCont k (m s).1 (m s).2 := rfl
  have hrun' : (m' >>= k') s = ExceptT.bindCont k' (m' s).1 (m' s).2 := rfl
  obtain ⟨hstate, hresult⟩ := h s hs
  rw [hrun, hrun', hstate]
  generalize (m s).1 = x at hresult
  generalize (m' s).1 = y at hresult
  cases hresult with
  | ok hab => exact hk _ _ hab.2 _ hab.1
  | error e => exact ⟨rfl, .error e⟩

theorem Keeps.matches_bind {post : α → Prop} {k' : α → ExceptT ε (StateM σ) δ}
    (h : Keeps I m post) (hk : ∀ a, post a → Matches I S (k a) (k' a)) :
    Matches I S (m >>= k) (m >>= k') := by
  refine Matches.bind (R := fun a b => b = a ∧ post a) (fun s hs => ⟨rfl, ?_⟩) ?_
  · have h := h s hs
    cases hm : (m s).1 with
    | ok a => exact .ok ⟨(h a hm).1, rfl, (h a hm).2⟩
    | error e => exact .error e
  · rintro _ a ⟨rfl, ha⟩
    exact hk _ ha

theorem matches_pure {a : α} {b : β} (h : R a b) :
    Matches I R (pure a : ExceptT ε (StateM σ) α) (pure b) :=
  fun _ hs => ⟨rfl, .ok ⟨hs, h⟩⟩

theorem matches_throw (e : ε) : Matches I R (throw e : ExceptT ε (StateM σ) α) (throw e) :=
  fun _ _ => ⟨rfl, .error e⟩

end Actions

namespace Grammar

open Reading

abbrev Agree {α β : Type} (R : α → β → Prop) (m : Reading α) (m' : Reading β) : Prop :=
  Matches (fun s => s.stream.Sound) R m m'

theorem agree_check {α β : Type} {R : α → β → Prop} {r : Except Error α} {r' : Except Error β}
    (h : SameOutcome R r r') : Agree R (check r) (check r') := by
  cases h with
  | ok hab => exact matches_pure hab
  | error e => exact matches_throw _

variable (config config' : Config) (depth : Nat) {params : Relation}

theorem agree_body (hp : params.Plain) :
    Agree Relation.Alike (body config depth params) (body config' depth params) := by
  refine (keeps_inScope (keeps_located depth hp)).matches_bind fun read ⟨hset, hspace⟩ => ?_
  have hreset : KeepsSound (check (read.set.resetSpace read.space)) Relation.WellFormed :=
    keeps_check fun _ hok => (hset.wellFormed.resetSpace hspace hok).2.1
  refine hreset.matches_bind fun r hr => matches_pure ?_
  have hsort := Relation.alike_sortDivs hr
  cases config.sortDivs <;> cases config'.sortDivs
  · exact .refl r
  · exact hsort
  · exact hsort.symm
  · exact .refl r.sortDivs

theorem agree_moreBodies (hp : params.Plain) {o o' : Object} (ho : o.Alike o') :
    Agree Object.Alike (moreBodies config params depth o) (moreBodies config' params depth o') := by
  induction depth generalizing o o' with
  | zero => exact matches_throw _
  | succ depth ih =>
    rw [moreBodies, moreBodies]
    refine keeps_enter.matches_bind fun _ _ => keeps_eatIf.matches_bind fun b _ => ?_
    split
    · refine keeps_nextIs.matches_bind fun b _ => ?_
      split
      · exact matches_pure ho
      · exact keeps_peek.matches_bind fun start _ => (agree_body config config' depth hp).bind
          fun r r' hr => (agree_check (ho.insert hr start.span)).bind fun _ _ h => ih h
    · exact matches_pure ho

theorem agree_bodies (hp : params.Plain) :
    Agree Object.Alike (bodies config depth params) (bodies config' depth params) :=
  (agree_body config config' depth hp).bind fun _ _ hfirst =>
    (agree_moreBodies config config' depth hp (.relation hfirst)).bind fun _ _ ho =>
      keeps_expectMark.matches_bind fun _ _ => keeps_expectEnd.matches_bind fun _ _ =>
        matches_pure ho

theorem agree_object : Agree Object.Alike (object config depth) (object config' depth) := by
  refine (keeps_parameters depth).matches_bind fun params hp => keeps_expectMark.matches_bind
    fun _ _ => keeps_next.matches_bind fun t ht => ?_
  split
  · exact keeps_expectMark.matches_bind fun _ _ => (keeps_tuple depth (.inl rfl) hp).matches_bind
      fun shaped hshaped => agree_bodies config config' depth hshaped
  · exact keeps_expectEnd.matches_bind fun _ _ => matches_pure (.union .nil)
  · exact (keeps_push ht).matches_bind fun _ _ => agree_bodies config config' depth hp

end Grammar

/-- A text is read under two configurations with the same warnings and with the same error or two
objects over the same spaces, whose basic relations have the same points one by one. -/
theorem Reader.object_alike (config config' : Config) (source : String) :
    (object config' source).final = (object config source).final ∧
      SameOutcome Object.Alike (object config source).result (object config' source).result := by
  have hsound : (initial source).stream.Sound := by
    simp [initial, TokenStream.ofText, TokenStream.Sound]
  obtain ⟨hfinal, hresult⟩ :=
    Grammar.agree_object config config' (depthFor source) (initial source) hsound
  exact ⟨hfinal, hresult.imp fun _ _ h => h.2⟩

end Quasiaffine
