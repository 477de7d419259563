import Quasiaffine.Reader.State

set_option autoImplicit false

namespace Quasiaffine

section Actions

variable {ε σ α β : Type} {pre pre' : σ → Prop} {post post' : α → σ → Prop} {next : β → σ → Prop}
  {fail fail' : ε → σ → Prop}

/-- Started where `pre` holds, an action ends with a result and a state of which `post` holds, or
with an error and a state of which `fail` holds. -/
def Ends (pre : σ → Prop) (m : ExceptT ε (StateM σ) α) (post : α → σ → Prop)
    (fail : ε → σ → Prop) : Prop :=
  ∀ s, pre s →
    match m s with
    | (.ok a, t) => post a t
    | (.error e, t) => fail e t

variable {m : ExceptT ε (StateM σ) α} {k : α → ExceptT ε (StateM σ) β}

theorem Ends.bind (hm : Ends pre m post fail) (hk : ∀ a, Ends (post a) (k a) next fail) :
    Ends pre (m >>= k) next fail := by
  intro s hs
  have hrun : (m >>= k) s = ExceptT.bindCont k (m s).1 (m s).2 := rfl
  have hm := hm s hs
  rw [hrun]
  cases hms : m s with
  | mk result t =>
    rw [hms] at hm
    cases result with
    | error e => exact hm
    | ok a => exact hk a t hm

theorem Ends.mono (hm : Ends pre m post fail) (hpre : ∀ s, pre' s → pre s)
    (hpost : ∀ a s, post a s → post' a s) (hfail : ∀ e s, fail e s → fail' e s) :
    Ends pre' m post' fail' := by
  intro s hs
  have hm := hm s (hpre s hs)
  cases hms : m s with
  | mk result t =>
    rw [hms] at hm
    cases result with
    | error e => exact hfail e t hm
    | ok a => exact hpost a t hm

theorem ends_pure {a : α} (h : ∀ s, pre s → post a s) :
    Ends pre (pure a : ExceptT ε (StateM σ) α) post fail := h

theorem ends_throw {e : ε} (h : ∀ s, pre s → fail e s) :
    Ends pre (throw e : ExceptT ε (StateM σ) α) post fail := h

theorem ends_modify {f : σ → σ} {post : Unit → σ → Prop} (h : ∀ s, pre s → post () (f s)) :
    Ends pre (modify f : ExceptT ε (StateM σ) Unit) post fail := h

theorem Ends.get_bind {k : σ → ExceptT ε (StateM σ) β}
    (h : ∀ s, pre s → Ends (fun t => t = s ∧ pre t) (k s) next fail) :
    Ends pre (get >>= k) next fail := fun s hs => h s hs s ⟨rfl, hs⟩

end Actions

theorem Reading.ends_tokens {α : Type} {pre : ReaderState → Prop} {action : Streaming α}
    {post : α → ReaderState → Prop} {fail : Stop → ReaderState → Prop}
    (h : ∀ s : ReaderState, pre s → Ends (· = s.stream) action
      (fun a stream => post a { s with stream })
      fun e stream => fail (.error e) { s with stream }) :
    Ends pre (tokens action) post fail := by
  intro s hs
  have h := h s hs s.stream rfl
  unfold tokens
  cases hrun : action s.stream with
  | mk result stream =>
    rw [hrun] at h
    cases result with
    | error e => exact h
    | ok a => exact h

end Quasiaffine
