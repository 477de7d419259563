import Quasiaffine.Proofs.Reader.Ends

set_option autoImplicit false

namespace Quasiaffine

namespace TokenStream

def maxWaiting : Nat := 2

structure Room (n : Nat) (s : TokenStream) : Prop where
  waiting : s.waiting.length ≤ n
  most : s.mostWaiting ≤ maxWaiting

theorem Room.mono {n k : Nat} {s : TokenStream} (h : s.Room n) (hle : n ≤ k) : s.Room k :=
  ⟨Nat.le_trans h.waiting hle, h.most⟩

/-- Started with at most `n` tokens waiting, an action leaves at most `k`, and never has more waiting
than may. -/
def Waits {α : Type} (n : Nat) (m : Streaming α) (k : Nat) : Prop :=
  Ends (Room n) m (fun _ => Room k) fun _ s => s.mostWaiting ≤ maxWaiting

variable {α β : Type} {n k l : Nat} {t : Token} {kind : TokenKind} {m : Streaming α}
  {f : α → Streaming β}

theorem Waits.bind (hm : Waits n m k) (hf : ∀ a, Waits k (f a) l) : Waits n (m >>= f) l :=
  Ends.bind hm hf

theorem waits_pure {a : α} (h : n ≤ k) : Waits n (pure a) k := ends_pure fun _ hs => hs.mono h

theorem waits_throw {e : Error} : Waits n (throw e : Streaming α) k := ends_throw fun _ hs => hs.most

theorem Waits.mono {n' k' : Nat} (h : Waits n m k) (hn : n' ≤ n) (hk : k ≤ k') : Waits n' m k' :=
  Ends.mono h (fun _ hs => hs.mono hn) (fun _ _ hs => hs.mono hk) fun _ _ hs => hs

theorem length_waiting_of_next {s s' : TokenStream} (h : next s = (.ok t, s')) :
    s'.waiting.length = s.waiting.length - 1 := by
  obtain ⟨cursor, waiting, most⟩ := s
  unfold next at h
  cases waiting with
  | cons t waiting => exact (Prod.mk.inj h).2 ▸ rfl
  | nil => exact (Prod.mk.inj h).2 ▸ rfl

theorem waits_next : Waits n next (n - 1) := by
  rintro ⟨cursor, waiting, most⟩ hs
  unfold next
  cases waiting with
  | cons t waiting => exact ⟨Nat.le_sub_one_of_lt hs.waiting, hs.most⟩
  | nil =>
    dsimp only
    cases (read cursor).1 with
    | error e => exact hs.most
    | ok t => exact ⟨Nat.zero_le _, hs.most⟩

theorem waits_push (h : n < maxWaiting) : Waits n (push t) (n + 1) :=
  ends_modify fun _ hs => ⟨Nat.succ_le_succ hs.waiting,
    Nat.max_le.2 ⟨hs.most, Nat.le_trans (Nat.succ_le_succ hs.waiting) h⟩⟩

theorem waits_nextIs (h : n - 1 < maxWaiting) : Waits n (nextIs kind) (n - 1 + 1) :=
  waits_next.bind fun _ => (waits_push h).bind fun _ => waits_pure (Nat.le_refl _)

/-- One token less waits if the token is taken. -/
theorem ends_eatIf (h : n - 1 < maxWaiting) :
    Ends (Room n) (eatIf kind) (fun taken => Room (if taken then n - 1 else n - 1 + 1))
      fun _ s => s.mostWaiting ≤ maxWaiting := by
  refine Ends.bind waits_next fun t => ?_
  split
  · exact ends_pure fun _ hs => hs
  · exact Ends.bind (waits_push h) fun _ => ends_pure fun _ hs => hs

theorem waits_expect : Waits n (expect kind) (n - 1) := by
  refine waits_next.bind fun t => ?_
  split
  · exact waits_pure (Nat.le_refl _)
  · exact waits_throw

theorem waits_restore {saved : TokenStream} (h : saved.Room k) : Waits n (restore saved) k :=
  ends_modify fun _ hs => ⟨h.waiting, hs.most⟩

theorem waits_lookingAhead (h : Waits n m k) : Waits n (lookingAhead m) n :=
  Ends.get_bind fun _ hs =>
    Ends.bind (Ends.mono h (fun _ ht => ht.2) (fun _ _ ht => ht) fun _ _ ht => ht) fun _ =>
      (waits_restore hs).bind fun _ => waits_pure (Nat.le_refl _)

end TokenStream

namespace Reading

open TokenStream (Room maxWaiting)

def Waits {α : Type} (n : Nat) (m : Reading α) (k : Nat) : Prop :=
  Ends (fun s => s.stream.Room n) m (fun _ s => s.stream.Room k)
    fun _ s => s.stream.mostWaiting ≤ maxWaiting

variable {α β : Type} {n k l : Nat} {t : Token} {kind : TokenKind} {mark : Mark} {m : Reading α}
  {f : α → Reading β}

theorem Waits.bind (hm : Waits n m k) (hf : ∀ a, Waits k (f a) l) : Waits n (m >>= f) l :=
  Ends.bind hm hf

theorem Waits.mono {n' k' : Nat} (h : Waits n m k) (hn : n' ≤ n) (hk : k ≤ k') : Waits n' m k' :=
  Ends.mono h (fun _ hs => hs.mono hn) (fun _ _ hs => hs.mono hk) fun _ _ hs => hs

theorem Waits.from {n' : Nat} (h : Waits n m k) (hn : n' ≤ n) : Waits n' m k :=
  h.mono hn (Nat.le_refl k)

theorem Waits.to {k' : Nat} (h : Waits n m k) (hk : k ≤ k') : Waits n m k' :=
  h.mono (Nat.le_refl n) hk

theorem waits_pure {a : α} (h : n ≤ k) : Waits n (pure a) k := ends_pure fun _ hs => hs.mono h

theorem waits_stop {e : Error} : Waits n (stop e : Reading α) k := ends_throw fun _ hs => hs.most

theorem waits_stop_bind {e : Error} : Waits n (stop e >>= f) k := by
  have hstop : Ends (fun s => s.stream.Room n) (stop e : Reading α) (fun _ _ => False)
      fun _ s => s.stream.mostWaiting ≤ maxWaiting := ends_throw fun _ hs => hs.most
  exact Ends.bind hstop fun _ _ h => h.elim

theorem waits_exhausted : Waits n (throw .exhausted : Reading α) k := ends_throw fun _ hs => hs.most

theorem waits_check {r : Except Error α} : Waits n (check r) n := by
  cases r with
  | ok a => exact waits_pure (Nat.le_refl n)
  | error e => exact waits_stop

theorem waits_tokens {action : Streaming α} (h : TokenStream.Waits n action k) :
    Waits n (tokens action) k := by
  refine ends_tokens fun s hs => Ends.mono h ?_ (fun _ _ ht => ht) fun _ _ ht => ht
  rintro _ rfl
  exact hs

theorem waits_enter : Waits n enter n := ends_modify fun _ hs => hs

theorem waits_warn : Waits n warn n := ends_modify fun _ hs => hs

theorem waits_next : Waits n next (n - 1) := waits_tokens TokenStream.waits_next

theorem waits_push (h : n < maxWaiting) : Waits n (push t) (n + 1) :=
  waits_tokens (TokenStream.waits_push h)

theorem waits_again (h : n < maxWaiting) : Waits n (again t) n :=
  (waits_push h).bind fun _ => waits_next.bind fun _ => waits_pure (Nat.le_refl n)

theorem waits_peek (h : n - 1 < maxWaiting) : Waits n peek (n - 1 + 1) :=
  waits_next.bind fun _ => (waits_push h).bind fun _ => waits_pure (Nat.le_refl _)

theorem waits_nextIs (h : n - 1 < maxWaiting) : Waits n (nextIs kind) (n - 1 + 1) :=
  waits_tokens (TokenStream.waits_nextIs h)

theorem waits_eatIf_bind {a b : Reading α} (h : n - 1 < maxWaiting) (ha : Waits (n - 1) a k)
    (hb : Waits (n - 1 + 1) b k) :
    Waits n (eatIf kind >>= fun taken => if taken = true then a else b) k := by
  have heat : Ends (fun s => s.stream.Room n) (eatIf kind)
      (fun taken s => s.stream.Room (if taken then n - 1 else n - 1 + 1))
      fun _ s => s.stream.mostWaiting ≤ maxWaiting := by
    refine ends_tokens fun s hs => Ends.mono (TokenStream.ends_eatIf h) ?_ (fun _ _ ht => ht)
      fun _ _ ht => ht
    rintro _ rfl
    exact hs
  refine Ends.bind heat fun taken => ?_
  cases taken with
  | true => exact ha
  | false => exact hb

theorem waits_eatIf (h : n - 1 < maxWaiting) : Waits n (eatIf kind) (n - 1 + 1) := by
  refine waits_tokens (Ends.mono (TokenStream.ends_eatIf h) (fun _ hs => hs) (fun taken _ hs => ?_)
    fun _ _ hs => hs)
  cases taken with
  | true => exact hs.mono (Nat.le_succ _)
  | false => exact hs

theorem waits_expect : Waits n (expect kind) (n - 1) := waits_tokens TokenStream.waits_expect

theorem waits_expectMark : Waits n (expectMark mark) (n - 1) :=
  waits_expect.bind fun _ => waits_pure (Nat.le_refl _)

theorem Waits.get_bind {f : ReaderState → Reading β}
    (h : ∀ s, s.stream.Room n → Waits n (f s) k) : Waits n (get >>= f) k :=
  Ends.get_bind fun s hs => Ends.mono (h s hs) (fun _ ht => ht.2) (fun _ _ ht => ht) fun _ _ ht => ht

theorem waits_position? {name : String} : Waits n (position? name) n :=
  Waits.get_bind fun _ _ => waits_pure (Nat.le_refl n)

theorem waits_scope (f : Scope → Scope) :
    Waits n (modify fun s => { s with scope := f s.scope }) n := ends_modify fun _ hs => hs

theorem waits_declare {label : Label} : Waits n (declare label) n :=
  Waits.get_bind fun _ _ => (waits_scope (·.declare label)).bind fun _ => waits_pure (Nat.le_refl n)

theorem waits_inScope (h : Waits n m k) : Waits n (inScope m) k :=
  Waits.get_bind fun s _ => h.bind fun _ =>
    (waits_scope (·.rollback s.scope.size)).bind fun _ => waits_pure (Nat.le_refl k)

end Reading

end Quasiaffine
