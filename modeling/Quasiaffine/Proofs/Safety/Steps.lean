import Quasiaffine.Proofs.Reader.Ends
import Quasiaffine.Proofs.Safety.Operations
import Quasiaffine.Reader.Shape

/-!
Actions of the reader that do not stop for arguments that do not fit together. All rests on what
waits in the stream: a token that stands for something read before waits in front of all others, and
what it stands for lies over the space of the variables in scope.
-/

set_option autoImplicit false

namespace Quasiaffine

def Lexeme.Fits (F : Frame) : Lexeme → Prop
  | expression f => f.LiesOver F
  | condition r => r.LiesOver F
  | _ => True

/-- Whether the first token that waits may stand for something read before. -/
inductive Front where
  | plain
  | any

def Front.Allows (F : Frame) : Front → Lexeme → Prop
  | plain, l => l.isPlaceholder = false
  | any, l => l.Fits F

theorem Front.allows_of_not_isPlaceholder {F : Frame} (front : Front) {l : Lexeme}
    (h : l.isPlaceholder = false) : front.Allows F l := by
  cases front with
  | plain => exact h
  | any =>
    cases l with
    | expression | condition => cases h
    | _ => trivial

def Stop.Ordinary : Stop → Prop
  | error e => e.Ordinary
  | exhausted => True

namespace TokenStream

/-- The first token that waits is as `front` says, and no other stands for something read before. -/
structure Fronted (F : Frame) (front : Front) (s : TokenStream) : Prop where
  first : ∀ t ∈ s.waiting.head?, front.Allows F t.lexeme
  rest : ∀ t ∈ s.waiting.tail, t.lexeme.isPlaceholder = false

variable {F G : Frame} {front : Front} {s : TokenStream}

theorem Fronted.plain (h : ∀ t ∈ s.waiting, t.lexeme.isPlaceholder = false) :
    s.Fronted F .plain :=
  ⟨fun t ht => h t (List.mem_of_mem_head? ht), fun t ht => h t (List.mem_of_mem_tail ht)⟩

theorem Fronted.not_isPlaceholder (h : s.Fronted F .plain) :
    ∀ t ∈ s.waiting, t.lexeme.isPlaceholder = false := by
  obtain ⟨cursor, _ | ⟨t, waiting⟩, most⟩ := s
  · simp
  · exact List.forall_mem_cons.2 ⟨h.first t rfl, h.rest⟩

theorem Fronted.change (h : s.Fronted F .plain) : s.Fronted G .plain :=
  .plain h.not_isPlaceholder

/-- Only texts are read wrongly, never arguments. -/
theorem ordinary_read {c : Cursor} {e : Error} (h : (read c).1 = .error e) : e.Ordinary := by
  have hnext : ∀ {c : Cursor} {e : Error}, c.next.1 = .error e → e.Ordinary := by
    intro c e h
    simp only [Cursor.next] at h
    split at h
    · cases h
    · exact Except.error.inj h ▸ trivial
  simp only [read] at h
  split at h
  · rename_i hc
    exact Except.error.inj h ▸ hnext (by rw [hc])
  · split at h
    · split at h
      · split at h
        · simp only [power] at h
          split at h
          · rename_i hc
            exact Except.error.inj h ▸ hnext (by rw [hc])
          · split at h
            · cases h
            · exact Except.error.inj h ▸ trivial
        · cases h
      · cases h
    · cases h

def Safe (F : Frame) (front : Front) {α : Type} (m : Streaming α) (Q : α → Front → Prop) : Prop :=
  Ends (Fronted F front) m (fun a s => ∃ front', Q a front' ∧ s.Fronted F front') fun e _ => e.Ordinary

variable {α β : Type} {m : Streaming α} {k : α → Streaming β} {Q : α → Front → Prop}
  {P : β → Front → Prop} {kind : TokenKind}

theorem Safe.bind (hm : Safe F front m Q) (hk : ∀ a front', Q a front' → Safe F front' (k a) P) :
    Safe F front (m >>= k) P :=
  Ends.bind hm fun a s ⟨front', hQ, hs⟩ => hk a front' hQ s hs

theorem safe_pure {a : α} (h : Q a front) : Safe F front (pure a) Q := fun _ hs => ⟨front, h, hs⟩

theorem safe_next : Safe F front next fun t front' => front.Allows F t.lexeme ∧ front' = .plain := by
  intro s hs
  cases hw : s.waiting with
  | cons t waiting =>
    have hrest := hs.rest
    rw [hw] at hrest
    simp only [next, hw]
    exact ⟨.plain, ⟨hs.first t (by rw [hw]; rfl), rfl⟩, .plain hrest⟩
  | nil =>
    simp only [next, hw]
    cases hr : (read s.cursor).1 with
    | error e => exact ordinary_read hr
    | ok t =>
      exact ⟨.plain, ⟨front.allows_of_not_isPlaceholder (not_isPlaceholder_read hr), rfl⟩,
        .plain (by simp)⟩

theorem safe_push {t : Token} (h : front.Allows F t.lexeme) :
    Safe F .plain (push t) fun _ front' => front' = front := by
  intro s hs
  refine ⟨front, rfl, fun t' ht' => ?_, hs.not_isPlaceholder⟩
  obtain rfl := Option.some.inj ht'
  exact h

theorem safe_nextIs : Safe F front (nextIs kind) fun _ front' => front' = front := by
  refine safe_next.bind ?_
  rintro t _ ⟨ht, rfl⟩
  exact (safe_push ht).bind fun _ _ h => safe_pure h

theorem safe_eatIf :
    Safe F front (eatIf kind) fun eaten front' => front' = if eaten then .plain else front := by
  refine safe_next.bind ?_
  rintro t _ ⟨ht, rfl⟩
  split
  · exact safe_pure rfl
  · exact (safe_push ht).bind fun _ _ h => safe_pure h

theorem safe_expect : Safe F front (expect kind) fun _ front' => front' = .plain := by
  refine safe_next.bind ?_
  rintro t _ ⟨-, rfl⟩
  split
  · exact safe_pure rfl
  · exact fun _ _ => trivial

theorem Safe.lookingAhead (hm : Safe F front m Q) :
    Safe F front (lookingAhead m) fun _ front' => front' = front := by
  refine .get_bind fun s hs => ?_
  refine (Ends.mono hm (fun t ht => ht.2) (fun _ _ _ => trivial) fun _ _ he => he).bind fun a t _ => ?_
  exact ⟨front, rfl, hs.first, hs.rest⟩

end TokenStream

namespace Reading

structure Ahead (F : Frame) (front : Front) (s : ReaderState) : Prop where
  scope : s.scope = F.scope
  stream : s.stream.Fronted F front

/-- Started with the variables of a frame in scope, an action stops for an ordinary error only. What
it leaves in scope, and in the stream, is told by its result. -/
def Safe (F : Frame) (front : Front) {α : Type} (m : Reading α) (Q : α → Frame → Front → Prop) :
    Prop :=
  Ends (Ahead F front) m (fun a s => ∃ G front', Q a G front' ∧ Ahead G front' s)
    fun e _ => e.Ordinary

variable {α β : Type} {F G : Frame} {front : Front} {m : Reading α} {k : α → Reading β}
  {P : β → Frame → Front → Prop} {Q R : α → Frame → Front → Prop} {kind : TokenKind} {mark : Mark}
  {word : Keyword}

theorem Safe.bind (hm : Safe F front m Q)
    (hk : ∀ a G front', Q a G front' → Safe G front' (k a) P) : Safe F front (m >>= k) P :=
  Ends.bind hm fun a s ⟨G, front', hQ, hs⟩ => hk a G front' hQ s hs

theorem Safe.mono (hm : Safe F front m Q) (h : ∀ a G front', Q a G front' → R a G front') :
    Safe F front m R :=
  Ends.mono hm (fun _ hs => hs) (fun _ _ ⟨G, front', hQ, hs⟩ => ⟨G, front', h _ _ _ hQ, hs⟩)
    fun _ _ he => he

theorem safe_pure {a : α} (h : Q a F front) : Safe F front (pure a) Q :=
  fun _ hs => ⟨F, front, h, hs⟩

theorem safe_exhausted : Safe F front (throw .exhausted : Reading α) Q := fun _ _ => trivial

theorem safe_stop {e : Error} (he : e.Ordinary) : Safe F front (stop e : Reading α) Q :=
  fun _ _ => he

theorem safe_stop_bind {e : Error} (he : e.Ordinary) : Safe F front (stop e >>= k) P :=
  fun _ _ => he

theorem safe_tokens {action : Streaming α} {S : α → Front → Prop}
    (h : TokenStream.Safe F front action S) :
    Safe F front (tokens action) fun a G front' => S a front' ∧ G = F := by
  refine ends_tokens fun s hs => Ends.mono h ?_ ?_ fun _ _ he => he
  · rintro _ rfl
    exact hs.stream
  · rintro a t ⟨front', hS, ht⟩
    exact ⟨F, front', ⟨hS, rfl⟩, hs.scope, ht⟩

def Returns (F : Frame) {α : Type} (S : α → Prop) (a : α) (G : Frame) (front : Front) : Prop :=
  G = F ∧ front = .plain ∧ S a

variable {S : α → Prop}

theorem safe_returns {a : α} (h : S a) : Safe F .plain (pure a) (Returns F S) := safe_pure ⟨rfl, rfl, h⟩

theorem Safe.then (hm : Safe F front m (Returns F S)) (hk : ∀ a, S a → Safe F .plain (k a) P) :
    Safe F front (m >>= k) P := by
  refine hm.bind ?_
  rintro a G _ ⟨rfl, rfl, ha⟩
  exact hk a ha

theorem Safe.of_any (h : Safe F .any m Q) : Safe F front m Q := by
  cases front with
  | any => exact h
  | plain =>
    refine Ends.mono h (fun s hs => ⟨hs.scope, fun t ht => ?_, hs.stream.rest⟩) (fun _ _ ha => ha)
      fun _ _ he => he
    exact Front.allows_of_not_isPlaceholder .any (hs.stream.first t ht)

section Steps

theorem Safe.enter_bind {k : Unit → Reading β} (h : Safe F front (k ()) P) :
    Safe F front (enter >>= k) P :=
  fun s hs => h { s with calls := s.calls + 1 } ⟨hs.scope, hs.stream⟩

theorem Safe.warn_bind {k : Unit → Reading β} (h : Safe F front (k ()) P) :
    Safe F front (warn >>= k) P :=
  fun s hs => h { s with uncheckedChoices := s.uncheckedChoices + 1 } ⟨hs.scope, hs.stream⟩

theorem Safe.check_bind {r : Except Error α} {S : α → Prop} (hr : Sure S r)
    (h : ∀ a, S a → Safe F front (k a) P) : Safe F front (check r >>= k) P := by
  cases r with
  | error e => exact safe_stop_bind hr
  | ok a => exact h a hr

theorem safe_check {r : Except Error α} (hr : Sure S r) :
    Safe F .plain (check r) (Returns F S) := by
  cases r with
  | error e => exact safe_stop hr
  | ok a => exact safe_returns hr

theorem Safe.next_bind {k : Token → Reading β}
    (h : ∀ t : Token, front.Allows F t.lexeme → Safe F .plain (k t) P) :
    Safe F front (next >>= k) P := by
  refine (safe_tokens TokenStream.safe_next).bind ?_
  rintro t G _ ⟨⟨ht, rfl⟩, rfl⟩
  exact h t ht

theorem safe_push (front : Front) {t : Token} (ht : front.Allows F t.lexeme) :
    Safe F .plain (push t) fun _ G front' => G = F ∧ front' = front :=
  (safe_tokens (TokenStream.safe_push ht)).mono fun _ _ _ h => h.symm

theorem Safe.push_bind (front : Front) {k : Unit → Reading β} {t : Token}
    (ht : front.Allows F t.lexeme) (h : Safe F front (k ()) P) : Safe F .plain (push t >>= k) P := by
  refine (safe_tokens (TokenStream.safe_push ht)).bind ?_
  rintro _ G _ ⟨rfl, rfl⟩
  exact h

theorem Safe.again_bind (front : Front) {k : Unit → Reading β} {t : Token}
    (ht : front.Allows F t.lexeme) (h : Safe F .plain (k ()) P) :
    Safe F .plain (again t >>= k) P := by
  rw [again, bind_assoc]
  refine .push_bind front ht ?_
  rw [bind_assoc]
  exact .next_bind fun _ _ => h

/-- The token that is seen in front tells whether anything stands there for what was read before. -/
theorem Safe.peek_bind_front {k : Token → Reading β} (h : ∀ (t : Token) (front' : Front),
    (t.lexeme.isPlaceholder = false → front' = .plain) → Safe F front' (k t) P) :
    Safe F front (peek >>= k) P := by
  rw [peek, bind_assoc]
  refine .next_bind fun t ht => ?_
  rw [bind_assoc]
  cases ht' : t.lexeme.isPlaceholder with
  | true => exact .push_bind front ht (by simpa using h t front (by simp [ht']))
  | false => exact .push_bind .plain ht' (by simpa using h t .plain fun _ => rfl)

theorem Safe.peek_bind {k : Token → Reading β} (h : ∀ t : Token, Safe F front (k t) P) :
    Safe F front (peek >>= k) P := by
  rw [peek, bind_assoc]
  refine .next_bind fun t ht => ?_
  rw [bind_assoc]
  exact .push_bind front ht (by simpa using h t)

theorem Safe.nextIs_bind {k : Bool → Reading β} (h : ∀ b, Safe F front (k b) P) :
    Safe F front (nextIs kind >>= k) P := by
  refine (safe_tokens TokenStream.safe_nextIs).bind ?_
  rintro b G _ ⟨rfl, rfl⟩
  exact h b

theorem safe_nextIs : Safe F front (nextIs kind) fun _ G front' => G = F ∧ front' = front :=
  (safe_tokens TokenStream.safe_nextIs).mono fun _ _ _ h => h.symm

theorem Safe.eatIf_bind {k : Bool → Reading β} (hyes : Safe F .plain (k true) P)
    (hno : Safe F front (k false) P) : Safe F front (eatIf kind >>= k) P := by
  refine (safe_tokens TokenStream.safe_eatIf).bind ?_
  rintro b G _ ⟨rfl, rfl⟩
  cases b with
  | true => exact hyes
  | false => exact hno

theorem Safe.expect_bind {k : Token → Reading β} (h : ∀ t, Safe F .plain (k t) P) :
    Safe F front (expect kind >>= k) P := by
  refine (safe_tokens TokenStream.safe_expect).bind ?_
  rintro t G _ ⟨rfl, rfl⟩
  exact h t

theorem Safe.expectMark_bind {k : Unit → Reading β} (h : Safe F .plain (k ()) P) :
    Safe F front (expectMark mark >>= k) P := by
  rw [expectMark, bind_assoc]
  exact .expect_bind fun _ => by simpa using h

theorem Safe.position?_bind {name : String} {k : Option Nat → Reading β}
    (h : Safe F front (k (F.scope.position? name)) P) : Safe F front (position? name >>= k) P := by
  intro s hs
  have h := h s hs
  rw [← hs.scope] at h
  exact h

theorem Safe.get_bind {k : ReaderState → Reading β}
    (h : ∀ s : ReaderState, Ahead F front s → Safe F front (k s) P) : Safe F front (get >>= k) P :=
  fun s hs => h s hs s hs

theorem Safe.scope_bind {k : Unit → Reading β} {f : Scope → Scope} (hG : f F.scope = G.scope)
    (h : Safe G .plain (k ()) P) :
    Safe F .plain (modify (fun s => { s with scope := f s.scope }) >>= k) P :=
  fun s hs => h { s with scope := f s.scope } ⟨by rw [← hG, ← hs.scope], hs.stream.change⟩

theorem Safe.declare_bind {label : Label} {k : Nat → Reading β}
    (hG : F.scope.declare label = G.scope) (h : Safe G .plain (k F.size) P) :
    Safe F .plain (declare label >>= k) P := by
  rw [declare, bind_assoc]
  refine .get_bind fun s hs => ?_
  rw [bind_assoc]
  refine .scope_bind (f := (·.declare label)) hG ?_
  rw [hs.scope]
  exact h

theorem Safe.restore_bind {k : Unit → Reading β} {saved : TokenStream} (hs : saved.Fronted F front)
    (h : Safe F front (k ()) P) :
    Safe F .plain (tokens (TokenStream.restore saved) >>= k) P :=
  fun s hscope => h { s with stream := { saved with mostWaiting := s.stream.mostWaiting } }
    ⟨hscope.scope, hs.first, hs.rest⟩

theorem Safe.inScope (h : Safe F front m fun a G front' => F.Extends G ∧ front' = .plain ∧ S a) :
    Safe F front (inScope m) (Returns F S) := by
  rw [Reading.inScope]
  refine .get_bind fun s hs => h.bind ?_
  rintro a G _ ⟨hext, rfl, ha⟩
  refine .scope_bind (f := (·.rollback s.scope.size)) ?_ (safe_returns ha)
  rw [hs.scope]
  exact hext.rollback

end Steps

end Reading

end Quasiaffine
