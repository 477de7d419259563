import Quasiaffine.Proofs.Token.Spelling
import Quasiaffine.Reader.State

/-!
What an action of the reader does, told by the variables in scope and the tokens ahead, before it
and after it. An action may be allowed to stop because it would have to subtract a quantified
relation, and for no other reason.
-/

set_option autoImplicit false

namespace Quasiaffine.Reading

variable {α β : Type} {fails : Prop}

/-- An action that starts with some variables in scope and some tokens ahead has a result with
`post`, or stops as it may. -/
def Reads (fails : Prop) (sc : Scope) (ls : List Lexeme) (m : Reading α)
    (post : α → Scope → List Lexeme → Prop) : Prop :=
  ∀ s : ReaderState, s.scope = sc → s.stream.Ahead ls →
    (∃ a s' ls', m s = (.ok a, s') ∧ s'.stream.Ahead ls' ∧ post a s'.scope ls') ∨
      fails ∧ ∃ s', m s = (.error (.error (.unsupported .subtractingQuantified)), s')

def Gives (P : α → Prop) (sc : Scope) (ls : List Lexeme) (a : α) (sc' : Scope)
    (ls' : List Lexeme) : Prop :=
  P a ∧ sc' = sc ∧ ls' = ls

variable {sc sc' : Scope} {l : Lexeme} {ls ls' : List Lexeme} {m : Reading α} {k : α → Reading β}
  {post : α → Scope → List Lexeme → Prop} {post' : β → Scope → List Lexeme → Prop} {P : α → Prop}
  {kind : TokenKind}

theorem Reads.bind (hm : Reads fails sc ls m post)
    (hk : ∀ a sc' ls', post a sc' ls' → Reads fails sc' ls' (k a) post') :
    Reads fails sc ls (m >>= k) post' := by
  intro s hsc hs
  have hrun : (m >>= k) s = ExceptT.bindCont k (m s).1 (m s).2 := rfl
  rw [hrun]
  rcases hm s hsc hs with ⟨a, s', ls', hok, hs', ha⟩ | ⟨hf, s', hno⟩
  · rw [hok]
    exact hk a s'.scope ls' ha s' rfl hs'
  · exact .inr ⟨hf, s', by rw [hno]; rfl⟩

theorem Reads.step (hm : Reads fails sc ls m (Gives P sc' ls'))
    (hk : ∀ a, P a → Reads fails sc' ls' (k a) post') : Reads fails sc ls (m >>= k) post' := by
  refine hm.bind fun a sc'' ls'' ⟨ha, hsc, hls⟩ => ?_
  rw [hsc, hls]
  exact hk a ha

theorem Reads.mono {q : α → Scope → List Lexeme → Prop} (hm : Reads fails sc ls m post)
    (h : ∀ a sc' ls', post a sc' ls' → q a sc' ls') : Reads fails sc ls m q := by
  intro s hsc hs
  refine (hm s hsc hs).imp_left ?_
  rintro ⟨a, s', ls', hok, hs', ha⟩
  exact ⟨a, s', ls', hok, hs', h a _ _ ha⟩

theorem Reads.congr {q : α → Prop} (hm : Reads fails sc ls m (Gives P sc' ls'))
    (h : ∀ a, P a → q a) : Reads fails sc ls m (Gives q sc' ls') :=
  hm.mono fun _ _ _ ha => ⟨h _ ha.1, ha.2⟩

theorem reads_pure {a : α} (h : post a sc ls) : Reads fails sc ls (pure a) post := by
  rintro s rfl hs
  exact .inl ⟨a, s, ls, rfl, hs, h⟩

theorem gives {a : α} (h : P a) : Gives P sc ls a sc ls := ⟨h, rfl, rfl⟩

section Actions

theorem reads_enter : Reads fails sc ls enter (Gives (fun _ => True) sc ls) := by
  rintro s rfl hs
  exact .inl ⟨(), _, ls, rfl, hs, trivial, rfl, rfl⟩

theorem Reads.enter_bind {k : Unit → Reading β} (h : Reads fails sc ls (k ()) post') :
    Reads fails sc ls (enter >>= k) post' :=
  reads_enter.step fun _ _ => h

theorem reads_tokens {a : Streaming α} {q : α → List Lexeme → Prop}
    (h : TokenStream.Streams a ls q) :
    Reads fails sc ls (tokens a) fun b sc' ls' => q b ls' ∧ sc' = sc := by
  rintro s rfl hs
  obtain ⟨b, s', ls', hok, hs', hb⟩ := h s.stream hs
  exact .inl ⟨b, { s with stream := s' }, ls', by rw [tokens, hok], hs', hb, rfl⟩

theorem reads_restore {saved : TokenStream} (h : saved.Ahead ls') :
    Reads fails sc ls (tokens (TokenStream.restore saved)) (Gives (fun _ => True) sc ls') :=
  (reads_tokens (TokenStream.streams_restore h)).mono fun _ _ _ h => ⟨trivial, h.2, h.1⟩

theorem reads_next : Reads fails sc (l :: ls) next (Gives (fun t => t.lexeme = l) sc ls) :=
  (reads_tokens TokenStream.streams_next).mono fun _ _ _ h => ⟨h.1.1, h.2, h.1.2⟩

theorem reads_push (t : Token) :
    Reads fails sc ls (push t) (Gives (fun _ => True) sc (t.lexeme :: ls)) :=
  (reads_tokens (TokenStream.streams_push t)).mono fun _ _ _ h => ⟨trivial, h.2, h.1⟩

/-- A production that is entered at a known token. -/
theorem Reads.enter_next {k : Token → Reading β}
    (h : ∀ t : Token, t.lexeme = l → Reads fails sc ls (k t) post') :
    Reads fails sc (l :: ls) (do enter; let t ← next; k t) post' :=
  .enter_bind (reads_next.step h)

theorem Reads.again_bind {t : Token} {k : Unit → Reading β} (h : Reads fails sc ls (k ()) post') :
    Reads fails sc ls (again t >>= k) post' := by
  have hagain : Reads fails sc ls (again t) (Gives (fun _ => True) sc ls) :=
    (reads_push t).step fun _ _ => reads_next.step fun _ _ => reads_pure (gives trivial)
  exact hagain.step fun _ _ => h

theorem reads_peek :
    Reads fails sc (l :: ls) peek (Gives (fun t => t.lexeme = l) sc (l :: ls)) := by
  refine reads_next.step fun t ht => ?_
  refine (reads_push t).step fun _ _ => ?_
  rw [ht]
  exact reads_pure (gives ht)

theorem reads_nextIs :
    Reads fails sc (l :: ls) (nextIs kind) (Gives (· = (l.kind == kind)) sc (l :: ls)) :=
  (reads_tokens TokenStream.streams_nextIs).mono fun _ _ _ h => ⟨h.1.1, h.2, h.1.2⟩

theorem reads_eatIf (h : l.kind = kind) :
    Reads fails sc (l :: ls) (eatIf kind) (Gives (· = true) sc ls) :=
  (reads_tokens TokenStream.streams_eatIf).mono fun b _ _ hb => by
    simp only [h, decide_true, if_true] at hb
    exact ⟨hb.1.1, hb.2, hb.1.2⟩

theorem reads_eatIf_not (h : l.kind ≠ kind) :
    Reads fails sc (l :: ls) (eatIf kind) (Gives (· = false) sc (l :: ls)) :=
  (reads_tokens TokenStream.streams_eatIf).mono fun b _ _ hb => by
    simp only [h, decide_false, if_false] at hb
    exact ⟨hb.1.1, hb.2, hb.1.2⟩

theorem reads_expect (h : l.kind = kind) :
    Reads fails sc (l :: ls) (expect kind) (Gives (fun t => t.lexeme = l) sc ls) :=
  (reads_tokens (TokenStream.streams_expect h)).mono fun _ _ _ h => ⟨h.1.1, h.2, h.1.2⟩

theorem reads_expectMark {mark : Mark} :
    Reads fails sc (.mark mark :: ls) (expectMark mark) (Gives (fun _ => True) sc ls) :=
  (reads_expect rfl).step fun _ _ => reads_pure (gives trivial)

theorem reads_check {r : Except Error α} {a : α} (h : r = .ok a) (ha : P a) :
    Reads fails sc ls (check r) (Gives P sc ls) := by
  rw [h]
  exact reads_pure (gives ha)

theorem reads_check_or {r : Except Error α}
    (h : (∃ a, r = .ok a ∧ P a) ∨
      fails ∧ r = .error (.unsupported .subtractingQuantified)) :
    Reads fails sc ls (check r) (Gives P sc ls) := by
  rcases h with ⟨a, hok, ha⟩ | ⟨hf, hno⟩
  · exact reads_check hok ha
  · intro s _ _
    rw [hno]
    exact .inr ⟨hf, s, rfl⟩

theorem reads_position? (name : String) :
    Reads fails sc ls (position? name) (Gives (· = sc.position? name) sc ls) := by
  rintro s rfl hs
  exact .inl ⟨_, s, ls, rfl, hs, rfl, rfl, rfl⟩

theorem reads_declare (label : Label) :
    Reads fails sc ls (declare label) (Gives (· = sc.size) (sc.declare label) ls) := by
  rintro s rfl hs
  exact .inl ⟨_, _, ls, rfl, hs, rfl, rfl, rfl⟩

theorem reads_rollback (mark : Nat) :
    Reads fails sc ls (modify fun s => { s with scope := s.scope.rollback mark })
      (Gives (fun _ => True) (sc.rollback mark) ls) := by
  rintro s rfl hs
  exact .inl ⟨(), _, ls, rfl, hs, trivial, rfl, rfl⟩

theorem reads_get {k : ReaderState → Reading β}
    (h : ∀ s : ReaderState, s.scope = sc → s.stream.Ahead ls → Reads fails sc ls (k s) post') :
    Reads fails sc ls (get >>= k) post' :=
  fun s hsc hs => h s hsc hs s hsc hs

theorem Reads.inScope (hm : Reads fails sc ls m (Gives P sc' ls')) :
    Reads fails sc ls (inScope m) (Gives P (sc'.rollback sc.size) ls') := by
  refine reads_get fun s hsc _ => ?_
  refine hm.step fun a ha => ?_
  refine (reads_rollback _).step fun _ _ => ?_
  rw [hsc]
  exact reads_pure (gives ha)

end Actions

end Quasiaffine.Reading
