import Quasiaffine.Proofs.Parse.Symbols
import Quasiaffine.Reader.Shape

set_option autoImplicit false

namespace Quasiaffine

namespace TokenStream

variable {α β : Type} {F : Frame} {b : Symbols} {kind : TokenKind} {m : Streaming α}
  {k : α → Streaming β} {Q : α → Symbols → Prop} {P : β → Symbols → Prop}

def Follows (F : Frame) (b : Symbols) (m : Streaming α) (Q : α → Symbols → Prop) : Prop :=
  ∀ s : TokenStream, s.Regular F → s.symbols = b → ∀ a t, m s = (.ok a, t) →
    t.Regular F ∧ Q a t.symbols

theorem Follows.bind (hm : Follows F b m Q) (hk : ∀ a c, Q a c → Follows F c (k a) P) :
    Follows F b (m >>= k) P := by
  intro s hreg hb r t hrun
  have hbind : (m >>= k) s = ExceptT.bindCont k (m s).1 (m s).2 := rfl
  rw [hbind] at hrun
  cases hm' : (m s).1 with
  | error e =>
    rw [hm'] at hrun
    cases hrun
  | ok a =>
    rw [hm'] at hrun
    obtain ⟨hreg', hQ⟩ := hm s hreg hb a (m s).2 (Prod.ext hm' rfl)
    exact hk a _ hQ _ hreg' rfl r t hrun

theorem Follows.mono {R : α → Symbols → Prop} (hm : Follows F b m Q)
    (h : ∀ a c, Q a c → R a c) : Follows F b m R :=
  fun s hreg hb a t hrun => (hm s hreg hb a t hrun).imp_right (h a _)

theorem follows_pure {a : α} (h : Q a b) : Follows F b (pure a) Q := by
  intro s hreg hb a' t hrun
  obtain ⟨ha, rfl⟩ := Prod.mk.inj hrun
  obtain rfl := Except.ok.inj ha
  exact ⟨hreg, hb ▸ h⟩

theorem follows_throw (e : Error) : Follows F b (throw e : Streaming α) Q := by
  intro s _ _ a t hrun
  cases hrun

theorem follows_next : Follows F b next fun t c =>
    t.lexeme.symbol = b.head ∧ t.lexeme.Regular F ∧ c = b.tail := by
  rintro s hreg rfl a t hnext
  have hsymbols := symbols_of_next hnext
  rw [next] at hnext
  split at hnext
  · rename_i a' waiting hw
    cases hnext
    exact ⟨fun t ht => hreg t (hw ▸ List.mem_cons_of_mem _ ht), by rw [hsymbols]; rfl,
      hreg _ (hw ▸ List.mem_cons_self), by rw [hsymbols]; rfl⟩
  · obtain ⟨hread, rfl⟩ := Prod.mk.inj hnext
    have hplain := not_isPlaceholder_read hread
    refine ⟨fun t ht => hreg t ht, by rw [hsymbols]; rfl, ?_, by rw [hsymbols]; rfl⟩
    cases hl : a.lexeme with
    | expression | condition => simp [hl, Lexeme.isPlaceholder] at hplain
    | _ => trivial

theorem follows_push {t : Token} (ht : t.lexeme.Regular F) :
    Follows F b (push t) fun _ c => c = .cons t.lexeme.symbol b := by
  rintro s hreg rfl a t' hrun
  cases hrun
  exact ⟨List.forall_mem_cons.2 ⟨ht, hreg⟩, rfl⟩

theorem Follows.back {t : Token} (hs : t.lexeme.symbol = b.head) (ht : t.lexeme.Regular F) :
    Follows F b.tail (push t) fun _ c => c = b := by
  refine (follows_push ht).mono ?_
  rintro _ _ rfl
  rw [hs, Stream'.eta]

theorem follows_nextIs : Follows F b (nextIs kind) fun r c => r = (b.head.kind == kind) ∧ c = b := by
  refine follows_next.bind ?_
  rintro t _ ⟨hs, ht, rfl⟩
  refine (Follows.back hs ht).bind ?_
  rintro _ _ rfl
  exact follows_pure ⟨by rw [← hs, Lexeme.kind_symbol]; rfl, rfl⟩

theorem follows_eatIf : Follows F b (eatIf kind) fun r c =>
    r = true ∧ b.head.kind = kind ∧ c = b.tail ∨ r = false ∧ b.head.kind ≠ kind ∧ c = b := by
  refine follows_next.bind ?_
  rintro t _ ⟨hs, ht, rfl⟩
  have hkind : t.kind = b.head.kind := by rw [← hs, Lexeme.kind_symbol]; rfl
  split
  · exact follows_pure (.inl ⟨rfl, hkind ▸ ‹t.kind = kind›, rfl⟩)
  · refine (Follows.back hs ht).bind ?_
    rintro _ _ rfl
    exact follows_pure (.inr ⟨rfl, hkind ▸ ‹¬t.kind = kind›, rfl⟩)

theorem follows_expect : Follows F b (expect kind) fun _ c => b.head.kind = kind ∧ c = b.tail := by
  refine follows_next.bind ?_
  rintro t _ ⟨hs, ht, rfl⟩
  have hkind : t.kind = b.head.kind := by rw [← hs, Lexeme.kind_symbol]; rfl
  split
  · exact follows_pure ⟨hkind ▸ ‹t.kind = kind›, rfl⟩
  · exact follows_throw _

/-- Looking ahead leaves the symbols ahead. -/
theorem Follows.lookingAhead (hm : Follows F b m Q) :
    Follows F b (lookingAhead m) fun a c => (∃ c', Q a c') ∧ c = b := by
  rintro s hreg rfl a t hrun
  have hbind : TokenStream.lookingAhead m s =
      ExceptT.bindCont (fun a => do restore s; pure a) (m s).1 (m s).2 := rfl
  rw [hbind] at hrun
  cases hm' : (m s).1 with
  | error e =>
    rw [hm'] at hrun
    cases hrun
  | ok a' =>
    rw [hm'] at hrun
    cases hrun
    exact ⟨hreg, ⟨_, (hm s hreg rfl a _ (Prod.ext hm' rfl)).2⟩, rfl⟩

end TokenStream

namespace Reading

variable {α β : Type}

/-- Started with the variables of a frame in scope and the symbols `b` ahead, an action that does not
stop has a result, a frame and symbols ahead with `P`. -/
def Follows (F : Frame) (b : Symbols) (m : Reading α) (P : α → Frame → Symbols → Prop) : Prop :=
  ∀ s : ReaderState, s.scope = F.scope → s.stream.Regular F → s.stream.symbols = b →
    ∀ a t, m s = (.ok a, t) → ∃ G : Frame, t.scope = G.scope ∧ t.stream.Regular G ∧
      P a G t.stream.symbols

variable {F G : Frame} {b c : Symbols} {m : Reading α} {k : α → Reading β}
  {P : β → Frame → Symbols → Prop} {Q R : α → Frame → Symbols → Prop} {kind : TokenKind}
  {mark : Mark} {word : Keyword}

theorem Follows.bind (hm : Follows F b m Q) (hk : ∀ a G c, Q a G c → Follows G c (k a) P) :
    Follows F b (m >>= k) P := by
  intro s hsc hreg hb r t hrun
  have hbind : (m >>= k) s = ExceptT.bindCont k (m s).1 (m s).2 := rfl
  rw [hbind] at hrun
  cases hm' : (m s).1 with
  | error e =>
    rw [hm'] at hrun
    cases hrun
  | ok a =>
    rw [hm'] at hrun
    obtain ⟨G, hsc', hreg', hQ⟩ := hm s hsc hreg hb a (m s).2 (Prod.ext hm' rfl)
    exact hk a G _ hQ _ hsc' hreg' rfl r t hrun

theorem Follows.mono (hm : Follows F b m Q) (h : ∀ a G c, Q a G c → R a G c) : Follows F b m R := by
  intro s hsc hreg hb a t hrun
  obtain ⟨G, hsc', hreg', hQ⟩ := hm s hsc hreg hb a t hrun
  exact ⟨G, hsc', hreg', h a G _ hQ⟩

theorem follows_pure {a : α} (h : Q a F b) : Follows F b (pure a) Q := by
  intro s hsc hreg hb a' t hrun
  obtain ⟨ha, rfl⟩ := Prod.mk.inj hrun
  obtain rfl := Except.ok.inj ha
  exact ⟨F, hsc, hreg, hb ▸ h⟩

theorem follows_throw (e : Stop) : Follows F b (throw e : Reading α) Q := by
  intro s _ _ _ a t hrun
  cases hrun

theorem follows_stop (e : Error) : Follows F b (stop e : Reading α) Q := follows_throw _

theorem follows_stop_bind (e : Error) (k : α → Reading β) : Follows F b (stop e >>= k) P :=
  Follows.bind (Q := fun _ _ _ => False) (follows_stop e) fun _ _ _ h => h.elim

theorem follows_tokens {a : Streaming α} {S : α → Symbols → Prop}
    (h : TokenStream.Follows F b a S) : Follows F b (tokens a) fun r G c => S r c ∧ G = F := by
  intro s hsc hreg hb r t hrun
  cases ha : a s.stream with
  | mk result stream =>
    rw [tokens, ha] at hrun
    cases result with
    | error e => cases hrun
    | ok r' =>
      cases hrun
      obtain ⟨hreg', hS⟩ := h s.stream hreg hb r stream ha
      exact ⟨F, hsc, hreg', hS, rfl⟩

section Steps

theorem Follows.counted {k : Unit → Reading β} {f : ReaderState → ReaderState}
    (hscope : ∀ s, (f s).scope = s.scope) (hstream : ∀ s, (f s).stream = s.stream)
    (h : Follows F b (k ()) P) : Follows F b (modify f >>= k) P := by
  intro s hsc hreg hb r t hrun
  exact h (f s) ((hscope s).trans hsc) ((hstream s).symm ▸ hreg) ((hstream s).symm ▸ hb) r t hrun

theorem Follows.enter_bind {k : Unit → Reading β} (h : Follows F b (k ()) P) :
    Follows F b (enter >>= k) P := .counted (fun _ => rfl) (fun _ => rfl) h

theorem Follows.warn_bind {k : Unit → Reading β} (h : Follows F b (k ()) P) :
    Follows F b (warn >>= k) P := .counted (fun _ => rfl) (fun _ => rfl) h

theorem follows_check {r : Except Error α} (h : ∀ a, r = .ok a → Q a F b) :
    Follows F b (check r) Q := by
  cases r with
  | error e => exact follows_stop e
  | ok a => exact follows_pure (h a rfl)

theorem Follows.check_bind {r : Except Error α} (h : ∀ a, r = .ok a → Follows F b (k a) P) :
    Follows F b (check r >>= k) P := by
  cases r with
  | error e => exact follows_stop_bind e k
  | ok a => exact h a rfl

theorem Follows.next_bind {k : Token → Reading β}
    (h : ∀ t : Token, t.lexeme.symbol = b.head → t.lexeme.Regular F → Follows F b.tail (k t) P) :
    Follows F b (next >>= k) P := by
  refine (follows_tokens TokenStream.follows_next).bind ?_
  rintro t G c ⟨⟨hs, ht, rfl⟩, rfl⟩
  exact h t hs ht

theorem follows_push {t : Token} (ht : t.lexeme.Regular F) :
    Follows F b (push t) fun _ G c => c = .cons t.lexeme.symbol b ∧ G = F :=
  follows_tokens (TokenStream.follows_push ht)

theorem Follows.push_bind {k : Unit → Reading β} {t : Token} (ht : t.lexeme.Regular F)
    (h : Follows F (.cons t.lexeme.symbol b) (k ()) P) : Follows F b (push t >>= k) P := by
  refine (follows_push ht).bind ?_
  rintro _ G c ⟨rfl, rfl⟩
  exact h

theorem Follows.back_bind {k : Unit → Reading β} {t : Token} (hs : t.lexeme.symbol = b.head)
    (ht : t.lexeme.Regular F) (h : Follows F b (k ()) P) : Follows F b.tail (push t >>= k) P := by
  refine .push_bind ht ?_
  rw [hs, Stream'.eta]
  exact h

theorem Follows.again_bind {k : Unit → Reading β} {t : Token} (ht : t.lexeme.Regular F)
    (h : Follows F b (k ()) P) : Follows F b (again t >>= k) P := by
  rw [again, bind_assoc]
  refine .push_bind ht ?_
  rw [bind_assoc]
  exact .next_bind fun _ _ _ => h

theorem Follows.peek_bind {k : Token → Reading β}
    (h : ∀ t : Token, t.lexeme.symbol = b.head → Follows F b (k t) P) :
    Follows F b (peek >>= k) P := by
  rw [peek, bind_assoc]
  refine .next_bind fun t hs ht => ?_
  rw [bind_assoc]
  exact .back_bind hs ht (by simpa using h t hs)

theorem Follows.nextIs_bind {k : Bool → Reading β}
    (hyes : b.head = .mark mark → Follows F b (k true) P)
    (hno : b.head ≠ .mark mark → Follows F b (k false) P) :
    Follows F b (nextIsMark mark >>= k) P := by
  refine (follows_tokens TokenStream.follows_nextIs).bind ?_
  rintro r G c ⟨⟨rfl, rfl⟩, rfl⟩
  by_cases hkind : c.head.kind = .mark mark
  · rw [beq_iff_eq.2 hkind]
    exact hyes (Symbol.kind_eq_mark_iff.1 hkind)
  · rw [beq_eq_false_iff_ne.2 hkind]
    exact hno fun h => hkind (Symbol.kind_eq_mark_iff.2 h)

theorem Follows.eatIf_bind {k : Bool → Reading β}
    (hyes : b.head.kind = kind → Follows F b.tail (k true) P)
    (hno : b.head.kind ≠ kind → Follows F b (k false) P) : Follows F b (eatIf kind >>= k) P := by
  refine (follows_tokens TokenStream.follows_eatIf).bind ?_
  rintro r G c ⟨⟨rfl, hkind, rfl⟩ | ⟨rfl, hkind, rfl⟩, rfl⟩
  · exact hyes hkind
  · exact hno hkind

theorem Follows.eatMark_bind {k : Bool → Reading β}
    (hyes : b.head = .mark mark → Follows F b.tail (k true) P)
    (hno : b.head ≠ .mark mark → Follows F b (k false) P) :
    Follows F b (eatMark mark >>= k) P :=
  .eatIf_bind (fun h => hyes (Symbol.kind_eq_mark_iff.1 h))
    fun h => hno (mt Symbol.kind_eq_mark_iff.2 h)

theorem Follows.eatKeyword_bind {k : Bool → Reading β}
    (hyes : b.head = .word word → Follows F b.tail (k true) P)
    (hno : b.head ≠ .word word → Follows F b (k false) P) :
    Follows F b (eatKeyword word >>= k) P :=
  .eatIf_bind (fun h => hyes (Symbol.kind_eq_keyword_iff.1 h))
    fun h => hno (mt Symbol.kind_eq_keyword_iff.2 h)

theorem Follows.expect_bind {k : Token → Reading β}
    (h : ∀ t, b.head = .mark mark → Follows F b.tail (k t) P) :
    Follows F b (expect (.mark mark) >>= k) P := by
  refine (follows_tokens TokenStream.follows_expect).bind ?_
  rintro t G c ⟨⟨hkind, rfl⟩, rfl⟩
  exact h t (Symbol.kind_eq_mark_iff.1 hkind)

theorem Follows.expectMark_bind {k : Unit → Reading β}
    (h : b.head = .mark mark → Follows F b.tail (k ()) P) :
    Follows F b (expectMark mark >>= k) P := by
  rw [expectMark, bind_assoc]
  exact .expect_bind fun _ hmark => by simpa using h hmark

theorem Follows.position?_bind {name : String} {k : Option Nat → Reading β}
    (h : Follows F b (k (F.scope.position? name)) P) : Follows F b (position? name >>= k) P := by
  intro s hsc hreg hb r t hrun
  exact h s hsc hreg hb r t (by rw [← hsc]; exact hrun)

theorem Follows.get_bind {k : ReaderState → Reading β}
    (h : ∀ s : ReaderState, s.scope = F.scope → s.stream.Regular F → s.stream.symbols = b →
      Follows F b (k s) P) : Follows F b (get >>= k) P :=
  fun s hsc hreg hb r t hrun => h s hsc hreg hb s hsc hreg hb r t hrun

/-- Another scope, while no symbol ahead depends on the variables in it. -/
theorem Follows.scope_bind {k : Unit → Reading β} {f : Scope → Scope} (hb : Clear b)
    (hG : f F.scope = G.scope) (h : Follows G b (k ()) P) :
    Follows F b (modify (fun s => { s with scope := f s.scope }) >>= k) P := by
  intro s hsc _ hsb r t hrun
  exact h { s with scope := f s.scope } (by rw [← hG, ← hsc]) (.of_clear (hsb ▸ hb)) hsb r t hrun

theorem Follows.declare_bind {label : Label} {k : Nat → Reading β} (hb : Clear b)
    (hG : F.scope.declare label = G.scope) (h : Follows G b (k F.size) P) :
    Follows F b (declare label >>= k) P := by
  rw [declare, bind_assoc]
  refine .get_bind fun s hsc _ _ => ?_
  rw [bind_assoc]
  refine .scope_bind (f := (·.declare label)) hb hG ?_
  rw [hsc]
  exact h

end Steps

end Reading

end Quasiaffine
