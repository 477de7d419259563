import Mathlib
import Quasiaffine.Proofs.Reader.Ends
import Quasiaffine.Proofs.Source.Unplaced
import Quasiaffine.Proofs.Token.Run

/-!
Actions of the reader that stop at places of the source only. The cursor stands in the source all
the time, and whatever waits in the stream, also what stands for text that has been read already,
has a span of the source.
-/

set_option autoImplicit false

namespace Quasiaffine

section Actions

variable {ε σ α β : Type} {I : σ → Prop} {fail : ε → Prop} {post : α → Prop} {post' : β → Prop}
  {m : ExceptT ε (StateM σ) α} {k : α → ExceptT ε (StateM σ) β}

/-- Started where `I` holds, an action ends where `I` holds, with a result that has the property
`post` or with an error that has the property `fail`. -/
def Upholds (I : σ → Prop) (fail : ε → Prop) (m : ExceptT ε (StateM σ) α) (post : α → Prop) :
    Prop :=
  Ends I m (fun a s => I s ∧ post a) fun e _ => fail e

theorem Upholds.bind (hm : Upholds I fail m post) (hk : ∀ a, post a → Upholds I fail (k a) post') :
    Upholds I fail (m >>= k) post' :=
  Ends.bind hm fun a s ⟨hs, ha⟩ => hk a ha s hs

theorem upholds_pure {a : α} (h : post a) :
    Upholds I fail (pure a : ExceptT ε (StateM σ) α) post :=
  ends_pure fun _ hs => ⟨hs, h⟩

theorem upholds_throw {e : ε} (h : fail e) :
    Upholds I fail (throw e : ExceptT ε (StateM σ) α) post :=
  ends_throw fun _ _ => h

theorem upholds_get : Upholds I fail (get : ExceptT ε (StateM σ) σ) I := fun _ hs => ⟨hs, hs⟩

theorem upholds_modify {f : σ → σ} (h : ∀ s, I s → I (f s)) :
    Upholds I fail (modify f : ExceptT ε (StateM σ) Unit) fun _ => True :=
  ends_modify fun s hs => ⟨h s hs, trivial⟩

end Actions

def Error.Within (e : Error) (source : List Char) : Prop :=
  ∀ span, e.span? = some span → span.Within source

def Stop.Within : Stop → List Char → Prop
  | error e, source => e.Within source
  | exhausted, _ => True

variable {source : List Char}

theorem Error.within_of_span? {e : Error} {span : Span} (he : e.span? = some span)
    (h : span.Within source) : e.Within source := by
  intro s hs
  obtain rfl := Option.some.inj (he.symm.trans hs)
  exact h

theorem Token.within_unfit {t : Token} (h : t.span.Within source) (wanted : Expectation) :
    (t.unfit wanted).Within source :=
  Error.within_of_span? rfl h

def Cursor.Inside (source : List Char) (c : Cursor) : Prop := ∃ before, c.At source before

structure ReadWithin (source : List Char) (r : Except Error Token × Cursor) : Prop where
  token : ∀ t, r.1 = .ok t → t.span.Within source
  error : ∀ e, r.1 = .error e → e.Within source
  cursor : r.2.Inside source

namespace Cursor

variable {c : Cursor} {t : Token}

theorem At.within_next {before : List Char} (h : c.At source before) :
    Span.Within ⟨c.skipGap.place, c.next.2.place⟩ source :=
  .of_places h.skipGap.place h.next.place (List.prefix_append _ _) ⟨_, h.next.text⟩

theorem Inside.next (h : c.Inside source) : ReadWithin source c.next := by
  obtain ⟨before, hc⟩ := h
  have hspan := hc.within_next
  refine ⟨fun t ht => ?_, fun e he => ?_, _, hc.next⟩
  · rw [Cursor.next] at ht
    split at ht
    · cases ht
      exact hspan
    · cases ht
  · rw [Cursor.next] at he
    split at he
    · cases he
    · cases he
      exact Error.within_of_span? rfl hspan

theorem Inside.power (h : c.Inside source) (ht : t.span.Within source) (base : Int) :
    ReadWithin source (TokenStream.power base t c) := by
  have hnext := h.next
  rw [TokenStream.power]
  cases hc : c.next with
  | mk result d =>
    rw [hc] at hnext
    cases result with
    | error e => exact ⟨nofun, fun e' he' => hnext.error e' he', hnext.cursor⟩
    | ok exponent =>
      have hexponent := hnext.token exponent rfl
      dsimp only
      split
      · refine ⟨?_, nofun, hnext.cursor⟩
        rintro _ ⟨⟩
        exact ht.cover hexponent
      · refine ⟨nofun, ?_, hnext.cursor⟩
        rintro _ ⟨⟩
        exact Token.within_unfit hexponent _

theorem Inside.read (h : c.Inside source) : ReadWithin source (TokenStream.read c) := by
  have hnext := h.next
  rw [TokenStream.read]
  cases hc : c.next with
  | mk result d =>
    rw [hc] at hnext
    cases result with
    | error e => exact ⟨nofun, fun e' he' => hnext.error e' he', hnext.cursor⟩
    | ok t =>
      have ht := hnext.token t rfl
      have hself : ReadWithin source (.ok t, d) := ⟨hnext.token, nofun, hnext.cursor⟩
      dsimp only
      split
      · have hbehind := hnext.cursor.next
        split
        · rename_i caret behind hcaret
          split
          · rw [hcaret] at hbehind
            exact hbehind.cursor.power ht _
          · exact hself
        · exact hself
      · exact hself

end Cursor

namespace TokenStream

variable {α : Type} {t : Token} {kind : TokenKind} {post : α → Prop}

structure Inside (source : List Char) (s : TokenStream) : Prop where
  cursor : s.cursor.Inside source
  waiting : ∀ t ∈ s.waiting, t.span.Within source

abbrev Quotes (source : List Char) (m : Streaming α) (post : α → Prop) : Prop :=
  Upholds (Inside source) (Error.Within · source) m post

theorem inside_ofText (source : String) : (ofText source).Inside source.toList :=
  ⟨⟨[], Cursor.at_ofText source⟩, by simp [ofText]⟩

theorem quotes_next : Quotes source next fun t => t.span.Within source := by
  intro s hs
  rw [next]
  cases hw : s.waiting with
  | cons t waiting =>
    have hwaiting := hs.waiting
    rw [hw, List.forall_mem_cons] at hwaiting
    exact ⟨⟨hs.cursor, hwaiting.2⟩, hwaiting.1⟩
  | nil =>
    have hread := hs.cursor.read
    cases hr : read s.cursor with
    | mk result d =>
      rw [hr] at hread
      cases result with
      | error e => exact hread.error e rfl
      | ok t => exact ⟨⟨hread.cursor, by simp⟩, hread.token t rfl⟩

theorem quotes_push (h : t.span.Within source) : Quotes source (push t) fun _ => True :=
  upholds_modify fun _ hs => ⟨hs.cursor, List.forall_mem_cons.2 ⟨h, hs.waiting⟩⟩

theorem quotes_nextIs : Quotes source (nextIs kind) fun _ => True :=
  quotes_next.bind fun _ ht => (quotes_push ht).bind fun _ _ => upholds_pure trivial

theorem quotes_eatIf : Quotes source (eatIf kind) fun _ => True := by
  refine quotes_next.bind fun t ht => ?_
  split
  · exact upholds_pure trivial
  · exact (quotes_push ht).bind fun _ _ => upholds_pure trivial

theorem quotes_expect : Quotes source (expect kind) fun t => t.span.Within source := by
  refine quotes_next.bind fun t ht => ?_
  split
  · exact upholds_pure ht
  · exact upholds_throw (Token.within_unfit ht _)

theorem quotes_restore {saved : TokenStream} (h : saved.Inside source) :
    Quotes source (restore saved) fun _ => True :=
  upholds_modify fun _ _ => ⟨h.cursor, h.waiting⟩

theorem quotes_lookingAhead {m : Streaming α} (h : Quotes source m post) :
    Quotes source (lookingAhead m) post :=
  upholds_get.bind fun _ hs => h.bind fun _ ha =>
    (quotes_restore hs).bind fun _ _ => upholds_pure ha

end TokenStream

namespace Reading

variable {α β : Type} {t : Token} {kind : TokenKind} {mark : Mark} {post : α → Prop}
  {post' : β → Prop}

abbrev Quotes (source : List Char) (m : Reading α) (post : α → Prop) : Prop :=
  Upholds (fun s => s.stream.Inside source) (Stop.Within · source) m post

abbrev Quotable (source : List Char) (m : Reading α) : Prop := Quotes source m fun _ => True

theorem Quotable.then {m : Reading α} {k : α → Reading β} (hm : Quotable source m)
    (hk : ∀ a, Quotes source (k a) post') : Quotes source (m >>= k) post' :=
  hm.bind fun a _ => hk a

theorem quotable_pure {a : α} : Quotable source (pure a) := upholds_pure trivial

theorem quotes_exhausted : Quotes source (throw .exhausted : Reading α) post :=
  upholds_throw trivial

theorem quotes_stop {e : Error} (h : e.Within source) : Quotes source (stop e : Reading α) post :=
  upholds_throw h

theorem quotes_stop_bind {e : Error} {k : β → Reading α} (h : e.Within source) :
    Quotes source (stop e >>= k) post :=
  have hstop : Quotes source (stop e) fun _ => False := quotes_stop h
  hstop.bind fun _ h => h.elim

theorem quotable_check {r : Except Error α} (h : Unplaced r) : Quotable source (check r) := by
  cases r with
  | ok a => exact quotable_pure
  | error e => exact quotes_stop fun span hspan => by simp [h e rfl] at hspan

theorem quotes_tokens {action : Streaming α} (h : TokenStream.Quotes source action post) :
    Quotes source (tokens action) post := by
  refine ends_tokens fun s hs => Ends.mono h ?_ (fun _ _ ha => ha) fun _ _ he => he
  rintro _ rfl
  exact hs

theorem quotable_enter : Quotable source enter := upholds_modify fun _ hs => hs

theorem quotable_warn : Quotable source warn := upholds_modify fun _ hs => hs

theorem quotes_next : Quotes source next fun t => t.span.Within source :=
  quotes_tokens TokenStream.quotes_next

theorem quotable_push (h : t.span.Within source) : Quotable source (push t) :=
  quotes_tokens (TokenStream.quotes_push h)

theorem quotable_again (h : t.span.Within source) : Quotable source (again t) :=
  (quotable_push h).then fun _ => quotes_next.bind fun _ _ => quotable_pure

theorem quotes_peek : Quotes source peek fun t => t.span.Within source :=
  quotes_next.bind fun _ ht => (quotable_push ht).then fun _ => upholds_pure ht

theorem quotable_nextIs : Quotable source (nextIs kind) := quotes_tokens TokenStream.quotes_nextIs

theorem quotable_eatIf : Quotable source (eatIf kind) := quotes_tokens TokenStream.quotes_eatIf

theorem quotes_expect : Quotes source (expect kind) fun t => t.span.Within source :=
  quotes_tokens TokenStream.quotes_expect

theorem quotable_expectMark : Quotable source (expectMark mark) :=
  quotes_expect.bind fun _ _ => quotable_pure

theorem quotable_position? {name : String} : Quotable source (position? name) :=
  upholds_get.bind fun _ _ => quotable_pure

theorem quotable_scope (f : Scope → Scope) :
    Quotable source (modify fun s => { s with scope := f s.scope }) :=
  upholds_modify fun _ hs => hs

theorem quotable_declare {label : Label} : Quotable source (declare label) :=
  upholds_get.bind fun _ _ => (quotable_scope (·.declare label)).then fun _ => quotable_pure

theorem quotable_inScope {m : Reading α} (h : Quotable source m) : Quotable source (inScope m) :=
  upholds_get.bind fun s _ => h.then fun _ =>
    (quotable_scope (·.rollback s.scope.size)).then fun _ => quotable_pure

end Reading

end Quasiaffine
