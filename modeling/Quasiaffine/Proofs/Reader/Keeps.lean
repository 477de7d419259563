import Quasiaffine.Proofs.Piecewise.Pairs
import Quasiaffine.Reader.State

/-!
What actions of a reader keep. The grammar puts tokens back that stand for functions and conditions
it has read; whoever takes such a token relies on what the one who put it back had shown of it.
-/

set_option autoImplicit false

namespace Quasiaffine

section Actions

variable {ε σ α β : Type} {I : σ → Prop}

/-- Started where `I` holds, an action that does not stop ends where `I` holds, and its result has
the property `post`. -/
def Keeps (I : σ → Prop) (m : ExceptT ε (StateM σ) α) (post : α → Prop) : Prop :=
  ∀ s, I s → ∀ a, (m s).1 = .ok a → I (m s).2 ∧ post a

variable {m : ExceptT ε (StateM σ) α} {k : α → ExceptT ε (StateM σ) β} {post : α → Prop}
  {post' : β → Prop}

theorem Keeps.bind (hm : Keeps I m post) (hk : ∀ a, post a → Keeps I (k a) post') :
    Keeps I (m >>= k) post' := by
  intro s hs b hb
  have hrun : (m >>= k) s = ExceptT.bindCont k (m s).1 (m s).2 := rfl
  rw [hrun] at hb ⊢
  cases hm' : (m s).1 with
  | error e =>
    rw [hm'] at hb
    cases hb
  | ok a =>
    rw [hm'] at hb
    obtain ⟨hs', ha⟩ := hm s hs a hm'
    exact hk a ha _ hs' b hb

theorem keeps_pure {a : α} (h : post a) : Keeps I (pure a : ExceptT ε (StateM σ) α) post := by
  intro s hs b hb
  exact ⟨hs, Except.ok.inj hb ▸ h⟩

theorem keeps_throw (e : ε) : Keeps I (throw e : ExceptT ε (StateM σ) α) post :=
  fun _ _ _ h => nomatch h

theorem keeps_get : Keeps I (get : ExceptT ε (StateM σ) σ) I := by
  intro s hs a ha
  exact ⟨hs, Except.ok.inj ha ▸ hs⟩

theorem keeps_modify {f : σ → σ} (h : ∀ s, I s → I (f s)) :
    Keeps I (modify f : ExceptT ε (StateM σ) Unit) fun _ => True :=
  fun s hs _ _ => ⟨h s hs, trivial⟩

end Actions

def Space.Unnamed (s : Space) : Prop := ∃ p n, s = anonymousSet p n

structure Relation.Plain (r : Relation) : Prop where
  wellFormed : r.WellFormed
  unnamed : r.space.Unnamed

def Lexeme.Sound : Lexeme → Prop
  | expression f => f.Separate
  | condition r => r.Plain
  | _ => True

theorem Lexeme.sound_of_not_isPlaceholder {l : Lexeme} (h : l.isPlaceholder = false) : l.Sound := by
  cases l with
  | expression | condition => cases h
  | _ => trivial

namespace Lexeme

theorem not_isPlaceholder_operators :
    ∀ operator ∈ operators, operator.2.isPlaceholder = false := by
  simp [operators, isPlaceholder]

/-- No text is read as a token that stands for something read before. -/
theorem not_isPlaceholder_scan {text : List Char} {l : Lexeme} (h : (scan text).result = .ok l) :
    l.isPlaceholder = false := by
  have hword : ∀ word, (ofWord word).isPlaceholder = false := fun word => by
    rw [ofWord]
    split <;> rfl
  cases text with
  | nil => exact Except.ok.inj h ▸ rfl
  | cons c text =>
    simp only [scan] at h
    split_ifs at h
    · exact Except.ok.inj h ▸ rfl
    · exact Except.ok.inj h ▸ rfl
    · rw [scanString] at h
      split at h
      · cases h
      · dsimp only at h
        split_ifs at h
        exact Except.ok.inj h ▸ rfl
    · exact Except.ok.inj h ▸ hword _
    · rw [scanOperator] at h
      split at h
      · rename_i operator hf
        exact Except.ok.inj h ▸ not_isPlaceholder_operators operator (List.mem_of_find?_eq_some hf)
      · cases h

end Lexeme

theorem Cursor.scan_of_next {c : Cursor} {t : Token} (h : c.next.1 = .ok t) :
    ∃ text, (Lexeme.scan text).result = .ok t.lexeme := by
  simp only [Cursor.next] at h
  split at h
  · rename_i l hl
    obtain rfl := Except.ok.inj h
    exact ⟨_, hl⟩
  · cases h

theorem Cursor.not_isPlaceholder_next {c : Cursor} {t : Token} (h : c.next.1 = .ok t) :
    t.lexeme.isPlaceholder = false :=
  have ⟨_, hl⟩ := Cursor.scan_of_next h
  Lexeme.not_isPlaceholder_scan hl

namespace TokenStream

def Sound (s : TokenStream) : Prop := ∀ t ∈ s.waiting, t.lexeme.Sound

theorem sound_power {base : Int} {t t' : Token} {c : Cursor} (h : (power base t c).1 = .ok t') :
    t'.lexeme.Sound := by
  simp only [power] at h
  split at h
  · cases h
  · split at h
    · exact Except.ok.inj h ▸ trivial
    · cases h

theorem sound_read {c : Cursor} {t : Token} (h : (read c).1 = .ok t) : t.lexeme.Sound := by
  simp only [read] at h
  split at h
  · cases h
  · rename_i t' cursor hc
    have ht' : t'.lexeme.Sound :=
      Lexeme.sound_of_not_isPlaceholder (Cursor.not_isPlaceholder_next (by rw [hc]))
    split at h
    · split at h
      · split at h
        · exact sound_power h
        · exact Except.ok.inj h ▸ ht'
      · exact Except.ok.inj h ▸ ht'
    · exact Except.ok.inj h ▸ ht'

variable {α : Type} {post : α → Prop} {kind : TokenKind}

theorem keeps_next : Keeps Sound next fun t => t.lexeme.Sound := by
  intro s hs t ht
  simp only [next] at ht ⊢
  split at ht
  · rename_i t' waiting hw
    obtain rfl := Except.ok.inj ht
    exact ⟨fun t ht => hs t (hw ▸ List.mem_cons_of_mem _ ht), hs _ (hw ▸ List.mem_cons_self)⟩
  · exact ⟨hs, sound_read ht⟩

theorem keeps_push {t : Token} (h : t.lexeme.Sound) : Keeps Sound (push t) fun _ => True :=
  keeps_modify fun _ hs => List.forall_mem_cons.2 ⟨h, hs⟩

theorem keeps_nextIs : Keeps Sound (nextIs kind) fun _ => True :=
  keeps_next.bind fun _ ht => (keeps_push ht).bind fun _ _ => keeps_pure trivial

theorem keeps_eatIf : Keeps Sound (eatIf kind) fun _ => True := by
  refine keeps_next.bind fun t ht => ?_
  split
  · exact keeps_pure trivial
  · exact (keeps_push ht).bind fun _ _ => keeps_pure trivial

theorem keeps_expect : Keeps Sound (expect kind) fun t => t.lexeme.Sound := by
  refine keeps_next.bind fun t ht => ?_
  split
  · exact keeps_pure ht
  · exact keeps_throw _

theorem keeps_restore {saved : TokenStream} (h : saved.Sound) :
    Keeps Sound (restore saved) fun _ => True :=
  keeps_modify fun _ _ => h

theorem keeps_lookingAhead {action : Streaming α} (h : Keeps Sound action post) :
    Keeps Sound (lookingAhead action) post :=
  keeps_get.bind fun _ hs => h.bind fun _ ha => (keeps_restore hs).bind fun _ _ => keeps_pure ha

end TokenStream

namespace Reading

variable {α : Type} {post : α → Prop} {kind : TokenKind} {mark : Mark}

abbrev KeepsSound (m : Reading α) (post : α → Prop) : Prop :=
  Keeps (fun s => s.stream.Sound) m post

theorem keeps_stop (e : Error) : KeepsSound (stop e : Reading α) post := keeps_throw _

theorem keeps_stop_bind {β : Type} (e : Error) (k : β → Reading α) :
    KeepsSound (stop e >>= k) post := by
  have h : KeepsSound (stop e : Reading β) fun _ => False := keeps_stop e
  exact h.bind fun _ h => h.elim

theorem keeps_tokens {action : Streaming α} (h : Keeps TokenStream.Sound action post) :
    KeepsSound (tokens action) post := by
  intro s hs a ha
  have h := h s.stream hs
  simp only [tokens] at ha ⊢
  cases hrun : action s.stream with
  | mk result stream =>
    rw [hrun] at h
    rw [hrun] at ha
    cases result with
    | error e => cases ha
    | ok b => exact Except.ok.inj ha ▸ h b rfl

theorem keeps_check {r : Except Error α} (h : ∀ a, r = .ok a → post a) :
    KeepsSound (check r) post := by
  cases r with
  | ok a => exact keeps_pure (h a rfl)
  | error e => exact keeps_stop e

theorem keeps_enter : KeepsSound enter fun _ => True := keeps_modify fun _ hs => hs

theorem keeps_warn : KeepsSound warn fun _ => True := keeps_modify fun _ hs => hs

theorem keeps_next : KeepsSound next fun t => t.lexeme.Sound := keeps_tokens TokenStream.keeps_next

theorem keeps_push {t : Token} (h : t.lexeme.Sound) : KeepsSound (push t) fun _ => True :=
  keeps_tokens (TokenStream.keeps_push h)

theorem keeps_again {t : Token} (h : t.lexeme.Sound) : KeepsSound (again t) fun _ => True :=
  (keeps_push h).bind fun _ _ => keeps_next.bind fun _ _ => keeps_pure trivial

theorem keeps_peek : KeepsSound peek fun t => t.lexeme.Sound :=
  keeps_next.bind fun _ ht => (keeps_push ht).bind fun _ _ => keeps_pure ht

theorem keeps_nextIs : KeepsSound (nextIs kind) fun _ => True :=
  keeps_tokens TokenStream.keeps_nextIs

theorem keeps_eatIf : KeepsSound (eatIf kind) fun _ => True := keeps_tokens TokenStream.keeps_eatIf

theorem keeps_expect : KeepsSound (expect kind) fun t => t.lexeme.Sound :=
  keeps_tokens TokenStream.keeps_expect

theorem keeps_expectMark : KeepsSound (expectMark mark) fun _ => True :=
  keeps_expect.bind fun _ _ => keeps_pure trivial

theorem keeps_position? {name : String} : KeepsSound (position? name) fun _ => True :=
  keeps_get.bind fun _ _ => keeps_pure trivial

theorem keeps_scope (f : Scope → Scope) :
    KeepsSound (modify fun s => { s with scope := f s.scope }) fun _ => True :=
  keeps_modify fun _ hs => hs

theorem keeps_declare {label : Label} : KeepsSound (declare label) fun _ => True :=
  keeps_get.bind fun _ _ => (keeps_scope (·.declare label)).bind fun _ _ => keeps_pure trivial

theorem keeps_inScope {action : Reading α} (h : KeepsSound action post) :
    KeepsSound (inScope action) post :=
  keeps_get.bind fun s _ => h.bind fun _ ha =>
    (keeps_scope (·.rollback s.scope.size)).bind fun _ _ => keeps_pure ha

end Reading

end Quasiaffine
