import Quasiaffine.Proofs.Token.Scanning

set_option autoImplicit false

namespace Quasiaffine

inductive Spells : List Char → List Lexeme → Prop
  | done : Spells [] [.endOfInput]
  | blank {cs : List Char} {ls : List Lexeme} (h : Spells cs ls) : Spells (' ' :: cs) ls
  | token {l : Lexeme} {cs : List Char} {ls : List Lexeme} (hl : l.Written)
      (hend : ∀ a ∈ cs.head?, l.endsBefore a = true) (h : Spells cs ls) :
      Spells (l.text.toList ++ cs) (l :: ls)

namespace Spells

variable {cs : List Char} {l : Lexeme} {ls : List Lexeme}

theorem ne_caret (h : Spells cs ls) : ∀ l ∈ ls, l ≠ .mark .caret := by
  induction h with
  | done => simp
  | blank _ ih => exact ih
  | token hl _ _ ih =>
    rw [List.forall_mem_cons]
    refine ⟨?_, ih⟩
    rintro rfl
    cases hl with
    | mark h => exact h rfl

theorem ne_nil (h : Spells cs ls) : ls ≠ [] := by
  induction h with
  | done => simp
  | blank _ ih => exact ih
  | token => simp

theorem length_le (h : Spells cs ls) : ls.length ≤ cs.length + 1 := by
  induction h with
  | done => simp
  | blank _ ih =>
    rw [List.length_cons]
    omega
  | token hl _ _ ih =>
    have := List.length_pos_iff.2 hl.text_ne_nil
    rw [List.length_cons, List.length_append]
    omega

theorem scan_eq (h : Spells cs (l :: ls)) :
    ∃ scan, Lexeme.scan (cs.drop (Gap.skipped .blank cs).length) = scan ∧ scan.result = .ok l ∧
      (l = .endOfInput ∧ ls = [] ∨ Spells scan.rest ls) := by
  generalize hls : l :: ls = ms at h
  induction h with
  | done =>
    cases hls
    exact ⟨_, rfl, rfl, .inl ⟨rfl, rfl⟩⟩
  | blank _ ih =>
    obtain ⟨scan, hscan, hrest⟩ := ih hls
    refine ⟨scan, ?_, hrest⟩
    rw [Gap.skipped, if_pos (by decide), List.length_cons, List.drop_succ_cons, hscan]
  | token hl hend h _ =>
    cases hls
    refine ⟨_, rfl, ?_⟩
    rw [hl.skipped_eq hend, List.length_nil, List.drop_zero, hl.scan_eq hend]
    exact ⟨rfl, .inr h⟩

theorem next_eq {c : Cursor} (h : Spells c.rest (l :: ls)) :
    ∃ t d, c.next = (.ok t, d) ∧ t.lexeme = l ∧ (l = .endOfInput ∧ ls = [] ∨ Spells d.rest ls) := by
  obtain ⟨scan, hscan, hresult, hrest⟩ := h.scan_eq
  simp only [Cursor.next, Cursor.skipGap, hscan, hresult]
  exact ⟨_, _, rfl, rfl, hrest⟩

end Spells

def Cursor.Ahead (c : Cursor) : List Lexeme → Prop
  | [] => True
  | l :: ls => ∃ t d, TokenStream.read c = (.ok t, d) ∧ t.lexeme = l ∧ d.Ahead ls

/-- A token reads on only if it is a number in front of a caret. -/
theorem TokenStream.read_eq {c d : Cursor} {t : Token} (h : c.next = (.ok t, d))
    (hd : ∀ v, t.lexeme = .number v → ∃ t' d', d.next = (.ok t', d') ∧ t'.lexeme ≠ .mark .caret) :
    read c = (.ok t, d) := by
  rw [read, h]
  cases ht : t.lexeme with
  | number v =>
    obtain ⟨t', d', hnext, hcaret⟩ := hd v ht
    have hkind : t'.kind ≠ .mark .caret := by
      rw [Token.kind]
      cases hl : t'.lexeme <;> simp [Lexeme.kind]
      rintro rfl
      exact hcaret hl
    simp only [ht, hnext, hkind, if_false]
  | _ => simp only [ht]

theorem Spells.ahead {c : Cursor} {ls : List Lexeme} (h : Spells c.rest ls) : c.Ahead ls := by
  induction ls generalizing c with
  | nil => trivial
  | cons l ls ih =>
    obtain ⟨t, d, hnext, rfl, hrest⟩ := h.next_eq
    refine ⟨t, d, TokenStream.read_eq hnext fun v hv => ?_, rfl, ?_⟩
    · rcases hrest with ⟨hend, -⟩ | hrest
      · simp [hv] at hend
      · obtain ⟨l', ls', rfl⟩ := List.exists_cons_of_ne_nil hrest.ne_nil
        obtain ⟨t', d', hnext', ht', -⟩ := hrest.next_eq
        exact ⟨t', d', hnext', ht' ▸ hrest.ne_caret l' List.mem_cons_self⟩
    · rcases hrest with ⟨-, rfl⟩ | hrest
      · trivial
      · exact ih hrest

namespace TokenStream

def Ahead (s : TokenStream) (ls : List Lexeme) : Prop :=
  ∃ ms, s.cursor.Ahead ms ∧ ls = s.waiting.map (·.lexeme) ++ ms

def Streams {α : Type} (m : Streaming α) (ls : List Lexeme) (post : α → List Lexeme → Prop) : Prop :=
  ∀ s : TokenStream, s.Ahead ls → ∃ a s' ls', m s = (.ok a, s') ∧ s'.Ahead ls' ∧ post a ls'

section Streams

variable {α β : Type} {l : Lexeme} {ls : List Lexeme} {post : α → List Lexeme → Prop}
  {post' : β → List Lexeme → Prop} {m : Streaming α} {k : α → Streaming β} {kind : TokenKind}

theorem ahead_ofText {source : String} (h : Spells source.toList ls) : (ofText source).Ahead ls :=
  ⟨ls, Spells.ahead (c := .ofText source) h, rfl⟩

theorem Streams.bind (hm : Streams m ls post) (hk : ∀ a ls', post a ls' → Streams (k a) ls' post') :
    Streams (m >>= k) ls post' := by
  intro s hs
  obtain ⟨a, s', ls', hok, hs', ha⟩ := hm s hs
  obtain ⟨b, s'', ls'', hok', hs'', hb⟩ := hk a ls' ha s' hs'
  refine ⟨b, s'', ls'', ?_, hs'', hb⟩
  simp only [Bind.bind, ExceptT.bind, ExceptT.mk, StateT.bind, hok, ExceptT.bindCont, hok']

theorem Streams.pure {a : α} (h : post a ls) : Streams (Pure.pure a) ls post :=
  fun s hs => ⟨a, s, ls, rfl, hs, h⟩

theorem Streams.mono {q : α → List Lexeme → Prop} (hm : Streams m ls post)
    (h : ∀ a ls', post a ls' → q a ls') : Streams m ls q := by
  intro s hs
  obtain ⟨a, s', ls', hok, hs', ha⟩ := hm s hs
  exact ⟨a, s', ls', hok, hs', h a ls' ha⟩

theorem streams_next : Streams next (l :: ls) fun t ls' => t.lexeme = l ∧ ls' = ls := by
  rintro s ⟨ms, hms, hls⟩
  rw [next]
  cases hw : s.waiting with
  | nil =>
    rw [hw, List.map_nil, List.nil_append] at hls
    subst hls
    obtain ⟨t, d, hread, ht, hd⟩ := hms
    refine ⟨t, _, ls, by rw [hread], ⟨ls, hd, by simp⟩, ht, rfl⟩
  | cons t ts =>
    rw [hw, List.map_cons, List.cons_append, List.cons.injEq] at hls
    exact ⟨t, _, ls, rfl, ⟨ms, hms, hls.2⟩, hls.1.symm, rfl⟩

theorem streams_push (t : Token) : Streams (push t) ls fun _ ls' => ls' = t.lexeme :: ls := by
  rintro s ⟨ms, hms, rfl⟩
  exact ⟨(), _, _, rfl, ⟨ms, hms, by simp⟩, rfl⟩

theorem streams_nextIs : Streams (nextIs kind) (l :: ls) fun b ls' =>
    b = (l.kind == kind) ∧ ls' = l :: ls := by
  refine streams_next.bind fun t ls' ht => ?_
  obtain ⟨rfl, rfl⟩ := ht
  refine (streams_push t).bind fun _ ls' h => .pure ⟨rfl, h⟩

theorem streams_eatIf : Streams (eatIf kind) (l :: ls) fun b ls' =>
    b = decide (l.kind = kind) ∧ ls' = if l.kind = kind then ls else l :: ls := by
  refine streams_next.bind fun t ls' ht => ?_
  obtain ⟨rfl, rfl⟩ := ht
  by_cases hk : t.lexeme.kind = kind
  · simp only [Token.kind, hk, if_true]
    exact .pure ⟨by simp, rfl⟩
  · simp only [Token.kind, hk, if_false]
    exact (streams_push t).bind fun _ ls' h => .pure ⟨by simp, h⟩

theorem streams_expect (h : l.kind = kind) :
    Streams (expect kind) (l :: ls) fun t ls' => t.lexeme = l ∧ ls' = ls := by
  refine streams_next.bind fun t ls' ht => ?_
  obtain ⟨rfl, rfl⟩ := ht
  simp only [Token.kind, h, if_true]
  exact .pure ⟨rfl, rfl⟩

theorem streams_restore {saved : TokenStream} {ms : List Lexeme} (h : saved.Ahead ms) :
    Streams (restore saved) ls fun _ ls' => ls' = ms :=
  fun s _ => ⟨(), { saved with mostWaiting := s.mostWaiting }, ms, rfl, h, rfl⟩

theorem Streams.lookingAhead (hm : Streams m ls post) :
    Streams (lookingAhead m) ls fun a ls' => (∃ ms, post a ms) ∧ ls' = ls := by
  intro s hs
  obtain ⟨a, s', ls', hok, -, ha⟩ := hm s hs
  refine ⟨a, { s with mostWaiting := s'.mostWaiting }, ls, ?_, hs, ⟨ls', ha⟩, rfl⟩
  have hrun : TokenStream.lookingAhead m s =
      ExceptT.bindCont (fun a => do restore s; Pure.pure a) (m s).1 (m s).2 := rfl
  rw [hrun, hok]
  rfl

end Streams

end TokenStream

end Quasiaffine
