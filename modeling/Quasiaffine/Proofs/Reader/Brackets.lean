import Quasiaffine.Proofs.Reader.Clause
import Quasiaffine.Proofs.Reader.Reads
import Quasiaffine.Reader.Shape

set_option autoImplicit false

namespace Quasiaffine

def Lexeme.isInner : Lexeme → Bool
  | .mark .leftBracket | .mark .rightBracket | .mark .arrow | .endOfInput => false
  | _ => true

/-- Tokens in which each bracket is closed, without an end of input, and without an arrow unless
arrows are allowed. -/
inductive Balanced (arrows : Prop) : List Lexeme → Prop
  | nil : Balanced arrows []
  | inner {l : Lexeme} {ls : List Lexeme} (hl : l.isInner = true) (h : Balanced arrows ls) :
      Balanced arrows (l :: ls)
  | arrow {ls : List Lexeme} (ha : arrows) (h : Balanced arrows ls) :
      Balanced arrows (.mark .arrow :: ls)
  | group {ls ls' : List Lexeme} (h : Balanced arrows ls) (h' : Balanced arrows ls') :
      Balanced arrows (.mark .leftBracket :: (ls ++ .mark .rightBracket :: ls'))

namespace Balanced

variable {arrows : Prop} {l : Lexeme} {ls ls' : List Lexeme}

theorem append (h : Balanced arrows ls) (h' : Balanced arrows ls') : Balanced arrows (ls ++ ls') := by
  induction h with
  | nil => exact h'
  | inner hl _ ih => exact .inner hl ih
  | arrow ha _ ih => exact .arrow ha ih
  | group h _ _ ih =>
    rw [List.cons_append, List.append_assoc, List.cons_append]
    exact .group h ih

theorem mono (h : Balanced arrows ls) {arrows' : Prop} (ha : arrows → arrows') :
    Balanced arrows' ls := by
  induction h with
  | nil => exact .nil
  | inner hl _ ih => exact .inner hl ih
  | arrow ha' _ ih => exact .arrow (ha ha') ih
  | group _ _ ih ih' => exact .group ih ih'

theorem bracketed (h : Balanced arrows ls) :
    Balanced arrows (.mark .leftBracket :: (ls ++ [.mark .rightBracket])) := .group h .nil

theorem head_ne_arrow (h : Balanced False ls) {r : Lexeme} (hr : r ≠ .mark .arrow)
    (rest : List Lexeme) : ∃ r' rest', ls ++ r :: rest = r' :: rest' ∧ r' ≠ .mark .arrow := by
  cases h with
  | nil => exact ⟨r, rest, rfl, hr⟩
  | inner hl => exact ⟨_, _, rfl, by rintro rfl; cases hl⟩
  | arrow ha => exact ha.elim
  | group => exact ⟨_, _, rfl, nofun⟩

end Balanced

namespace Phrase

variable {F : Frame}

mutual

theorem Operand.balanced {ls : List Lexeme} {v : Row → ℚ} : Operand F ls v → Balanced False ls
  | .read _ => .inner rfl .nil
  | .name _ => .inner rfl .nil
  | .paren h => .inner rfl (h.balanced.append (.inner rfl .nil))
  | .floor h => h.balanced.bracketed
  | .floord _ h | .ceild _ h =>
    .inner rfl (.inner rfl (h.balanced.append (.inner rfl (.inner rfl (.inner rfl .nil)))))
  | .least h | .greatest h => .inner rfl (.inner rfl (h.balanced.append (.inner rfl .nil)))

theorem Factor.balanced {ls : List Lexeme} {v : Row → ℚ} : Factor F ls v → Balanced False ls
  | .literal _ => .inner rfl .nil
  | .literalOver _ _ => .inner rfl (.inner rfl (.inner rfl .nil))
  | .operand h => h.balanced
  | .divided _ h | .mod _ h => h.balanced.append (.inner rfl (.inner rfl .nil))
  | .scaled _ h => .inner rfl (.inner rfl h.balanced)

theorem Term.balanced {ls : List Lexeme} {v : Row → ℚ} : Term F ls v → Balanced False ls
  | .factor h => h.balanced
  | .juxtaposed _ h => .inner rfl h.balanced

theorem Summands.balanced {ls : List Lexeme} {u w : Row → ℚ} :
    Summands F ls u w → Balanced False ls
  | .negated h => .inner rfl h.balanced
  | .term h hm => h.balanced.append hm.balanced

theorem More.balanced {ls : List Lexeme} {w : Row → ℚ} : More F ls w → Balanced False ls
  | .done => .nil
  | .plus h | .minus h => .inner rfl h.balanced

theorem Sum.balanced {ls : List Lexeme} {v : Row → ℚ} : Sum F ls v → Balanced False ls
  | .summands h => h.balanced

theorem Sums.balanced {ls : List Lexeme} {vs : List (Row → ℚ)} : Sums F ls vs → Balanced False ls
  | .last h => h.balanced
  | .more h hs => h.balanced.append (.inner rfl hs.balanced)

end

end Phrase

namespace Grammar

open TokenStream Reading

variable {arrows : Prop} {l l' r : Lexeme} {ls : List Lexeme}

theorem isInner_of_mayNameTuple (h : mayNameTuple l = true) : l.isInner = true := by
  cases l <;> first | rfl | cases h

section Pass

variable {depth nesting : Nat} {rest : List Lexeme} {post : Option Bool → List Lexeme → Prop}

theorem streams_arrowBehind_cons (hl : l.isInner = true ∨ l = .mark .arrow)
    (hrest : Streams (arrowBehind depth nesting) rest post) :
    Streams (arrowBehind (depth + 1) nesting) (l :: rest) post := by
  rw [arrowBehind]
  refine streams_next.bind fun t ls' ht => ?_
  obtain ⟨rfl, rfl⟩ := ht
  split
  · rename_i h
    simp [h, Lexeme.isInner] at hl
  · rename_i h
    simp [h, Lexeme.isInner] at hl
  · rename_i h
    simp [h, Lexeme.isInner] at hl
  · exact hrest

/-- Balanced tokens inside brackets are passed over. -/
theorem streams_arrowBehind_append (h : Balanced arrows ls) (hn : 0 < nesting)
    (hrest : Streams (arrowBehind depth nesting) rest post) :
    Streams (arrowBehind (ls.length + depth) nesting) (ls ++ rest) post := by
  induction h generalizing depth nesting rest with
  | nil => simpa using hrest
  | inner hl _ ih =>
    rw [List.length_cons, Nat.succ_add]
    exact streams_arrowBehind_cons (.inl hl) (ih hn hrest)
  | arrow _ _ ih =>
    rw [List.length_cons, Nat.succ_add]
    exact streams_arrowBehind_cons (.inr rfl) (ih hn hrest)
  | @group ls ls' _ _ ih ih' =>
    have hlength : (Lexeme.mark .leftBracket :: (ls ++ .mark .rightBracket :: ls')).length + depth =
        (ls.length + ((ls'.length + depth) + 1)) + 1 := by
      simp only [List.length_cons, List.length_append]
      omega
    rw [hlength, List.cons_append, List.append_assoc, List.cons_append, arrowBehind]
    refine streams_next.bind fun t ls' ht => ?_
    obtain ⟨ht, rfl⟩ := ht
    simp only [ht]
    refine ih (Nat.succ_pos _) ?_
    rw [arrowBehind]
    refine streams_next.bind fun t ls' ht => ?_
    obtain ⟨ht, rfl⟩ := ht
    simp only [ht]
    rw [if_neg (by omega), Nat.add_sub_cancel]
    exact ih' hn hrest

end Pass

/-- Behind the bracket that closes the first tuple stands an arrow. -/
theorem streams_arrowBehind_of_arrow (h : Balanced arrows ls) {depth : Nat}
    (hd : ls.length + 2 ≤ depth) (rest : List Lexeme) :
    Streams (arrowBehind depth 0) (.mark .leftBracket :: (ls ++ .mark .rightBracket :: l :: rest))
      fun a _ => a = some (l.kind == .mark .arrow) := by
  obtain ⟨k, rfl⟩ := Nat.exists_eq_add_of_le hd
  rw [show ls.length + 2 + k = (ls.length + (k + 1)) + 1 by omega, arrowBehind]
  refine streams_next.bind fun t ls' ht => ?_
  obtain ⟨ht, rfl⟩ := ht
  simp only [ht]
  refine streams_arrowBehind_append h (Nat.one_pos) ?_
  rw [arrowBehind]
  refine streams_next.bind fun t ls' ht => ?_
  obtain ⟨ht, rfl⟩ := ht
  simp only [ht]
  rw [if_pos (Nat.le_refl 1)]
  refine streams_nextIs.bind fun b ls' hb => ?_
  exact Streams.pure (by rw [hb.1])

theorem streams_arrowBehind_of_no_arrow (h : Balanced False ls) (hmem : .mark .leftBracket ∈ ls)
    (hr : r ≠ .mark .arrow) {depth : Nat} (hd : ls.length ≤ depth) (rest : List Lexeme) :
    Streams (arrowBehind depth 0) (ls ++ r :: rest) fun a _ => a = some false := by
  induction h generalizing depth with
  | nil => cases hmem
  | @inner l ls hl _ ih =>
    rw [List.length_cons] at hd
    obtain ⟨depth, rfl⟩ := Nat.exists_eq_succ_of_ne_zero (n := depth) (by omega)
    exact streams_arrowBehind_cons (.inl hl)
      (ih ((List.mem_cons.1 hmem).resolve_left (by rintro rfl; cases hl))
        (Nat.le_of_succ_le_succ hd))
  | arrow ha => exact ha.elim
  | @group ls ls' h h' =>
    obtain ⟨r', rest', hrest, hr'⟩ := h'.head_ne_arrow hr rest
    rw [List.cons_append, List.append_assoc, List.cons_append, hrest]
    simp only [List.length_cons, List.length_append] at hd
    refine (streams_arrowBehind_of_arrow h (by omega) rest').mono fun a _ ha => ?_
    rw [ha, beq_false_of_ne]
    exact fun hk => hr' (Lexeme.eq_mark_of_kind hk)

variable {fails : Prop} {sc : Scope}

theorem reads_startsTuple : Reads fails sc (l :: l' :: ls) startsTuple
    (Gives (· = (l.kind == .mark .leftBracket ||
      mayNameTuple l && l'.kind == .mark .leftBracket)) sc (l :: l' :: ls)) := by
  have hfinds : Streams (lookingAhead do
      let t ← TokenStream.next
      if t.kind = .mark .leftBracket then return true
      if mayNameTuple t.lexeme then TokenStream.nextIs (.mark .leftBracket) else return false)
      (l :: l' :: ls) fun b ls' => b = (l.kind == .mark .leftBracket ||
        mayNameTuple l && l'.kind == .mark .leftBracket) ∧ ls' = l :: l' :: ls := by
    have hahead : Streams (do
        let t ← TokenStream.next
        if t.kind = .mark .leftBracket then return true
        if mayNameTuple t.lexeme then TokenStream.nextIs (.mark .leftBracket) else return false)
        (l :: l' :: ls) fun b _ => b = (l.kind == .mark .leftBracket ||
          mayNameTuple l && l'.kind == .mark .leftBracket) := ?_
    · exact hahead.lookingAhead.mono fun b ls' ⟨⟨_, hb⟩, hls⟩ => ⟨hb, hls⟩
    refine streams_next.bind fun t ls' ht => ?_
    obtain ⟨rfl, rfl⟩ := ht
    rw [Token.kind]
    by_cases hk : t.lexeme.kind = .mark .leftBracket
    · rw [if_pos hk, hk]
      exact Streams.pure rfl
    · rw [if_neg hk, beq_false_of_ne hk]
      by_cases hn : mayNameTuple t.lexeme = true
      · rw [if_pos hn, hn]
        exact streams_nextIs.mono fun b _ hb => by simpa using hb.1
      · rw [if_neg hn, Bool.eq_false_of_not_eq_true hn]
        exact Streams.pure rfl
  exact (reads_tokens hfinds).mono fun b _ _ h => ⟨h.1.1, h.2, h.1.2⟩

theorem reads_startsRelation {depth : Nat} {found : Bool}
    (h : l.kind = .mark .leftBracket ∨ mayNameTuple l = true ∧ l'.kind = .mark .leftBracket →
      Streams (arrowBehind depth 0) (l :: l' :: ls) fun a _ => a = some found)
    (hno : l.kind ≠ .mark .leftBracket → (mayNameTuple l = true → l'.kind ≠ .mark .leftBracket) →
      found = false) :
    Reads fails sc (l :: l' :: ls) (startsRelation depth)
      (Gives (· = found) sc (l :: l' :: ls)) := by
  rw [startsRelation]
  refine reads_startsTuple.step fun b hb => ?_
  subst hb
  split
  · rename_i hstarts
    have hahead := (h (by simpa using hstarts)).lookingAhead
    refine (reads_tokens hahead).bind fun a sc' ls' ha => ?_
    obtain ⟨⟨⟨_, rfl⟩, rfl⟩, rfl⟩ := ha
    exact reads_pure (gives rfl)
  · rename_i hstarts
    refine reads_pure (gives (hno ?_ ?_).symm)
    · exact fun hk => hstarts (by simp [hk])
    · exact fun hn hk => hstarts (by simp [hn, hk])

theorem reads_startsRelation_of_no_arrow (h : Balanced False ls) {depth : Nat}
    (hd : ls.length ≤ depth) (rest : List Lexeme) :
    Reads fails sc (ls ++ .mark .rightBracket :: l :: rest) (startsRelation depth)
      (Gives (· = false) sc (ls ++ .mark .rightBracket :: l :: rest)) := by
  have hahead : .mark .leftBracket ∈ ls → Streams (arrowBehind depth 0)
      (ls ++ .mark .rightBracket :: l :: rest) fun a _ => a = some false :=
    fun hmem => streams_arrowBehind_of_no_arrow h hmem (by decide) hd _
  match ls with
  | [] => exact reads_startsRelation (by simp [Lexeme.kind, mayNameTuple]) fun _ _ => rfl
  | [a] =>
    refine reads_startsRelation (fun ha => hahead ?_) fun _ _ => rfl
    rcases ha with ha | ⟨-, ha⟩
    · rw [Lexeme.eq_mark_of_kind ha]
      exact List.mem_cons_self
    · cases ha
  | a :: b :: ls =>
    refine reads_startsRelation (fun ha => hahead ?_) fun _ _ => rfl
    rcases ha with ha | ⟨-, ha⟩
    · rw [Lexeme.eq_mark_of_kind ha]
      exact List.mem_cons_self
    · rw [Lexeme.eq_mark_of_kind ha]
      exact List.mem_cons_of_mem _ List.mem_cons_self

theorem reads_startsRelation_of_arrow (h : Balanced arrows ls) {depth : Nat}
    (hd : ls.length + 2 ≤ depth) (rest : List Lexeme) :
    Reads fails sc (.mark .leftBracket :: (ls ++ .mark .rightBracket :: .mark .arrow :: rest))
      (startsRelation depth) (Gives (· = true) sc
        (.mark .leftBracket :: (ls ++ .mark .rightBracket :: .mark .arrow :: rest))) := by
  have hahead := streams_arrowBehind_of_arrow (l := .mark .arrow) h hd rest
  match ls with
  | [] => exact reads_startsRelation (fun _ => hahead) fun hk => absurd rfl hk
  | l :: ls => exact reads_startsRelation (fun _ => hahead) fun hk => absurd rfl hk

theorem reads_startsRelation_of_named_arrow (hl : mayNameTuple l = true) (h : Balanced arrows ls)
    {depth : Nat} (hd : ls.length + 3 ≤ depth) (rest : List Lexeme) :
    Reads fails sc (l :: .mark .leftBracket :: (ls ++ .mark .rightBracket :: .mark .arrow :: rest))
      (startsRelation depth) (Gives (· = true) sc
        (l :: .mark .leftBracket :: (ls ++ .mark .rightBracket :: .mark .arrow :: rest))) := by
  obtain ⟨depth, rfl⟩ := Nat.exists_eq_succ_of_ne_zero (n := depth) (by omega)
  have hahead := streams_arrowBehind_cons (.inl (isInner_of_mayNameTuple hl))
    (streams_arrowBehind_of_arrow (l := .mark .arrow) h (Nat.le_of_succ_le_succ hd) rest)
  exact reads_startsRelation (fun _ => hahead) fun _ hk => absurd rfl (hk hl)

end Grammar

end Quasiaffine
