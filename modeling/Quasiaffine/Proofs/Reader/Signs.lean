import Quasiaffine.Proofs.Piecewise.Evaluation
import Quasiaffine.Proofs.Reader.Expressions
import Quasiaffine.Reader.Basic

/-!
Minus signs in front of terms. A sign negates the whole term behind it, as if the term stood in
parentheses, unless the term is the remainder of a literal: that literal takes the sign first, and
the remainder is the same only if there is none.
-/

set_option autoImplicit false

namespace Quasiaffine

open Reading

namespace Wording

variable {F : Frame} {negated : Bool} {es ls ts : List Lexeme} {u v w : Row → ℚ}

def IsLiteralRemainder (ls : List Lexeme) (c m : Int) : Prop :=
  ∃ l : Lexeme, l.IsRemainder ∧ ls = [.number c, l, .number m]

theorem not_isLiteralRemainder {a b : Lexeme} {c m : Int} (hb : ¬b.IsRemainder) :
    ¬IsLiteralRemainder (a :: b :: ls) c m := by
  rintro ⟨l, hl, h⟩
  cases h
  exact hb hl

theorem sub_mul_floor (c : Int) {m : Int} (hm : 0 < m) :
    (c : ℚ) - m * ⌊(c : ℚ) / m⌋ = (c % m : Int) := by
  lift m to Nat using hm.le
  rw [Int.cast_natCast, Rat.floor_intCast_div_natCast, Int.emod_def]
  push_cast
  rfl

theorem neg_emod_iff (c : Int) {m : Int} (hm : 0 < m) : -c % m = -(c % m) ↔ m ∣ c := by
  have hc := Int.emod_nonneg c hm.ne'
  have hneg := Int.emod_nonneg (-c) hm.ne'
  refine ⟨fun h => Int.dvd_of_emod_eq_zero (by omega), fun h => ?_⟩
  rw [Int.emod_eq_zero_of_dvd h, Int.emod_eq_zero_of_dvd (dvd_neg.2 h), neg_zero]

theorem Term.negate (h : Term F false ts v) : ∃ w, Term F true ts w ∧
    ∀ x, w x = -v x ↔ ∀ c m, IsLiteralRemainder ts c m → m ∣ c := by
  cases h with
  | literal c =>
    refine ⟨_, .literal c, fun x => iff_of_true (by simp) ?_⟩
    rintro c m ⟨l, hl, h⟩
    cases h
  | literalOver c hm =>
    refine ⟨_, .literalOver c hm, fun x => iff_of_true (by simp [neg_div]) fun _ _ h => ?_⟩
    exact absurd h (not_isLiteralRemainder (by decide))
  -- The only term whose literal takes the sign before the operator behind it is applied.
  | literalRemainder c hl hm =>
    refine ⟨_, .literalRemainder c hl hm, fun x => ?_⟩
    simp only [if_true, Bool.false_eq_true, if_false, sub_mul_floor _ hm]
    norm_cast
    rw [neg_emod_iff c hm]
    refine ⟨?_, fun h => h c _ ⟨_, hl, rfl⟩⟩
    rintro hdvd c m ⟨l, -, h⟩
    cases h
    exact hdvd
  | multiple c h =>
    refine ⟨_, .multiple c h, fun x => iff_of_true (by simp) fun _ _ h => ?_⟩
    exact absurd h (not_isLiteralRemainder (by decide))
  | juxtaposed c h =>
    refine ⟨_, .juxtaposed c h, fun x => iff_of_true (by simp) fun _ _ h => ?_⟩
    exact absurd h (not_isLiteralRemainder fun hx => hx.elim nofun nofun)
  | factor hl h =>
    refine ⟨_, .factor hl h, fun x => iff_of_true (by simp) ?_⟩
    rintro c m ⟨l, -, h⟩
    cases h
    cases hl

mutual

theorem Terms.append : ∀ {negated : Bool} {es : List Lexeme} {u : Row → ℚ}, Terms F negated es u →
    More F ls w → Terms F negated (es ++ ls) fun x => u x + w x
  | _, _, _, .sign h, hm => .sign (h.append hm)
  | _, _, _, .term h hm, hm' => by
    rw [List.append_assoc]
    simpa only [add_assoc] using Terms.term h (hm.append hm')

theorem More.append : ∀ {es : List Lexeme} {u : Row → ℚ}, More F es u →
    More F ls w → More F (es ++ ls) fun x => u x + w x
  | _, _, .done, hm => by simpa using hm
  | _, _, .plus h, hm => .plus (h.append hm)
  | _, _, .minus h, hm => .minus (h.append hm)
  | _, _, .negative hc h, hm => .negative hc (h.append hm)

end

inductive Front (F : Frame) : List Lexeme → (Row → ℚ) → Prop
  | nothing : Front F [] fun _ => 0
  | sum {ls : List Lexeme} {v : Row → ℚ} (h : Sum F ls v) : Front F ls v

theorem Front.minus (h : Front F es u) (ht : Term F true ts w) :
    Sum F (es ++ .mark .minus :: ts) fun x => u x + w x := by
  have hterms : Terms F true ts w := by simpa using Terms.term ht .done
  cases h with
  | nothing => simpa using Terms.sign hterms
  | sum h => exact h.append (.minus hterms)

theorem Term.paren (h : Term F false ts v) :
    Term F true (.mark .leftParen :: (ts ++ [.mark .rightParen])) fun x => -v x := by
  have hterms : Terms F false ts v := by simpa using Terms.term h .done
  exact .factor rfl (.operand (.paren hterms))

end Wording

/-- A term behind a minus sign and the same term in parentheses are both read. The value with the
parentheses is subtracted. Without them the values are the same, unless the term is the remainder of
a literal that the divisor does not divide. -/
theorem Grammar.expression_minus_term {F : Frame} {es ts rest : List Lexeme} {u v : Row → ℚ}
    {r : Lexeme} {depth : Nat} {s s' : ReaderState} (front : Wording.Front F es u)
    (term : Wording.Term F false ts v) (hr : r.reach ≤ 4)
    (hd : 32 * (es.length + ts.length + 3) + 5 ≤ depth)
    (hs : s.scope = F.scope) (hs' : s'.scope = F.scope)
    (bare : s.stream.Ahead (es ++ .mark .minus :: (ts ++ r :: rest)))
    (closed : s'.stream.Ahead
      (es ++ .mark .minus :: .mark .leftParen :: (ts ++ .mark .rightParen :: r :: rest))) :
    ∃ f t g t', expression depth F.space s = (.ok f, t) ∧ t.stream.Ahead (r :: rest) ∧
      expression depth F.space s' = (.ok g, t') ∧ t'.stream.Ahead (r :: rest) ∧
      ∀ x : Row, x.length = F.size → ∃ q, f.eval x = .ok (some q) ∧
        g.eval x = .ok (some (u x - v x)) ∧
        (q = u x - v x ↔ ∀ c m, Wording.IsLiteralRemainder ts c m → m ∣ c) := by
  obtain ⟨w, hw, hiff⟩ := term.negate
  have hread := readsExpressions F False depth
  have hbare := hread.sum (front.minus hw) (by simp; omega) hr rest s hs (by simpa using bare)
  have hclosed := hread.sum (front.minus term.paren) (by simp; omega) hr rest s' hs'
    (by simpa using closed)
  obtain ⟨f, t, _, hf, ht, hfv, -, rfl⟩ := hbare.resolve_right fun h => h.1
  obtain ⟨g, t', _, hg, ht', hgv, -, rfl⟩ := hclosed.resolve_right fun h => h.1
  refine ⟨f, t, g, t', hf, ht, hg, ht', fun x hx => ?_⟩
  rw [← F.total_space] at hx
  rw [sub_eq_add_neg, ← hiff x, ← add_right_inj (u x)]
  exact ⟨_, hfv.eval_eq_ok hx, hgv.eval_eq_ok hx, Iff.rfl⟩

def Frame.ofName (name : String) : Frame := ⟨0, ⟨[some name]⟩, Nat.zero_le _⟩

def ReaderState.waiting (name : String) (ls : List Lexeme) : ReaderState :=
  ⟨⟨.ofText "", ls.map (.made · .nowhere), 0⟩, ⟨[some name]⟩, 0, 0⟩

theorem ReaderState.ahead_waiting (name : String) (ls : List Lexeme) :
    (waiting name ls).stream.Ahead ls :=
  ⟨[], trivial, by simp [waiting, Token.made, Function.comp_def]⟩

/-- A coefficient stands outside of the remainder: `7 - 2 * i % 3` is three at five. -/
theorem Grammar.expression_minus_term_multiple :
    let F := Frame.ofName "i"
    let term : List Lexeme := [.number 2, .mark .star, .identifier "i", .mark .percent, .number 3]
    let bare : List Lexeme := .number 7 :: .mark .minus :: (term ++ [.mark .rightBrace])
    let closed : List Lexeme := .number 7 :: .mark .minus :: .mark .leftParen ::
      (term ++ [.mark .rightParen, .mark .rightBrace])
    ∃ f t g t', expression 400 F.space (.waiting "i" bare) = (.ok f, t) ∧
      expression 400 F.space (.waiting "i" closed) = (.ok g, t') ∧
      f.eval [5] = .ok (some 3) ∧ g.eval [5] = .ok (some 3) := by
  intro F term bare closed
  have hfront : Wording.Front F [.number 7] _ := .sum (.term (.literal 7) .done)
  have hterm : Wording.Term F false term _ := .multiple 2 <|
    .remainder (.name rfl) (l := .mark .percent) (.inl rfl) (by simp) (by decide : (0 : Int) < 3)
  have hdepth : 32 * (1 + term.length + 3) + 5 ≤ 400 := by decide
  obtain ⟨f, t, g, t', hf, -, hg, -, hvalue⟩ := expression_minus_term (r := .mark .rightBrace)
    hfront hterm (by decide) hdepth rfl rfl (ReaderState.ahead_waiting "i" bare)
    (ReaderState.ahead_waiting "i" closed)
  obtain ⟨q, hq, heval, hiff⟩ := hvalue [5] rfl
  have hother : ∀ c m, Wording.IsLiteralRemainder term c m → m ∣ c :=
    fun _ _ h => absurd h (Wording.not_isLiteralRemainder (by decide))
  have hfloor : ⌊(5 : ℚ) / 3⌋ = 1 := by norm_num
  have hq' := hiff.2 hother
  norm_num [Row.entry, hfloor] at heval hq'
  exact ⟨f, t, g, t', hf, hg, hq' ▸ hq, heval⟩

def Reader.valueAt? (text : String) (x : Row) : Option Rat :=
  match (piecewise text).result with
  | .ok f =>
    match f.eval x with
    | .ok value => value
    | .error _ => none
  | .error _ => none

/-- A literal takes the sign before its remainder is taken. -/
theorem Reader.minus_literal_remainder :
    valueAt? "\x7b [0 - 5 % 3] \x7d" [] = some 1 ∧
      valueAt? "\x7b [0 - (5 % 3)] \x7d" [] = some (-2) := by
  decide +kernel

end Quasiaffine
