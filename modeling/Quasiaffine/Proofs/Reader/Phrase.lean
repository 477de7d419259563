import Quasiaffine.Proofs.Reader.Frame

/-!
The tokens of expressions and what the expressions are worth at each point. A part of an expression
may have been read already; then one token stands for it.
-/

set_option autoImplicit false

namespace Quasiaffine

/-- How far a token reaches back to what stands in front of it: not at all, or to an alternative, a
conjunct, a comparison, a list, a sum or a factor that goes on with it. -/
def TokenKind.reach : TokenKind → Nat
  | .mark .star | .mark .slash | .mark .percent | .keyword .mod | .identifier => 6
  | .mark .plus | .mark .minus | .number => 5
  | .mark .comma => 4
  | .mark .eq | .mark .ne | .mark .le | .mark .lt | .mark .ge | .mark .gt => 3
  | .keyword .and => 2
  | .keyword .or => 1
  | _ => 0

namespace Lexeme

def reach (l : Lexeme) : Nat := l.kind.reach

variable {l : Lexeme} {n : Nat}

theorem eq_mark_of_kind {m : Mark} (h : l.kind = .mark m) : l = .mark m := by
  cases l with
  | mark => rw [TokenKind.mark.inj h]
  | _ => cases h

theorem kind_ne_of_reach_le (h : l.reach ≤ n) {kind : TokenKind} (hk : n < kind.reach) :
    l.kind ≠ kind := by
  rintro rfl
  exact Nat.not_le_of_lt hk h

theorem reach_of_comparison? {op : Comparison} (h : l.comparison? = some op) : l.reach = 3 := by
  unfold comparison? at h
  split at h <;> first | rfl | cases h

theorem comparison?_eq_none (h : l.reach ≤ 2) : l.comparison? = none := by
  cases hop : l.comparison? with
  | none => rfl
  | some op =>
    rw [reach_of_comparison? hop] at h
    omega

end Lexeme

namespace Phrase

mutual

inductive Operand (F : Frame) : List Lexeme → (Row → ℚ) → Prop
  | read {f : Piecewise} {v : Row → ℚ} (h : f.Denotes F.space v) : Operand F [.expression f] v
  | name {x : String} {pos : Nat} (h : F.scope.position? x = some pos) :
      Operand F [.identifier x] fun r => r.entry pos
  | paren {ls : List Lexeme} {v : Row → ℚ} (h : Sum F ls v) :
      Operand F (.mark .leftParen :: (ls ++ [.mark .rightParen])) v
  | floor {ls : List Lexeme} {v : Row → ℚ} (h : Sum F ls v) :
      Operand F (.mark .leftBracket :: (ls ++ [.mark .rightBracket])) fun r => ⌊v r⌋
  | floord {ls : List Lexeme} {v : Row → ℚ} {m : Int} (hm : 0 < m) (h : Sum F ls v) :
      Operand F (.keyword .floord true :: .mark .leftParen ::
        (ls ++ [.mark .comma, .number m, .mark .rightParen])) fun r => ⌊v r / m⌋
  | ceild {ls : List Lexeme} {v : Row → ℚ} {m : Int} (hm : 0 < m) (h : Sum F ls v) :
      Operand F (.keyword .ceild true :: .mark .leftParen ::
        (ls ++ [.mark .comma, .number m, .mark .rightParen])) fun r => ⌈v r / m⌉
  | least {ls : List Lexeme} {v : Row → ℚ} {vs : List (Row → ℚ)} (h : Sums F ls (v :: vs)) :
      Operand F (.keyword .min true :: .mark .leftParen :: (ls ++ [.mark .rightParen]))
        fun r => (vs.map (· r)).foldl min (v r)
  | greatest {ls : List Lexeme} {v : Row → ℚ} {vs : List (Row → ℚ)} (h : Sums F ls (v :: vs)) :
      Operand F (.keyword .max true :: .mark .leftParen :: (ls ++ [.mark .rightParen]))
        fun r => (vs.map (· r)).foldl max (v r)

inductive Factor (F : Frame) : List Lexeme → (Row → ℚ) → Prop
  | literal (c : Int) : Factor F [.number c] fun _ => c
  | literalOver (c : Int) {m : Int} (hm : 0 < m) :
      Factor F [.number c, .mark .slash, .number m] fun _ => c / m
  | operand {ls : List Lexeme} {v : Row → ℚ} (h : Operand F ls v) : Factor F ls v
  | divided {ls : List Lexeme} {v : Row → ℚ} {m : Int} (hm : 0 < m) (h : Operand F ls v) :
      Factor F (ls ++ [.mark .slash, .number m]) fun r => v r / m
  | mod {ls : List Lexeme} {v : Row → ℚ} {m : Int} (hm : 0 < m) (h : Operand F ls v) :
      Factor F (ls ++ [.mark .percent, .number m]) fun r => v r - m * ⌊v r / m⌋
  | scaled {ls : List Lexeme} {v : Row → ℚ} (c : Int) (h : Factor F ls v) :
      Factor F (.number c :: .mark .star :: ls) fun r => c * v r

inductive Term (F : Frame) : List Lexeme → (Row → ℚ) → Prop
  | factor {ls : List Lexeme} {v : Row → ℚ} (h : Factor F ls v) : Term F ls v
  | juxtaposed {x : String} {ls : List Lexeme} {v : Row → ℚ} (c : Int)
      (h : Factor F (.identifier x :: ls) v) :
      Term F (.number c :: .identifier x :: ls) fun r => c * v r

inductive Summands (F : Frame) : List Lexeme → (Row → ℚ) → (Row → ℚ) → Prop
  | negated {ls : List Lexeme} {u w : Row → ℚ} (h : Summands F ls u w) :
      Summands F (.mark .minus :: ls) (fun r => -u r) w
  | term {ls ls' : List Lexeme} {u w : Row → ℚ} (ht : Term F ls u) (hm : More F ls' w) :
      Summands F (ls ++ ls') u w

inductive More (F : Frame) : List Lexeme → (Row → ℚ) → Prop
  | done : More F [] fun _ => 0
  | plus {ls : List Lexeme} {u w : Row → ℚ} (h : Summands F ls u w) :
      More F (.mark .plus :: ls) fun r => u r + w r
  | minus {ls : List Lexeme} {u w : Row → ℚ} (h : Summands F ls u w) :
      More F (.mark .minus :: ls) fun r => -u r + w r

inductive Sum (F : Frame) : List Lexeme → (Row → ℚ) → Prop
  | summands {ls : List Lexeme} {u w : Row → ℚ} (h : Summands F ls u w) : Sum F ls fun r => u r + w r

inductive Sums (F : Frame) : List Lexeme → List (Row → ℚ) → Prop
  | last {ls : List Lexeme} {v : Row → ℚ} (h : Sum F ls v) : Sums F ls [v]
  | more {ls ls' : List Lexeme} {v : Row → ℚ} {vs : List (Row → ℚ)} (h : Sum F ls v)
      (hs : Sums F ls' vs) : Sums F (ls ++ .mark .comma :: ls') (v :: vs)

end

def startsSum : Lexeme → Bool
  | .number _ | .mark .minus => true
  | l => Grammar.startsFactor l

section Heads

variable {F : Frame} {ls : List Lexeme} {u v w : Row → ℚ} {vs : List (Row → ℚ)}

theorem Operand.starts (h : Operand F ls v) :
    ∃ l ls', ls = l :: ls' ∧ Grammar.startsFactor l = true := by
  cases h <;> exact ⟨_, _, rfl, rfl⟩

theorem startsSum_of_startsFactor {l : Lexeme} (h : Grammar.startsFactor l = true) :
    startsSum l = true := by
  rw [startsSum.eq_def]
  split <;> simp [h]

theorem Factor.starts (h : Factor F ls v) : ∃ l ls', ls = l :: ls' ∧ startsSum l = true := by
  cases h with
  | literal | literalOver | scaled => exact ⟨_, _, rfl, rfl⟩
  | operand h =>
    obtain ⟨l, ls', rfl, hl⟩ := h.starts
    exact ⟨l, ls', rfl, startsSum_of_startsFactor hl⟩
  | divided _ h | mod _ h =>
    obtain ⟨l, ls', rfl, hl⟩ := h.starts
    exact ⟨l, _, rfl, startsSum_of_startsFactor hl⟩

theorem Term.starts (h : Term F ls v) : ∃ l ls', ls = l :: ls' ∧ startsSum l = true := by
  cases h with
  | factor h => exact h.starts
  | juxtaposed => exact ⟨_, _, rfl, rfl⟩

theorem Summands.starts (h : Summands F ls u w) : ∃ l ls', ls = l :: ls' ∧ startsSum l = true := by
  cases h with
  | negated => exact ⟨_, _, rfl, rfl⟩
  | term h _ =>
    obtain ⟨l, ls', rfl, hl⟩ := h.starts
    exact ⟨l, _, rfl, hl⟩

theorem Sum.starts (h : Sum F ls v) : ∃ l ls', ls = l :: ls' ∧ startsSum l = true := by
  cases h with
  | summands h => exact h.starts

theorem Sums.starts (h : Sums F ls vs) : ∃ l ls', ls = l :: ls' ∧ startsSum l = true := by
  cases h with
  | last h => exact h.starts
  | more h _ =>
    obtain ⟨l, ls', rfl, hl⟩ := h.starts
    exact ⟨l, _, rfl, hl⟩

end Heads

end Phrase

end Quasiaffine
