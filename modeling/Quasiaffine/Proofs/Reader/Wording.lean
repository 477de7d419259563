import Quasiaffine.Proofs.Reader.Phrase

/-!
All wordings of expressions that the reader takes, with what they are worth at each point. An
operator binds to what stands in front of it unless something inside takes it first, so the kinds of
tokens that a wording would take are written down with it.

A minus negates the value of the term behind it, with one exception: a literal takes the sign before
the remainder of it is taken.
-/

set_option autoImplicit false

namespace Quasiaffine

def Lexeme.IsRemainder (l : Lexeme) : Prop := l.kind = .mark .percent ∨ l.kind = .keyword .mod

instance (l : Lexeme) : Decidable l.IsRemainder := inferInstanceAs (Decidable (_ ∨ _))

theorem Lexeme.IsRemainder.kind_ne {l : Lexeme} (h : l.IsRemainder) {kind : TokenKind}
    (hp : kind ≠ .mark .percent) (hm : kind ≠ .keyword .mod) : l.kind ≠ kind := by
  rintro rfl
  exact h.elim hp hm

namespace Wording

def operators : List TokenKind := [.mark .star, .mark .slash, .mark .percent, .keyword .mod]

inductive Product : List Lexeme → Int → Prop
  | last (n : Int) : Product [.number n] n
  | more {ls : List Lexeme} {k : Int} (n : Int) (h : Product ls k) :
      Product (.number n :: .mark .star :: ls) (n * k)

mutual

/-- An operand. A token of one of the kinds `taken` would go on with it. -/
inductive Operand (F : Frame) : (taken : List TokenKind) → List Lexeme → (Row → ℚ) → Prop
  | read {f : Piecewise} {v : Row → ℚ} (h : f.Denotes F.space v) : Operand F [] [.expression f] v
  | name {x : String} {pos : Nat} (h : F.scope.position? x = some pos) :
      Operand F [] [.identifier x] fun r => r.entry pos
  | literal (c : Int) : Operand F [.mark .star] [.number c] fun _ => c
  | multiple {taken : List TokenKind} {ls : List Lexeme} {v : Row → ℚ} (c : Int)
      (h : Factor F taken ls v) :
      Operand F taken (.number c :: .mark .star :: ls) fun r => c * v r
  | paren {ls : List Lexeme} {v : Row → ℚ} (h : Terms F false ls v) :
      Operand F [] (.mark .leftParen :: (ls ++ [.mark .rightParen])) v
  | floor {ls : List Lexeme} {v : Row → ℚ} (h : Terms F false ls v) :
      Operand F [] (.mark .leftBracket :: (ls ++ [.mark .rightBracket])) fun r => ⌊v r⌋
  | floord {ls : List Lexeme} {v : Row → ℚ} {m : Int} (hm : 0 < m) (h : Terms F false ls v) :
      Operand F [] (.keyword .floord true :: .mark .leftParen ::
        (ls ++ [.mark .comma, .number m, .mark .rightParen])) fun r => ⌊v r / m⌋
  | ceild {ls : List Lexeme} {v : Row → ℚ} {m : Int} (hm : 0 < m) (h : Terms F false ls v) :
      Operand F [] (.keyword .ceild true :: .mark .leftParen ::
        (ls ++ [.mark .comma, .number m, .mark .rightParen])) fun r => ⌈v r / m⌉
  | least {ls : List Lexeme} {v : Row → ℚ} {vs : List (Row → ℚ)} (h : Sums F ls (v :: vs)) :
      Operand F [] (.keyword .min true :: .mark .leftParen :: (ls ++ [.mark .rightParen]))
        fun r => (vs.map (· r)).foldl min (v r)
  | greatest {ls : List Lexeme} {v : Row → ℚ} {vs : List (Row → ℚ)} (h : Sums F ls (v :: vs)) :
      Operand F [] (.keyword .max true :: .mark .leftParen :: (ls ++ [.mark .rightParen]))
        fun r => (vs.map (· r)).foldl max (v r)

inductive Factor (F : Frame) : (taken : List TokenKind) → List Lexeme → (Row → ℚ) → Prop
  | operand {taken : List TokenKind} {ls : List Lexeme} {v : Row → ℚ} (h : Operand F taken ls v) :
      Factor F operators ls v
  | remainder {taken : List TokenKind} {ls : List Lexeme} {v : Row → ℚ} {l : Lexeme} {m : Int}
      (h : Operand F taken ls v) (hl : l.IsRemainder) (ht : l.kind ∉ taken) (hm : 0 < m) :
      Factor F [] (ls ++ [l, .number m]) fun r => v r - m * ⌊v r / m⌋
  | product {taken : List TokenKind} {ls ns : List Lexeme} {v : Row → ℚ} {n : Int}
      (h : Operand F taken ls v) (ht : .mark .star ∉ taken) (hn : Product ns n) :
      Factor F [.mark .star, .mark .slash] (ls ++ .mark .star :: ns) fun r => n * v r
  | quotient {taken : List TokenKind} {ls : List Lexeme} {v : Row → ℚ} {m : Int}
      (h : Operand F taken ls v) (ht : .mark .slash ∉ taken) (hm : 0 < m) :
      Factor F [] (ls ++ [.mark .slash, .number m]) fun r => v r / m
  | productQuotient {taken : List TokenKind} {ls ns : List Lexeme} {v : Row → ℚ} {n m : Int}
      (h : Operand F taken ls v) (ht : .mark .star ∉ taken) (hn : Product ns n) (hm : 0 < m) :
      Factor F [] (ls ++ .mark .star :: (ns ++ [.mark .slash, .number m])) fun r => n * v r / m

inductive Term (F : Frame) : (negated : Bool) → List Lexeme → (Row → ℚ) → Prop
  | literal {negated : Bool} (c : Int) :
      Term F negated [.number c] fun _ => (if negated then -c else c : Int)
  | literalOver {negated : Bool} (c : Int) {m : Int} (hm : 0 < m) :
      Term F negated [.number c, .mark .slash, .number m]
        fun _ => (if negated then -c else c : Int) / m
  | literalRemainder {negated : Bool} (c : Int) {l : Lexeme} {m : Int} (hl : l.IsRemainder)
      (hm : 0 < m) : Term F negated [.number c, l, .number m] fun _ =>
        (if negated then -c else c : Int) - m * ⌊(if negated then -c else c : Int) / (m : ℚ)⌋
  | multiple {negated : Bool} {taken : List TokenKind} {ls : List Lexeme} {v : Row → ℚ} (c : Int)
      (h : Factor F taken ls v) : Term F negated (.number c :: .mark .star :: ls)
        fun r => (if negated then -c else c : Int) * v r
  | juxtaposed {negated : Bool} {taken : List TokenKind} {x : String} {ls : List Lexeme}
      {v : Row → ℚ} (c : Int) (h : Factor F taken (.identifier x :: ls) v) :
      Term F negated (.number c :: .identifier x :: ls)
        fun r => (if negated then -c else c : Int) * v r
  | factor {negated : Bool} {taken : List TokenKind} {l : Lexeme} {ls : List Lexeme} {v : Row → ℚ}
      (hl : Grammar.startsFactor l = true) (h : Factor F taken (l :: ls) v) :
      Term F negated (l :: ls) fun r => if negated then -v r else v r

inductive Terms (F : Frame) : (negated : Bool) → List Lexeme → (Row → ℚ) → Prop
  | sign {negated : Bool} {ls : List Lexeme} {v : Row → ℚ} (h : Terms F (!negated) ls v) :
      Terms F negated (.mark .minus :: ls) v
  | term {negated : Bool} {ls ls' : List Lexeme} {v w : Row → ℚ} (h : Term F negated ls v)
      (hm : More F ls' w) : Terms F negated (ls ++ ls') fun r => v r + w r

/-- What follows a term. A negative literal needs no operator. -/
inductive More (F : Frame) : List Lexeme → (Row → ℚ) → Prop
  | done : More F [] fun _ => 0
  | plus {ls : List Lexeme} {v : Row → ℚ} (h : Terms F false ls v) : More F (.mark .plus :: ls) v
  | minus {ls : List Lexeme} {v : Row → ℚ} (h : Terms F true ls v) : More F (.mark .minus :: ls) v
  | negative {c : Int} {ls : List Lexeme} {v : Row → ℚ} (hc : c < 0)
      (h : Terms F false (.number c :: ls) v) : More F (.number c :: ls) v

inductive Sums (F : Frame) : List Lexeme → List (Row → ℚ) → Prop
  | last {ls : List Lexeme} {v : Row → ℚ} (h : Terms F false ls v) : Sums F ls [v]
  | more {ls ls' : List Lexeme} {v : Row → ℚ} {vs : List (Row → ℚ)} (h : Terms F false ls v)
      (hs : Sums F ls' vs) : Sums F (ls ++ .mark .comma :: ls') (v :: vs)

end

abbrev Sum (F : Frame) (ls : List Lexeme) (v : Row → ℚ) : Prop := Terms F false ls v

section Ends

variable {F : Frame} {taken : List TokenKind} {ls : List Lexeme} {v w : Row → ℚ} {l r : Lexeme}

mutual

theorem Operand.taken_subset : ∀ {taken : List TokenKind} {ls : List Lexeme} {v : Row → ℚ},
    Operand F taken ls v → taken ⊆ operators
  | _, _, _, .literal _ => by simp [operators]
  | _, _, _, .multiple _ h => h.taken_subset
  | _, _, _, .read _ | _, _, _, .name _ | _, _, _, .paren _ | _, _, _, .floor _
  | _, _, _, .floord _ _ | _, _, _, .ceild _ _ | _, _, _, .least _ | _, _, _, .greatest _ =>
    List.nil_subset _

theorem Factor.taken_subset : ∀ {taken : List TokenKind} {ls : List Lexeme} {v : Row → ℚ},
    Factor F taken ls v → taken ⊆ operators
  | _, _, _, .operand _ => List.Subset.refl _
  | _, _, _, .product _ _ _ => by simp [operators]
  | _, _, _, .remainder _ _ _ _ | _, _, _, .quotient _ _ _ | _, _, _, .productQuotient _ _ _ _ =>
    List.nil_subset _

end

/-- A token behind a term binds to no operand in front of it. -/
theorem Factor.kind_notMem (h : Factor F taken ls v) (hr : r.reach ≤ 5) : r.kind ∉ taken := by
  have hreach : ∀ kind ∈ operators, 5 < kind.reach := by decide
  exact fun hmem => r.kind_ne_of_reach_le hr (hreach _ (h.taken_subset hmem)) rfl

theorem Term.length_pos {negated : Bool} (h : Term F negated ls v) : 0 < ls.length := by
  cases h <;> exact Nat.succ_pos _

theorem More.next (h : More F ls w) (hr : r.reach ≤ 4) (rest : List Lexeme) :
    ∃ r' rest', ls ++ r :: rest = r' :: rest' ∧ r'.reach ≤ 5 := by
  cases h with
  | done => exact ⟨r, rest, rfl, Nat.le_succ_of_le hr⟩
  | plus | minus | negative => exact ⟨_, _, rfl, Nat.le_refl 5⟩

end Ends

end Wording

namespace Phrase

variable {F : Frame}

/-- A term of a phrase whose factor is no single literal and begins with none. -/
theorem wording_of_operand {ls ls' : List Lexeme} {u v : Row → ℚ} {taken : List TokenKind}
    (h : Operand F ls u) (hf : Wording.Factor F taken (ls ++ ls') v) (negated : Bool) :
    Wording.Term F negated (ls ++ ls') fun r => if negated then -v r else v r := by
  obtain ⟨l, ls, rfl, hl⟩ := h.starts
  exact .factor hl hf

mutual

theorem Operand.wording : ∀ {ls : List Lexeme} {v : Row → ℚ},
    Operand F ls v → Wording.Operand F [] ls v
  | _, _, .read h => .read h
  | _, _, .name h => .name h
  | _, _, .paren h => .paren h.wording
  | _, _, .floor h => .floor h.wording
  | _, _, .floord hm h => .floord hm h.wording
  | _, _, .ceild hm h => .ceild hm h.wording
  | _, _, .least h => .least h.wording
  | _, _, .greatest h => .greatest h.wording

theorem Factor.wording : ∀ {ls : List Lexeme} {v : Row → ℚ},
    Factor F ls v → ∃ taken, Wording.Factor F taken ls v
  | _, _, .literal c => ⟨_, .operand (.literal c)⟩
  | _, _, .literalOver c hm => ⟨_, .quotient (.literal c) (by decide) hm⟩
  | _, _, .operand h => ⟨_, .operand h.wording⟩
  | _, _, .divided hm h => ⟨_, .quotient h.wording (by simp) hm⟩
  | _, _, .mod hm h => ⟨_, .remainder h.wording (.inl rfl) (by simp) hm⟩
  | _, _, .scaled c h => h.wording.elim fun _ h => ⟨_, .operand (.multiple c h)⟩

theorem Factor.term_wording : ∀ {ls : List Lexeme} {v : Row → ℚ}, Factor F ls v →
    ∀ negated : Bool, Wording.Term F negated ls fun r => if negated then -v r else v r
  | _, _, .literal c, negated => by
    have h : Wording.Term F negated [.number c] _ := .literal c
    convert h using 2
    cases negated <;> simp
  | _, _, .literalOver c hm, negated => by
    have h : Wording.Term F negated _ _ := .literalOver c hm
    convert h using 2
    cases negated <;> simp [neg_div]
  | ls, _, .operand h, negated => by
    have hf := h.wording
    rw [← List.append_nil ls] at hf ⊢
    exact wording_of_operand h (.operand hf) negated
  | _, _, .divided hm h, negated =>
    wording_of_operand h (.quotient h.wording (by simp) hm) negated
  | _, _, .mod hm h, negated =>
    wording_of_operand h (.remainder h.wording (.inl rfl) (by simp) hm) negated
  | _, _, .scaled c h, negated => by
    obtain ⟨taken, h⟩ := h.wording
    have h : Wording.Term F negated _ _ := .multiple c h
    convert h using 2
    cases negated <;> simp

theorem Term.wording : ∀ {ls : List Lexeme} {v : Row → ℚ}, Term F ls v → ∀ negated : Bool,
    Wording.Term F negated ls fun r => if negated then -v r else v r
  | _, _, .factor h, negated => h.term_wording negated
  | _, _, .juxtaposed c h, negated => by
    obtain ⟨taken, h⟩ := h.wording
    have h : Wording.Term F negated _ _ := .juxtaposed c h
    convert h using 2
    cases negated <;> simp

theorem Summands.wording : ∀ {ls : List Lexeme} {u w : Row → ℚ}, Summands F ls u w →
    ∀ negated : Bool, Wording.Terms F negated ls fun r => (if negated then -u r else u r) + w r
  | _, _, _, .negated h, negated => .sign <| by
    convert h.wording (!negated) using 3
    cases negated <;> simp
  | _, _, _, .term h hm, negated => .term (h.wording negated) hm.wording

theorem More.wording : ∀ {ls : List Lexeme} {w : Row → ℚ}, More F ls w → Wording.More F ls w
  | _, _, .done => .done
  | _, _, .plus h => .plus (h.wording false)
  | _, _, .minus h => .minus (h.wording true)

theorem Sum.wording : ∀ {ls : List Lexeme} {v : Row → ℚ}, Sum F ls v → Wording.Sum F ls v
  | _, _, .summands h => h.wording false

theorem Sums.wording : ∀ {ls : List Lexeme} {vs : List (Row → ℚ)}, Sums F ls vs →
    Wording.Sums F ls vs
  | _, _, .last h => .last h.wording
  | _, _, .more h hs => .more h.wording hs.wording

end

end Phrase

end Quasiaffine
