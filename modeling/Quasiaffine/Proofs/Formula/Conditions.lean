import Quasiaffine.Proofs.Formula.Expressions
import Quasiaffine.Proofs.Reader.Clause

set_option autoImplicit false

namespace Quasiaffine

theorem Comparison.holds_cast_iff (op : Comparison) (a b : ℤ) :
    op.holds a b = true ↔ op.Relates a b := by
  cases op <;> simp [holds, Relates]

theorem Lexeme.comparison?_mark (op : Comparison) :
    (Lexeme.mark op.mark).comparison? = some op := by
  cases op <;> rfl

namespace Frame

variable {F : Frame} {names : List String}

theorem Knows.declare (h : F.Knows names) (x : String) :
    (F.declare (some x)).Knows (x :: names) := by
  intro y
  by_cases hy : y = x
  · subst hy
    simp [Frame.declare, Scope.position?_declare]
  · rw [Frame.declare, Scope.position?_declare_of_ne (by simpa using Ne.symm hy), ← h y]
    simp [hy]

theorem Knows.declare_none (h : F.Knows names) : (F.declare none).Knows names := by
  intro y
  rw [Frame.declare, Scope.position?_declare_of_ne (Option.some_ne_none y).symm, ← h y]

theorem Knows.position?_eq_none (h : F.Knows names) {x : String} (hx : x ∉ names) :
    F.scope.position? x = none := by
  rw [← Option.not_isSome_iff_eq_none, ← h x]
  exact hx

theorem entry_concat {x : Row} (hx : x.length = F.size) (a : ℤ) :
    Row.entry (x ++ [a]) F.size = a := by
  rw [Row.entry_append, if_neg (by omega), hx, Nat.sub_self]
  rfl

theorem env_declare {x : Row} (hx : x.length = F.size) (name : String) (a : ℤ) :
    (F.declare (some name)).scope.env (x ++ [a]) = Function.update (F.scope.env x) name a := by
  funext y
  by_cases hy : y = name
  · subst hy
    rw [Function.update_self]
    exact (Scope.env_eq_entry (Scope.position?_declare F.scope y)).trans (entry_concat hx a)
  · rw [Function.update_of_ne hy, Scope.env, Frame.declare,
      Scope.position?_declare_of_ne (by simpa using Ne.symm hy)]
    exact congrFun (Scope.env_append hx) y

theorem env_declare_none {x : Row} (hx : x.length = F.size) (a : ℤ) :
    (F.declare none).scope.env (x ++ [a]) = F.scope.env x := by
  funext y
  rw [Scope.env, Frame.declare, Scope.position?_declare_of_ne (Option.some_ne_none y).symm]
  exact congrFun (Scope.env_append hx) y

end Frame

namespace Formula

open Phrase

variable {F : Frame} {names : List String}

theorem allCompare_iff {us ws : List (Row → ℚ)} {x : Row} {as bs : List ℤ} {op : Comparison}
    (ha : us.map (· x) = as.map fun a : ℤ => (a : ℚ))
    (hb : ws.map (· x) = bs.map fun b : ℤ => (b : ℚ)) :
    AllCompare op us ws x ↔ ∀ a ∈ as, ∀ b ∈ bs, op.Relates a b := by
  have hleft : AllCompare op us ws x ↔
      ∀ u ∈ us.map (· x), ∀ w ∈ ws.map (· x), op.holds u w = true := by
    simp [AllCompare]
  rw [hleft, ha, hb]
  simp [Comparison.holds_cast_iff]

theorem Chain.isPhrase (hF : F.Knows names) (chain : Chain) (h : chain.In names)
    (us : List (Row → ℚ)) :
    ∃ C, Phrase.Chain F us chain.tokens C ∧ ∀ x as, us.map (· x) = as.map (fun a : ℤ => (a : ℚ)) →
      (C x ↔ chain.Holds (F.scope.env x) as) := by
  induction chain generalizing us with
  | last op es =>
    exact ⟨_, .last (Lexeme.comparison?_mark op) (es.isPhrase hF h),
      fun x as has => allCompare_iff has (es.map_functions x)⟩
  | more op es chain ih =>
    obtain ⟨C, hC, hiff⟩ := ih h.2 (es.functions F)
    exact ⟨_, .more (Lexeme.comparison?_mark op) (es.isPhrase hF h.1) hC, fun x as has =>
      and_congr (allCompare_iff has (es.map_functions x)) (hiff x _ (es.map_functions x))⟩

theorem Var.isPhrase (hF : F.Knows names) (v : Var) (h : v.In names) :
    ∃ D, Variable F v.tokens (F.declare (some v.name.1)) D ∧
      ∀ (x : Row) (a : ℤ), x.length = F.size → (D (x ++ [a]) ↔ v.Allows (F.scope.env x) a) := by
  have hfree := hF.position?_eq_none h.1
  obtain ⟨name, definition⟩ := v
  cases definition with
  | none => exact ⟨_, .free hfree, fun x a _ => by simp [Allows]⟩
  | some e =>
    refine ⟨_, .defined hfree (e.isPhrase (hF.declare name.1) (h.2 e rfl)).sum, fun x a hx => ?_⟩
    simp only [Frame.entry_concat hx, Expr.value, Frame.env_declare hx, Allows, Option.mem_some_iff,
      forall_eq']
    exact Int.cast_inj

theorem exists_row_iff {G : Frame} {label : Label} (hle : (F.declare label).size ≤ G.size)
    {p : Row → Prop} : (∃ y : Row, y.length = G.size - F.size ∧ p y) ↔
      ∃ (a : ℤ) (y : Row), y.length = G.size - (F.declare label).size ∧ p (a :: y) := by
  rw [Frame.size_declare] at hle ⊢
  constructor
  · rintro ⟨_ | ⟨a, y⟩, hy, hp⟩
    · rw [List.length_nil] at hy
      omega
    · rw [List.length_cons] at hy
      exact ⟨a, y, by omega, hp⟩
  · rintro ⟨a, y, hy, hp⟩
    exact ⟨a :: y, by rw [List.length_cons]; omega, hp⟩

theorem isPhrase_vars (vs : List Var) (v : Var) (hF : F.Knows names) (h : VarsIn names (v :: vs)) :
    ∃ G D, Variables F (listed Var.tokens (v :: vs)) G D ∧
      G.Knows (((v :: vs).map (·.name.1)).reverse ++ names) ∧
      ∀ (body : Row → Prop) (property : Env → Prop),
        (∀ z, z.length = G.size → (body z ↔ property (G.scope.env z))) →
        ∀ x : Row, x.length = F.size →
          ((∃ y : Row, y.length = G.size - F.size ∧ D (x ++ y) ∧ body (x ++ y)) ↔
            SomeValues property (F.scope.env x) (v :: vs)) := by
  induction vs generalizing F names v with
  | nil =>
    obtain ⟨D, hD, hallows⟩ := v.isPhrase hF h.1
    refine ⟨_, D, .last hD, hF.declare _, fun body property hbody x hx => ?_⟩
    rw [exists_row_iff (Nat.le_refl _)]
    refine exists_congr fun a => ?_
    rw [SomeValues, ← Frame.env_declare hx, ← hbody (x ++ [a]) (by simp [hx]), ← hallows x a hx]
    simp [List.length_eq_zero_iff]
  | cons w ws ih =>
    obtain ⟨D, hD, hallows⟩ := v.isPhrase hF h.1
    obtain ⟨G, E, hE, hG, hiff⟩ := ih w (hF.declare v.name.1) h.2
    refine ⟨G, _, .more hD hE, by simpa using hG, fun body property hbody x hx => ?_⟩
    have htake : ∀ (a : ℤ) (y : Row),
        (x ++ a :: y).take (F.declare (some v.name.1)).size = x ++ [a] := fun a y => by
      rw [List.append_cons, Frame.size_declare, ← hx, List.take_left' (by simp)]
    rw [exists_row_iff hE.extends.size_le, SomeValues]
    refine exists_congr fun a => ?_
    rw [← Frame.env_declare hx, ← hiff body property hbody (x ++ [a]) (by simp [hx]),
      ← hallows x a hx]
    simp only [htake, List.append_assoc, List.singleton_append]
    constructor
    · rintro ⟨y, hy, ⟨hDy, hEy⟩, hb⟩
      exact ⟨hDy, y, hy, hEy, hb⟩
    · rintro ⟨hDy, y, hy, hEy, hb⟩
      exact ⟨y, hy, ⟨hDy, hEy⟩, hb⟩

/-- A condition that holds where a phrase does, of which its tokens are a phrase. -/
structure Cond.IsPhrase (fails q : Prop) (F : Frame) (P : Row → Prop) (c : Cond) (C : Row → Prop) :
    Prop where
  condition : Condition fails q F P (c.tokens true) C
  conjunction (last : Bool) : 1 ≤ c.level → Conjunction fails q F P last (c.tokens last) C
  signed (last : Bool) : 2 ≤ c.level → Signed fails q F P last (c.tokens last) C
  conjunct (last : Bool) : 3 ≤ c.level → Conjunct fails q F P last (c.tokens last) C
  points : ∀ x : Row, x.length = F.size → (C x ↔ c.Holds (F.scope.env x))

namespace Cond

variable {fails q : Prop} {P C : Row → Prop} {c : Cond}

theorem isPhrase_of_conjunct (h : ∀ last, Conjunct fails q F P last (c.tokens last) C)
    (hC : ∀ x : Row, x.length = F.size → (C x ↔ c.Holds (F.scope.env x))) :
    c.IsPhrase fails q F P C where
  condition := .single (.single (.plain (h true)))
  conjunction last _ := .single (.plain (h last))
  signed last _ := .plain (h last)
  conjunct last _ := h last
  points := hC

theorem isPhrase_of_signed (h : ∀ last, Signed fails q F P last (c.tokens last) C)
    (hC : ∀ x : Row, x.length = F.size → (C x ↔ c.Holds (F.scope.env x))) (hl : c.level = 2) :
    c.IsPhrase fails q F P C where
  condition := .single (.single (h true))
  conjunction last _ := .single (h last)
  signed last _ := h last
  conjunct last h3 := absurd h3 (by omega)
  points := hC

theorem isPhrase_of_conjunction (h : ∀ last, Conjunction fails q F P last (c.tokens last) C)
    (hC : ∀ x : Row, x.length = F.size → (C x ↔ c.Holds (F.scope.env x))) (hl : c.level = 1) :
    c.IsPhrase fails q F P C where
  condition := .single (h true)
  conjunction last _ := h last
  signed last h2 := absurd h2 (by omega)
  conjunct last h3 := absurd h3 (by omega)
  points := hC

theorem isPhrase_of_condition (h : Condition fails q F P (c.tokens true) C)
    (hC : ∀ x : Row, x.length = F.size → (C x ↔ c.Holds (F.scope.env x))) (hl : c.level = 0) :
    c.IsPhrase fails q F P C where
  condition := h
  conjunction last h1 := absurd h1 (by omega)
  signed last h2 := absurd h2 (by omega)
  conjunct last h3 := absurd h3 (by omega)
  points := hC

theorem IsPhrase.parens (h : c.IsPhrase fails q F P C) (last : Bool) :
    Conjunct fails q F P last (inParens (c.tokens true)) C := .paren h.condition

theorem IsPhrase.fittedConjunct (h : c.IsPhrase fails q F P C) (last : Bool) :
    Conjunct fails q F P last
      (if 3 ≤ c.level then c.tokens last else inParens (c.tokens true)) C := by
  split
  · rename_i hl
    exact h.conjunct last hl
  · exact h.parens last

theorem IsPhrase.fittedSigned (h : c.IsPhrase fails q F P C) (last : Bool) :
    Signed fails q F P last
      (if 2 ≤ c.level then c.tokens last else inParens (c.tokens true)) C := by
  split
  · rename_i hl
    exact h.signed last hl
  · exact .plain (h.parens last)

theorem IsPhrase.fittedConjunction (h : c.IsPhrase fails q F P C) (last : Bool) :
    Conjunction fails q F P last
      (if 1 ≤ c.level then c.tokens last else inParens (c.tokens true)) C := by
  split
  · rename_i hl
    exact h.conjunction last hl
  · exact .single (.plain (h.parens last))

theorem isPhrase (c : Cond) (hF : F.Knows names) (h : c.In names) (hq : c.hasExists = true → q)
    (hfails : c.negatesExists = true → fails) (P : Row → Prop) :
    ∃ C, c.IsPhrase fails q F P C := by
  induction c generalizing F names q P with
  | always => exact ⟨_, isPhrase_of_conjunct (fun _ => .always) fun _ _ => Iff.rfl⟩
  | never => exact ⟨_, isPhrase_of_conjunct (fun _ => .never) fun _ _ => Iff.rfl⟩
  | compare left chain =>
    obtain ⟨C, hC, hiff⟩ := chain.isPhrase hF h.2 (left.functions F)
    exact ⟨C, isPhrase_of_conjunct (fun _ => .comparisons (.chain (left.isPhrase hF h.1) hC))
      fun x _ => hiff x _ (left.map_functions x)⟩
  | and a b iha ihb =>
    simp only [hasExists, negatesExists, Bool.or_eq_true] at hq hfails
    obtain ⟨A, hA⟩ := iha hF h.1 (fun h => hq (.inl h)) (fun h => hfails (.inl h)) P
    obtain ⟨B, hB⟩ := ihb hF h.2 (fun h => hq (.inr h)) (fun h => hfails (.inr h)) P
    exact ⟨_, isPhrase_of_conjunction
      (fun last => .cons (hA.fittedSigned false) (hB.fittedConjunction last))
      (fun x hx => and_congr (hA.points x hx) (hB.points x hx)) rfl⟩
  | or a b iha ihb =>
    simp only [hasExists, negatesExists, Bool.or_eq_true] at hq hfails
    obtain ⟨A, hA⟩ := iha hF h.1 (fun h => hq (.inl h)) (fun h => hfails (.inl h)) P
    obtain ⟨B, hB⟩ := ihb hF h.2 (fun h => hq (.inr h)) (fun h => hfails (.inr h)) P
    exact ⟨_, isPhrase_of_condition (.cons (hA.fittedConjunction false) hB.condition)
      (fun x hx => or_congr (hA.points x hx) (hB.points x hx)) rfl⟩
  -- Behind `not` there may be quantifiers only if reading is allowed to fail.
  | not a ih =>
    simp only [negatesExists, Bool.or_eq_true] at hfails
    obtain ⟨A, hA⟩ := ih (q := a.hasExists = true) hF h id (fun h => hfails (.inr h)) P
    exact ⟨_, isPhrase_of_signed
      (fun last => .negated (fun h => hfails (.inl h)) (hA.fittedConjunct last))
      (fun x hx => not_congr (hA.points x hx)) rfl⟩
  | paren a ih =>
    obtain ⟨A, hA⟩ := ih hF h hq hfails P
    exact ⟨A, isPhrase_of_conjunct (fun last => hA.parens last) hA.points⟩
  -- The body is read over a larger frame. An open quantifier reaches as far as it can, so it
  -- needs parentheses where something follows.
  | exist isClosed v vs body ih =>
    obtain ⟨G, D, hD, hG, hiff⟩ := isPhrase_vars vs v hF h.1
    obtain ⟨B, hB⟩ := ih hG h.2 (fun _ => hq rfl) hfails fun x => P (x.take F.size) ∧ D x
    refine ⟨_, isPhrase_of_conjunct (fun last => ?_) (hiff B (body.Holds ·) hB.points)⟩
    have hopen : Conjunct fails q F P true (.keyword .exist true ::
        (listed Var.tokens (v :: vs) ++ .mark .colon :: body.tokens true)) _ :=
      .exist (hq rfl) hD hB.condition
    cases isClosed with
    | true =>
      rw [tokens, if_pos rfl, inParens, List.append_assoc]
      exact .existParen (hq rfl) hD hB.condition
    | false =>
      cases last with
      | true => exact hopen
      | false => exact .paren (.single (.single (.plain hopen)))

end Cond

end Formula

end Quasiaffine
