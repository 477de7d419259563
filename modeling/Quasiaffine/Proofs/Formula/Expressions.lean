import Quasiaffine.Proofs.Formula.Basic
import Quasiaffine.Proofs.Reader.Phrase

set_option autoImplicit false

namespace Quasiaffine

namespace Phrase

variable {F : Frame}

mutual

theorem Summands.append {ls ls' : List Lexeme} {u w w' : Row → ℚ} (hm : More F ls' w') :
    Summands F ls u w → Summands F (ls ++ ls') u fun x => w x + w' x
  | .negated h => .negated (Summands.append hm h)
  | .term ht h => by
    rw [List.append_assoc]
    exact .term ht (More.append hm h)

theorem More.append {ls ls' : List Lexeme} {w w' : Row → ℚ} (hm : More F ls' w') :
    More F ls w → More F (ls ++ ls') fun x => w x + w' x
  | .done => by simpa using hm
  | .plus h => by
    simp only [add_assoc]
    exact .plus (Summands.append hm h)
  | .minus h => by
    simp only [add_assoc]
    exact .minus (Summands.append hm h)

end

variable {ls ls' : List Lexeme} {v u : Row → ℚ}

theorem Sum.plus (h : Sum F ls v) (ht : Factor F ls' u) :
    Sum F (ls ++ .mark .plus :: ls') fun x => v x + u x := by
  cases h with
  | summands h =>
    have hmore : More F (.mark .plus :: (ls' ++ [])) fun x => u x + 0 :=
      .plus (.term (.factor ht) .done)
    simp only [List.append_nil, add_zero] at hmore
    simp only [add_assoc]
    exact .summands (Summands.append hmore h)

theorem Sum.minus (h : Sum F ls v) (ht : Factor F ls' u) :
    Sum F (ls ++ .mark .minus :: ls') fun x => v x - u x := by
  cases h with
  | summands h =>
    have hmore : More F (.mark .minus :: (ls' ++ [])) fun x => -u x + 0 :=
      .minus (.term (.factor ht) .done)
    simp only [List.append_nil, add_zero] at hmore
    simp only [sub_eq_add_neg, add_assoc]
    exact .summands (Summands.append hmore h)

theorem Factor.sum (h : Factor F ls v) : Sum F ls v := by
  have hsum : Sum F (ls ++ []) fun x => v x + 0 := .summands (.term (.factor h) .done)
  simpa using hsum

theorem Factor.negated (h : Factor F ls v) : Sum F (.mark .minus :: ls) fun x => -v x := by
  have hsum : Sum F (.mark .minus :: (ls ++ [])) fun x => -v x + 0 :=
    .summands (.negated (.term (.factor h) .done))
  simpa using hsum

end Phrase

def Frame.Knows (F : Frame) (names : List String) : Prop :=
  ∀ x, x ∈ names ↔ (F.scope.position? x).isSome = true

namespace Formula

open Phrase

variable {F : Frame} {names : List String}

def Expr.value (F : Frame) (e : Expr) (x : Row) : ℚ := e.eval (F.scope.env x)

def Exprs.functions (F : Frame) : Exprs → List (Row → ℚ)
  | .last e => [e.value F]
  | .more e es => e.value F :: es.functions F

theorem Exprs.map_functions (x : Row) : ∀ es : Exprs,
    (es.functions F).map (· x) = (es.values (F.scope.env x)).map (fun a : ℤ => (a : ℚ))
  | .last e => rfl
  | .more e es => by
    rw [functions, values, List.map_cons, List.map_cons, map_functions x es]
    rfl

theorem Exprs.functions_eq_cons : ∀ es : Exprs,
    ∃ e fs, es.functions F = Expr.value F e :: fs ∧
      ∀ x, ∃ as, es.values (F.scope.env x) = e.eval (F.scope.env x) :: as ∧
        fs.map (· x) = as.map (fun a : ℤ => (a : ℚ))
  | .last e => ⟨e, [], rfl, fun _ => ⟨[], rfl, rfl⟩⟩
  | .more e es => ⟨e, es.functions F, rfl, fun x => ⟨_, rfl, es.map_functions x⟩⟩

/-- An expression whose tokens are a phrase with its values. -/
structure Expr.IsPhrase (F : Frame) (e : Expr) : Prop where
  sum : Sum F e.tokens (e.value F)
  factor : 1 ≤ e.level → Factor F e.tokens (e.value F)
  operand : 2 ≤ e.level → Operand F e.tokens (e.value F)

namespace Expr

variable {e : Expr} {v : Row → ℚ}

theorem isPhrase_of_operand (h : Operand F e.tokens v) (hv : ∀ x, v x = e.value F x) :
    e.IsPhrase F := by
  obtain rfl : v = e.value F := funext hv
  exact ⟨(Factor.operand h).sum, fun _ => .operand h, fun _ => h⟩

theorem isPhrase_of_factor (h : Factor F e.tokens v) (hv : ∀ x, v x = e.value F x)
    (hl : e.level = 1) : e.IsPhrase F := by
  obtain rfl : v = e.value F := funext hv
  exact ⟨h.sum, fun _ => h, fun h2 => absurd h2 (by omega)⟩

theorem isPhrase_of_sum (h : Sum F e.tokens v) (hv : ∀ x, v x = e.value F x) (hl : e.level = 0) :
    e.IsPhrase F := by
  obtain rfl : v = e.value F := funext hv
  exact ⟨h, fun h1 => absurd h1 (by omega), fun h2 => absurd h2 (by omega)⟩

theorem IsPhrase.inParens (h : e.IsPhrase F) : Operand F (inParens e.tokens) (e.value F) :=
  .paren h.sum

theorem IsPhrase.fittedFactor (h : e.IsPhrase F) :
    Factor F (fitted (1 ≤ e.level) e.tokens) (e.value F) := by
  rw [fitted]
  split
  · rename_i hl
    exact h.factor (of_decide_eq_true hl)
  · exact .operand h.inParens

theorem IsPhrase.fittedOperand (h : e.IsPhrase F) :
    Operand F (fitted (2 ≤ e.level) e.tokens) (e.value F) := by
  rw [fitted]
  split
  · rename_i hl
    exact h.operand (of_decide_eq_true hl)
  · exact h.inParens

theorem IsPhrase.quotient (h : e.IsPhrase F) (d : ℕ+) :
    Sum F (fitted (e.isLiteral || 2 ≤ e.level) e.tokens ++ [.mark .slash, .number d])
      fun x => e.value F x / (d : ℤ) := by
  have hd : (0 : ℤ) < d := by exact_mod_cast d.pos
  have hoperand (ho : Operand F (fitted (e.isLiteral || 2 ≤ e.level) e.tokens) (e.value F)) :=
    (Factor.divided hd ho).sum
  cases e with
  | literal c => exact (Factor.literalOver c hd).sum
  | _ => exact hoperand h.fittedOperand

end Expr

theorem floor_div_cast (a : ℤ) (d : ℕ) : ⌊(a : ℚ) / ((d : ℤ) : ℚ)⌋ = a / (d : ℤ) := by
  rw [Int.cast_natCast, Rat.floor_intCast_div_natCast]

theorem foldl_cast {op : ℤ → ℤ → ℤ} {op' : ℚ → ℚ → ℚ}
    (h : ∀ a b : ℤ, op' a b = (op a b : ℤ)) (a : ℤ) (as : List ℤ) :
    (as.map fun b : ℤ => (b : ℚ)).foldl op' a = (as.foldl op a : ℤ) := by
  induction as generalizing a with
  | nil => rfl
  | cons b as ih => rw [List.map_cons, List.foldl_cons, List.foldl_cons, h, ih]

mutual

theorem Expr.isPhrase (hF : F.Knows names) : ∀ e : Expr, e.In names → e.IsPhrase F
  | .literal c, _ => Expr.isPhrase_of_factor (.literal c) (fun _ => rfl) rfl
  | .name x, h => by
    obtain ⟨pos, hpos⟩ := Option.isSome_iff_exists.1 ((hF _).1 h)
    refine Expr.isPhrase_of_operand (.name hpos) fun r => ?_
    rw [Expr.value, Expr.eval, Scope.env_eq_entry hpos]
  | .negated a, h =>
    Expr.isPhrase_of_sum (a.isPhrase hF h).fittedFactor.negated
      (fun x => by simp [Expr.value, Expr.eval]) rfl
  | .sum a b, h =>
    Expr.isPhrase_of_sum ((a.isPhrase hF h.1).sum.plus (b.isPhrase hF h.2).fittedFactor)
      (fun x => by simp [Expr.value, Expr.eval]) rfl
  | .difference a b, h =>
    Expr.isPhrase_of_sum ((a.isPhrase hF h.1).sum.minus (b.isPhrase hF h.2).fittedFactor)
      (fun x => by simp [Expr.value, Expr.eval]) rfl
  | .multiple c a, h =>
    Expr.isPhrase_of_factor (.scaled c (a.isPhrase hF h).fittedFactor)
      (fun x => by simp [Expr.value, Expr.eval]) rfl
  | .paren a, h => Expr.isPhrase_of_operand (.paren (a.isPhrase hF h).sum) fun _ => rfl
  | .floor a d, h => by
    refine Expr.isPhrase_of_operand (v := fun x => ⌊a.value F x / (d : ℤ)⌋) ?_ fun x => ?_
    · have := Operand.floor ((a.isPhrase hF h).quotient d)
      simpa [Expr.tokens] using this
    · exact congrArg _ (floor_div_cast _ d)
  | .floord a d, h => by
    refine Expr.isPhrase_of_operand (.floord (by exact_mod_cast d.pos) (a.isPhrase hF h).sum)
      fun x => ?_
    exact congrArg _ (floor_div_cast _ d)
  | .ceild a d, h => by
    refine Expr.isPhrase_of_operand (.ceild (by exact_mod_cast d.pos) (a.isPhrase hF h).sum)
      fun x => ?_
    rw [← neg_neg (a.value F x), neg_div, Int.ceil_neg]
    have := floor_div_cast (-a.eval (F.scope.env x)) d
    rw [Int.cast_neg] at this
    exact congrArg (fun n : ℤ => ((-n : ℤ) : ℚ)) this
  | .least es, h => by
    obtain ⟨e, fs, hfs, hvalues⟩ := es.functions_eq_cons
    refine Expr.isPhrase_of_operand (.least (hfs ▸ es.isPhrase hF h)) fun x => ?_
    obtain ⟨as, has, hmap⟩ := hvalues x
    rw [hmap, Expr.value, Expr.value, Expr.eval, has, foldl_cast fun a b => (Int.cast_min ..).symm]
    rfl
  | .greatest es, h => by
    obtain ⟨e, fs, hfs, hvalues⟩ := es.functions_eq_cons
    refine Expr.isPhrase_of_operand (.greatest (hfs ▸ es.isPhrase hF h)) fun x => ?_
    obtain ⟨as, has, hmap⟩ := hvalues x
    rw [hmap, Expr.value, Expr.value, Expr.eval, has, foldl_cast fun a b => (Int.cast_max ..).symm]
    rfl
  | .remainder a m, h => by
    refine Expr.isPhrase_of_factor (.mod (by exact_mod_cast m.pos) (a.isPhrase hF h).fittedOperand)
      (fun x => ?_) rfl
    have := floor_div_cast (a.eval (F.scope.env x)) m
    rw [Expr.value, Expr.value, Expr.eval, Int.emod_def]
    push_cast at this ⊢
    rw [this]

theorem Exprs.isPhrase (hF : F.Knows names) : ∀ es : Exprs, es.In names →
    Sums F es.tokens (es.functions F)
  | .last e, h => .last (e.isPhrase hF h).sum
  | .more e es, h => .more (e.isPhrase hF h.1).sum (es.isPhrase hF h.2)

end

end Formula

end Quasiaffine
