import Mathlib
import Quasiaffine.Proofs.Token.Scanning
import Quasiaffine.Reader.Shape
import Quasiaffine.Space.Basic

/-!
Formulas: expressions, conditions and whole texts, with how they are written and what they say. The
numbers are integers, and the names stand for integers.
-/

set_option autoImplicit false

namespace Quasiaffine

def Comparison.Relates : Comparison → ℤ → ℤ → Prop
  | .eq, a, b => a = b
  | .ne, a, b => a ≠ b
  | .le, a, b => a ≤ b
  | .lt, a, b => a < b
  | .ge, a, b => b ≤ a
  | .gt, a, b => b < a

def Comparison.mark : Comparison → Mark
  | .eq => .eq
  | .ne => .ne
  | .le => .le
  | .lt => .lt
  | .ge => .ge
  | .gt => .gt

namespace Formula

def Name := {x : String // IsName x}

/-- The values of all names. -/
abbrev Env := String → ℤ

mutual

inductive Expr where
  | literal (value : ℤ)
  | name (x : Name)
  | negated (a : Expr)
  | sum (a b : Expr)
  | difference (a b : Expr)
  | multiple (factor : ℤ) (a : Expr)
  | paren (a : Expr)
  /-- The rounded quotient in brackets. -/
  | floor (a : Expr) (divisor : ℕ+)
  | floord (a : Expr) (divisor : ℕ+)
  | ceild (a : Expr) (divisor : ℕ+)
  | least (es : Exprs)
  | greatest (es : Exprs)
  | remainder (a : Expr) (modulus : ℕ+)

inductive Exprs where
  | last (e : Expr)
  | more (e : Expr) (es : Exprs)

end

inductive Chain where
  | last (op : Comparison) (es : Exprs)
  | more (op : Comparison) (es : Exprs) (chain : Chain)

structure Var where
  name : Name
  definition : Option Expr

inductive Cond where
  | always
  | never
  | compare (left : Exprs) (chain : Chain)
  | and (a b : Cond)
  | or (a b : Cond)
  | not (a : Cond)
  | paren (a : Cond)
  | exist (inParens : Bool) (v : Var) (vs : List Var) (body : Cond)

inductive Item where
  | var (v : Var)
  | expression (e : Expr)

inductive Listing where
  | flat (name : Option Name) (items : List Item)
  | wrap (name : Option Name) (domain range : Listing)

def Listing.name : Listing → Option Name
  | .flat name _ | .wrap name _ _ => name

def Listing.items : Listing → List Item
  | .flat _ items => items
  | .wrap _ domain range => domain.items ++ range.items

structure Text where
  params : Option (List Var)
  first : Listing
  second : Option Listing
  condition : Cond

section Tokens

def inParens (ls : List Lexeme) : List Lexeme := .mark .leftParen :: (ls ++ [.mark .rightParen])

/-- Parentheses around tokens that do not fit in as they stand. -/
def fitted (fits : Bool) (ls : List Lexeme) : List Lexeme := if fits then ls else inParens ls

/-- How tightly an expression binds: as a sum, as a factor or as an operand. -/
def Expr.level : Expr → Nat
  | .negated _ | .sum _ _ | .difference _ _ => 0
  | .literal _ | .multiple _ _ | .remainder _ _ => 1
  | _ => 2

def Expr.isLiteral : Expr → Bool
  | .literal _ => true
  | _ => false

mutual

def Expr.tokens : Expr → List Lexeme
  | .literal c => [.number c]
  | .name x => [.identifier x.1]
  | .negated a => .mark .minus :: fitted (1 ≤ a.level) a.tokens
  | .sum a b => a.tokens ++ .mark .plus :: fitted (1 ≤ b.level) b.tokens
  | .difference a b => a.tokens ++ .mark .minus :: fitted (1 ≤ b.level) b.tokens
  | .multiple c a => .number c :: .mark .star :: fitted (1 ≤ a.level) a.tokens
  | .paren a => inParens a.tokens
  | .floor a d => .mark .leftBracket :: (fitted (a.isLiteral || 2 ≤ a.level) a.tokens ++
      [.mark .slash, .number d, .mark .rightBracket])
  | .floord a d => .keyword .floord true :: .mark .leftParen ::
      (a.tokens ++ [.mark .comma, .number d, .mark .rightParen])
  | .ceild a d => .keyword .ceild true :: .mark .leftParen ::
      (a.tokens ++ [.mark .comma, .number d, .mark .rightParen])
  | .least es => .keyword .min true :: inParens es.tokens
  | .greatest es => .keyword .max true :: inParens es.tokens
  | .remainder a m => fitted (2 ≤ a.level) a.tokens ++ [.mark .percent, .number m]

def Exprs.tokens : Exprs → List Lexeme
  | .last e => e.tokens
  | .more e es => e.tokens ++ .mark .comma :: es.tokens

end

def Chain.tokens : Chain → List Lexeme
  | .last op es => .mark op.mark :: es.tokens
  | .more op es chain => .mark op.mark :: (es.tokens ++ chain.tokens)

def Var.tokens (v : Var) : List Lexeme :=
  .identifier v.name.1 :: v.definition.elim [] fun e => .mark .eq :: e.tokens

def Item.tokens : Item → List Lexeme
  | .var v => v.tokens
  | .expression e => e.tokens

def listed {α : Type} (tokens : α → List Lexeme) : List α → List Lexeme
  | [] => []
  | [a] => tokens a
  | a :: as => tokens a ++ .mark .comma :: listed tokens as

def Cond.level : Cond → Nat
  | .or _ _ => 0
  | .and _ _ => 1
  | .not _ => 2
  | _ => 3

/-- A condition as the `last` part of what is around it, or not. Only in the last part may the
condition behind `exists` go on to its end. -/
def Cond.tokens : (last : Bool) → Cond → List Lexeme
  | _, .always => [.keyword .always true]
  | _, .never => [.keyword .never true]
  | _, .compare left chain => left.tokens ++ chain.tokens
  | last, .and a b =>
    (if 2 ≤ a.level then a.tokens false else inParens (a.tokens true)) ++ .keyword .and true ::
      if 1 ≤ b.level then b.tokens last else inParens (b.tokens true)
  | last, .or a b =>
    (if 1 ≤ a.level then a.tokens false else inParens (a.tokens true)) ++ .keyword .or true ::
      b.tokens last
  | last, .not a =>
    .keyword .not true :: if 3 ≤ a.level then a.tokens last else inParens (a.tokens true)
  | _, .paren a => inParens (a.tokens true)
  | last, .exist isClosed v vs body =>
    let vars := listed Var.tokens (v :: vs)
    if isClosed then .keyword .exist true :: inParens (vars ++ .mark .colon :: body.tokens true)
    else fitted last (.keyword .exist true :: (vars ++ .mark .colon :: body.tokens true))

def inBrackets (ls : List Lexeme) : List Lexeme :=
  .mark .leftBracket :: (ls ++ [.mark .rightBracket])

def titled (name : Option Name) (ls : List Lexeme) : List Lexeme :=
  name.elim ls fun x => .identifier x.1 :: ls

def Listing.tokens : Listing → List Lexeme
  | .flat name items => titled name (inBrackets (listed Item.tokens items))
  | .wrap name domain range =>
    titled name (inBrackets (domain.tokens ++ .mark .arrow :: range.tokens))

def Text.header (t : Text) : List Lexeme :=
  t.params.elim [] fun vs => inBrackets (listed Var.tokens vs) ++ [.mark .arrow]

def Text.body (t : Text) : List Lexeme :=
  t.first.tokens ++
    (t.second.elim [] (fun second => .mark .arrow :: second.tokens) ++
      .mark .colon :: t.condition.tokens true)

def Text.tokens (t : Text) : List Lexeme :=
  t.header ++ .mark .leftBrace :: (t.body ++ [.mark .rightBrace])

def Text.source (t : Text) : String := String.join (t.tokens.map fun l => l.text ++ " ")

end Tokens

section Meaning

mutual

/-- Division by a positive number rounds down. -/
def Expr.eval (env : Env) : Expr → ℤ
  | .literal c => c
  | .name x => env x.1
  | .negated a => -a.eval env
  | .sum a b => a.eval env + b.eval env
  | .difference a b => a.eval env - b.eval env
  | .multiple c a => c * a.eval env
  | .paren a => a.eval env
  | .floor a d => a.eval env / (d : ℕ)
  | .floord a d => a.eval env / (d : ℕ)
  | .ceild a d => -(-a.eval env / (d : ℕ))
  | .least es => (es.values env).min?.getD 0
  | .greatest es => (es.values env).max?.getD 0
  | .remainder a m => a.eval env % (m : ℕ)

def Exprs.values (env : Env) : Exprs → List ℤ
  | .last e => [e.eval env]
  | .more e es => e.eval env :: es.values env

end

def Chain.Holds (env : Env) (left : List ℤ) : Chain → Prop
  | .last op es => ∀ a ∈ left, ∀ b ∈ es.values env, op.Relates a b
  | .more op es chain =>
    (∀ a ∈ left, ∀ b ∈ es.values env, op.Relates a b) ∧ chain.Holds env (es.values env)

def Var.Allows (env : Env) (v : Var) (a : ℤ) : Prop :=
  ∀ e ∈ v.definition, a = e.eval (Function.update env v.name.1 a)

def SomeValues (property : Env → Prop) : Env → List Var → Prop
  | env, [] => property env
  | env, v :: vs =>
    ∃ a, v.Allows env a ∧ SomeValues property (Function.update env v.name.1 a) vs

def Cond.Holds : Env → Cond → Prop
  | _, .always => True
  | _, .never => False
  | env, .compare left chain => chain.Holds env (left.values env)
  | env, .and a b => a.Holds env ∧ b.Holds env
  | env, .or a b => a.Holds env ∨ b.Holds env
  | env, .not a => ¬a.Holds env
  | env, .paren a => a.Holds env
  | env, .exist _ v vs body => SomeValues (fun env => body.Holds env) env (v :: vs)

def Item.Allows (env : Env) : Item → ℤ → Prop
  | .var v, a => v.Allows env a
  | .expression e, a => a = e.eval env

def Item.bind (env : Env) : Item → ℤ → Env
  | .var v, a => Function.update env v.name.1 a
  | .expression _, _ => env

def bindAll : Env → List Item → Row → Env
  | env, item :: items, a :: x => bindAll (item.bind env a) items x
  | env, _, _ => env

def AllowAll : Env → List Item → Row → Prop
  | env, item :: items, a :: x => item.Allows env a ∧ AllowAll (item.bind env a) items x
  | _, _, _ => True

def Text.parameters (t : Text) : List Item := (t.params.getD []).map .var

def Text.items (t : Text) : List Item :=
  t.parameters ++ t.first.items ++ t.second.elim [] Listing.items

/-- Whether a text describes a point: the definitions of its dimensions and its condition hold, where
the names stand for the coordinates. -/
def Text.Holds (t : Text) (x : Row) : Prop :=
  AllowAll (fun _ => 0) t.items x ∧ t.condition.Holds (bindAll (fun _ => 0) t.items x)

def Item.label : Item → Label
  | .var v => some (Grammar.dimensionName v.name.1)
  | .expression _ => none

def Listing.tuple : Listing → Tuple
  | .flat name items => .flat (name.map (·.1)) (items.map Item.label)
  | .wrap name domain range => .wrap (name.map (·.1)) domain.tuple range.tuple

def Text.space (t : Text) : Space :=
  let params := (t.params.getD []).map fun v => some v.name.1
  match t.second with
  | none => .ofSet params t.first.tuple
  | some second => .ofRelation params t.first.tuple second.tuple

end Meaning

section Closed

mutual

def Expr.In (names : List String) : Expr → Prop
  | .literal _ => True
  | .name x => x.1 ∈ names
  | .sum a b | .difference a b => a.In names ∧ b.In names
  | .negated a | .multiple _ a | .paren a | .floor a _ | .floord a _ | .ceild a _
  | .remainder a _ => a.In names
  | .least es | .greatest es => es.In names

def Exprs.In (names : List String) : Exprs → Prop
  | .last e => e.In names
  | .more e es => e.In names ∧ es.In names

end

def Chain.In (names : List String) : Chain → Prop
  | .last _ es => es.In names
  | .more _ es chain => es.In names ∧ chain.In names

/-- Whether a variable has a new name and a definition in which it may occur. -/
def Var.In (names : List String) (v : Var) : Prop :=
  v.name.1 ∉ names ∧ ∀ e ∈ v.definition, e.In (v.name.1 :: names)

def VarsIn : List String → List Var → Prop
  | _, [] => True
  | names, v :: vs => v.In names ∧ VarsIn (v.name.1 :: names) vs

def Cond.In : List String → Cond → Prop
  | _, .always | _, .never => True
  | names, .compare left chain => left.In names ∧ chain.In names
  | names, .and a b | names, .or a b => a.In names ∧ b.In names
  | names, .not a | names, .paren a => a.In names
  | names, .exist _ v vs body => VarsIn names (v :: vs) ∧
      body.In (((v :: vs).map (·.name.1)).reverse ++ names)

def Item.extend (names : List String) : Item → List String
  | .var v => v.name.1 :: names
  | .expression _ => names

def Item.In (names : List String) : Item → Prop
  | .var v => v.In names
  | .expression e => e.In names

def ItemsIn : List String → List Item → Prop
  | _, [] => True
  | names, item :: items => item.In names ∧ ItemsIn (item.extend names) items

/-- Whether each name of a text is declared once, in front of its uses. The first tuple is not
called `Sym`, which declares parameters. -/
structure Text.WellFormed (t : Text) : Prop where
  items : ItemsIn [] t.items
  condition : t.condition.In (t.items.foldl Item.extend [])
  first : ∀ x ∈ t.first.name, x.1 ≠ "Sym"

def Cond.hasExists : Cond → Bool
  | .always | .never | .compare _ _ => false
  | .and a b | .or a b => a.hasExists || b.hasExists
  | .not a | .paren a => a.hasExists
  | .exist _ _ _ _ => true

/-- Whether there is a quantifier under a negation. -/
def Cond.negatesExists : Cond → Bool
  | .always | .never | .compare _ _ => false
  | .and a b | .or a b => a.negatesExists || b.negatesExists
  | .paren a | .exist _ _ _ a => a.negatesExists
  | .not a => a.hasExists || a.negatesExists

end Closed

end Formula

end Quasiaffine
