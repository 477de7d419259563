import Quasiaffine.Proofs.Formula.Basic
import Quasiaffine.Proofs.Token.Spelling

set_option autoImplicit false

namespace Quasiaffine

@[simp] theorem Comparison.mark_ne_caret (op : Comparison) : op.mark ≠ .caret := by
  cases op <;> nofun

namespace Lexeme

@[simp] theorem written_number (v : ℤ) : (number v).Written := .number v

@[simp] theorem written_keyword (word : Keyword) : (keyword word true).Written := .keyword word

@[simp] theorem written_name (x : Formula.Name) : (identifier x.1).Written := .identifier x.2

@[simp] theorem written_mark_iff {m : Mark} : (mark m).Written ↔ m ≠ .caret :=
  ⟨fun h => by cases h; assumption, .mark⟩

theorem Written.endsBefore_blank {l : Lexeme} (h : l.Written) : l.endsBefore ' ' = true := by
  cases h with
  | mark => rename_i m _; cases m <;> decide
  | _ => simp only [endsBefore]; decide

end Lexeme

def AllWritten (ls : List Lexeme) : Prop := ∀ l ∈ ls, l.Written

section Lists

variable {l : Lexeme} {ls ls' : List Lexeme}

@[simp] theorem allWritten_nil : AllWritten [] := nofun

@[simp] theorem allWritten_cons : AllWritten (l :: ls) ↔ l.Written ∧ AllWritten ls :=
  List.forall_mem_cons

@[simp] theorem allWritten_append : AllWritten (ls ++ ls') ↔ AllWritten ls ∧ AllWritten ls' :=
  List.forall_mem_append

theorem AllWritten.spells (h : AllWritten ls) :
    Spells (String.join (ls.map fun l => l.text ++ " ")).toList (ls ++ [.endOfInput]) := by
  induction ls with
  | nil => exact .done
  | cons l ls ih =>
    rw [allWritten_cons] at h
    have htoken := Spells.token h.1 (by simpa using h.1.endsBefore_blank) (.blank (ih h.2))
    simpa using htoken

end Lists

namespace Formula

@[simp] theorem allWritten_inParens {ls : List Lexeme} :
    AllWritten (inParens ls) ↔ AllWritten ls := by
  simp [inParens]

@[simp] theorem allWritten_inBrackets {ls : List Lexeme} :
    AllWritten (inBrackets ls) ↔ AllWritten ls := by
  simp [inBrackets]

@[simp] theorem allWritten_fitted {fits : Bool} {ls : List Lexeme} :
    AllWritten (fitted fits ls) ↔ AllWritten ls := by
  cases fits <;> simp [fitted]

theorem allWritten_listed {α : Type} {tokens : α → List Lexeme} {as : List α}
    (h : ∀ a ∈ as, AllWritten (tokens a)) : AllWritten (listed tokens as) := by
  induction as with
  | nil => exact allWritten_nil
  | cons a as ih =>
    rw [List.forall_mem_cons] at h
    cases as with
    | nil => exact h.1
    | cons b bs => simpa [listed] using ⟨h.1, ih h.2⟩

mutual

theorem Expr.allWritten : ∀ e : Expr, AllWritten e.tokens
  | .literal _ | .name _ => by simp [Expr.tokens]
  | .negated a | .multiple _ a | .paren a | .floor a _ | .floord a _ | .ceild a _
  | .remainder a _ => by simp [Expr.tokens, a.allWritten]
  | .sum a b | .difference a b => by simp [Expr.tokens, a.allWritten, b.allWritten]
  | .least es | .greatest es => by simp [Expr.tokens, es.allWritten]

theorem Exprs.allWritten : ∀ es : Exprs, AllWritten es.tokens
  | .last e => e.allWritten
  | .more e es => by simp [Exprs.tokens, e.allWritten, es.allWritten]

end

theorem Chain.allWritten (chain : Chain) : AllWritten chain.tokens := by
  induction chain with
  | last op es => simp [tokens, es.allWritten]
  | more op es chain ih => simp [tokens, es.allWritten, ih]

theorem Var.allWritten (v : Var) : AllWritten v.tokens := by
  obtain ⟨name, definition⟩ := v
  cases definition with
  | none => simp [tokens]
  | some e => simp [tokens, e.allWritten]

theorem Cond.allWritten (c : Cond) (last : Bool) : AllWritten (c.tokens last) := by
  induction c generalizing last with
  | always | never => simp [tokens]
  | compare left chain => simp [tokens, left.allWritten, chain.allWritten]
  | and a b iha ihb =>
    rw [tokens]
    split <;> split <;> simp [iha, ihb]
  | or a b iha ihb =>
    rw [tokens]
    split <;> simp [iha, ihb]
  | not a ih =>
    rw [tokens]
    split <;> simp [ih]
  | paren a ih => simp [tokens, ih]
  | exist isClosed v vs body ih =>
    have hvars : AllWritten (listed Var.tokens (v :: vs)) :=
      allWritten_listed fun w _ => w.allWritten
    cases isClosed <;> simp [tokens, hvars, ih]

theorem Item.allWritten : ∀ item : Item, AllWritten item.tokens
  | .var v => v.allWritten
  | .expression e => e.allWritten

theorem allWritten_titled {name : Option Name} {ls : List Lexeme} (h : AllWritten ls) :
    AllWritten (titled name ls) := by
  cases name <;> simp [titled, h]

theorem Listing.allWritten (t : Listing) : AllWritten t.tokens := by
  induction t with
  | flat name items =>
    exact allWritten_titled (by simpa using allWritten_listed fun i _ => i.allWritten)
  | wrap name domain range ihd ihr => exact allWritten_titled (by simp [ihd, ihr])

theorem Text.allWritten (t : Text) : AllWritten t.tokens := by
  obtain ⟨params, first, second, condition⟩ := t
  have hbody : AllWritten (Text.body ⟨params, first, second, condition⟩) := by
    cases second with
    | none => simp [body, first.allWritten, condition.allWritten]
    | some second => simp [body, first.allWritten, second.allWritten, condition.allWritten]
  cases params with
  | none => simp [tokens, header, hbody]
  | some vs =>
    have hparams : AllWritten (listed Var.tokens vs) := allWritten_listed fun v _ => v.allWritten
    simp [tokens, header, hbody, hparams]

/-- The tokens that are read from the source of a text. -/
theorem Text.spells_source (t : Text) : Spells t.source.toList (t.tokens ++ [.endOfInput]) :=
  t.allWritten.spells

end Formula

end Quasiaffine
