import Quasiaffine.Proofs.Reader.Phrase

/-!
The tokens of conditions and what the conditions say of each point. A parenthesis at the front of a
condition may belong to an expression or to a condition; the reader puts one token in its place,
which leaves a phrase that says the same.
-/

set_option autoImplicit false

namespace Quasiaffine

/-- A set that is read in a frame: its points are those with `P`. It has a division without a
definition only if quantifiers are allowed. -/
structure Frame.Means (F : Frame) (quantifiers : Prop) (r : Relation) (P : Row → Prop) : Prop where
  describes : r.Describes F.space P
  known : quantifiers ∨ r.Known

structure Frame.Extends (F G : Frame) : Prop where
  params : G.params = F.params
  names : F.scope.names <+: G.scope.names

namespace Frame

variable {F G H : Frame}

theorem extends_refl (F : Frame) : F.Extends F := ⟨rfl, List.prefix_rfl⟩

theorem Extends.trans (hFG : F.Extends G) (hGH : G.Extends H) : F.Extends H :=
  ⟨hGH.params.trans hFG.params, hFG.names.trans hGH.names⟩

theorem Extends.size_le (h : F.Extends G) : F.size ≤ G.size := h.names.length_le

theorem Extends.rollback (h : F.Extends G) : G.scope.rollback F.size = F.scope := by
  obtain ⟨labels, hlabels⟩ := h.names
  simp [Scope.rollback, ← hlabels, size, Scope.size]

theorem Extends.space (h : F.Extends G) :
    G.space = .anonymousSet F.params (F.size - F.params + (G.size - F.size)) := by
  have hsize := h.size_le
  have hwithin := F.within
  have hsz : F.size = F.scope.size := rfl
  rw [Frame.space, h.params]
  congr 1
  omega

theorem extends_declare (F : Frame) (label : Label) : F.Extends (F.declare label) where
  params := rfl
  names := ⟨[label], rfl⟩

end Frame

namespace Phrase

def AllCompare (op : Comparison) (us ws : List (Row → ℚ)) (x : Row) : Prop :=
  ∀ u ∈ us, ∀ w ∈ ws, op.holds (u x) (w x) = true

inductive Chain (F : Frame) : List (Row → ℚ) → List Lexeme → (Row → Prop) → Prop
  | last {us ws : List (Row → ℚ)} {l : Lexeme} {ls : List Lexeme} {op : Comparison}
      (hl : l.comparison? = some op) (h : Sums F ls ws) : Chain F us (l :: ls) (AllCompare op us ws)
  | more {us ws : List (Row → ℚ)} {l : Lexeme} {ls ls' : List Lexeme} {op : Comparison}
      {C : Row → Prop} (hl : l.comparison? = some op) (h : Sums F ls ws) (hc : Chain F ws ls' C) :
      Chain F us (l :: (ls ++ ls')) fun x => AllCompare op us ws x ∧ C x

inductive Comparisons (F : Frame) : List Lexeme → (Row → Prop) → Prop
  | chain {us : List (Row → ℚ)} {ls ls' : List Lexeme} {C : Row → Prop} (h : Sums F ls us)
      (hc : Chain F us ls' C) : Comparisons F (ls ++ ls') C

inductive Variable (F : Frame) : List Lexeme → Frame → (Row → Prop) → Prop
  | free {name : String} (hn : F.scope.position? name = none) :
      Variable F [.identifier name] (F.declare (some name)) fun _ => True
  | defined {name : String} {ls : List Lexeme} {v : Row → ℚ} (hn : F.scope.position? name = none)
      (h : Sum (F.declare (some name)) ls v) :
      Variable F (.identifier name :: .mark .eq :: ls) (F.declare (some name))
        fun x => (x.entry F.size : ℚ) = v x

inductive Variables : Frame → List Lexeme → Frame → (Row → Prop) → Prop
  | last {F G : Frame} {ls : List Lexeme} {D : Row → Prop} (h : Variable F ls G D) :
      Variables F ls G D
  | more {F G H : Frame} {ls ls' : List Lexeme} {D E : Row → Prop} (h : Variable F ls G D)
      (hs : Variables G ls' H E) :
      Variables F (ls ++ .mark .comma :: ls') H fun x => D (x.take G.size) ∧ E x

section Variables

variable {F G : Frame} {ls : List Lexeme} {D : Row → Prop}

theorem Variable.extends (h : Variable F ls G D) : F.Extends G := by
  cases h <;> exact F.extends_declare _

theorem Variables.extends (h : Variables F ls G D) : F.Extends G := by
  induction h with
  | last h => exact h.extends
  | more h _ ih => exact h.extends.trans ih

theorem Variables.starts (h : Variables F ls G D) :
    ∃ l ls', ls = l :: ls' ∧ l.kind = .identifier := by
  have hfirst : ∀ {F G ls D}, Variable F ls G D →
      ∃ l ls', ls = l :: ls' ∧ l.kind = .identifier := by
    intro F G ls D h
    cases h <;> exact ⟨_, _, rfl, rfl⟩
  cases h with
  | last h => exact hfirst h
  | more h _ =>
    obtain ⟨l, ls', rfl, hl⟩ := hfirst h
    exact ⟨l, _, rfl, hl⟩

end Variables

variable (fails : Prop)

mutual

/-- A condition without `and`, `or` and `not` outside of parentheses, read over the points with `P`.
If it is the `last` one of a condition, it may end in another condition. It has quantifiers outside
of every `not` only if they are allowed, and under a `not` only if reading may fail. -/
inductive Conjunct : (quantifiers : Prop) → Frame → (Row → Prop) → (last : Bool) → List Lexeme →
    (Row → Prop) → Prop
  | always {q : Prop} {F : Frame} {P : Row → Prop} {last : Bool} :
      Conjunct q F P last [.keyword .always true] fun _ => True
  | never {q : Prop} {F : Frame} {P : Row → Prop} {last : Bool} :
      Conjunct q F P last [.keyword .never true] fun _ => False
  | read {q : Prop} {F : Frame} {P C : Row → Prop} {last : Bool} {r : Relation}
      (h : F.Means q r fun x => P x ∧ C x) : Conjunct q F P last [.condition r] C
  | paren {q : Prop} {F : Frame} {P C : Row → Prop} {last : Bool} {ls : List Lexeme}
      (h : Condition q F P ls C) :
      Conjunct q F P last (.mark .leftParen :: (ls ++ [.mark .rightParen])) C
  | comparisons {q : Prop} {F : Frame} {P C : Row → Prop} {last : Bool} {ls : List Lexeme}
      (h : Comparisons F ls C) : Conjunct q F P last ls C
  | exist {q : Prop} {F G : Frame} {P D C : Row → Prop} {ls ls' : List Lexeme} (hq : q)
      (hv : Variables F ls G D) (h : Condition q G (fun x => P (x.take F.size) ∧ D x) ls' C) :
      Conjunct q F P true (.keyword .exist true :: (ls ++ .mark .colon :: ls'))
        fun x => ∃ y : Row, y.length = G.size - F.size ∧ D (x ++ y) ∧ C (x ++ y)
  | existParen {q : Prop} {F G : Frame} {P D C : Row → Prop} {last : Bool} {ls ls' : List Lexeme}
      (hq : q) (hv : Variables F ls G D)
      (h : Condition q G (fun x => P (x.take F.size) ∧ D x) ls' C) :
      Conjunct q F P last (.keyword .exist true :: .mark .leftParen ::
          (ls ++ .mark .colon :: (ls' ++ [.mark .rightParen])))
        fun x => ∃ y : Row, y.length = G.size - F.size ∧ D (x ++ y) ∧ C (x ++ y)

inductive Signed : (quantifiers : Prop) → Frame → (Row → Prop) → (last : Bool) → List Lexeme →
    (Row → Prop) → Prop
  | plain {q : Prop} {F : Frame} {P C : Row → Prop} {last : Bool} {ls : List Lexeme}
      (h : Conjunct q F P last ls C) : Signed q F P last ls C
  | negated {q q' : Prop} {F : Frame} {P C : Row → Prop} {last : Bool} {ls : List Lexeme}
      (hq : q' → fails) (h : Conjunct q' F P last ls C) :
      Signed q F P last (.keyword .not true :: ls) fun x => ¬C x

inductive Conjunction : (quantifiers : Prop) → Frame → (Row → Prop) → (last : Bool) →
    List Lexeme → (Row → Prop) → Prop
  | single {q : Prop} {F : Frame} {P C : Row → Prop} {last : Bool} {ls : List Lexeme}
      (h : Signed q F P last ls C) : Conjunction q F P last ls C
  | cons {q : Prop} {F : Frame} {P C C' : Row → Prop} {last : Bool} {ls ls' : List Lexeme}
      (h : Signed q F P false ls C) (hs : Conjunction q F P last ls' C') :
      Conjunction q F P last (ls ++ .keyword .and true :: ls') fun x => C x ∧ C' x

inductive Condition : (quantifiers : Prop) → Frame → (Row → Prop) → List Lexeme → (Row → Prop) →
    Prop
  | single {q : Prop} {F : Frame} {P C : Row → Prop} {ls : List Lexeme}
      (h : Conjunction q F P true ls C) : Condition q F P ls C
  | cons {q : Prop} {F : Frame} {P C C' : Row → Prop} {ls ls' : List Lexeme}
      (h : Conjunction q F P false ls C) (hs : Condition q F P ls' C') :
      Condition q F P (ls ++ .keyword .or true :: ls') fun x => C x ∨ C' x

end

variable {fails quantifiers : Prop} {F : Frame} {P C : Row → Prop} {last : Bool}
  {ls ls' : List Lexeme} {u v w : Row → ℚ} {us vs : List (Row → ℚ)}

theorem Sum.read {f : Piecewise} (h : f.Denotes F.space v) : Sum F [.expression f] v := by
  have hsum : Sum F [.expression f] fun x => v x + 0 :=
    .summands (.term (.factor (.operand (.read h))) .done)
  simpa using hsum

theorem Sums.functions_ne_nil {s : Space} {fs : List Piecewise} (h : Sums F ls vs)
    (hfs : Piecewise.DenoteAll s fs vs) : fs ≠ [] := by
  rintro rfl
  cases hfs
  cases h

section Starts

def StartsCondition (l : Lexeme) : Prop := startsSum l = true ∨ Grammar.startsCondition l = true

theorem StartsCondition.kind_ne {l : Lexeme} (h : StartsCondition l) {kind : TokenKind}
    (hk : kind ∈ [.mark .rightBrace, .mark .semicolon, .mark .rightParen]) : l.kind ≠ kind := by
  rintro rfl
  cases l with
  | mark m => cases m <;> simp_all [Lexeme.kind, StartsCondition, startsSum, Grammar.startsFactor,
      Grammar.startsCondition]
  | _ => simp [Lexeme.kind] at hk

theorem startsCondition_of_startsSum {l : Lexeme} (h : startsSum l = true) :
    Grammar.startsCondition l = false := by
  cases l with
  | keyword word => cases word <;> first | rfl | cases h
  | condition => cases h
  | _ => rfl

theorem Chain.starts (h : Chain F us ls C) : ∃ l ls', ls = l :: ls' ∧ l.reach = 3 := by
  cases h with
  | last hl | more hl => exact ⟨_, _, rfl, Lexeme.reach_of_comparison? hl⟩

theorem Chain.comparison? {l : Lexeme} (h : Chain F us (l :: ls) C) :
    ∃ op, l.comparison? = some op := by
  cases h with
  | last hl | more hl => exact ⟨_, hl⟩

theorem Comparisons.starts (h : Comparisons F ls C) :
    ∃ l ls', ls = l :: ls' ∧ startsSum l = true := by
  cases h with
  | chain h hc =>
    obtain ⟨l, ls', rfl, hl⟩ := h.starts
    exact ⟨l, _, rfl, hl⟩

theorem Conjunct.starts (h : Conjunct fails quantifiers F P last ls C) :
    ∃ l ls', ls = l :: ls' ∧ StartsCondition l := by
  cases h with
  | always | never | read | exist | existParen => exact ⟨_, _, rfl, .inr rfl⟩
  | paren => exact ⟨_, _, rfl, .inl rfl⟩
  | comparisons h =>
    obtain ⟨l, ls', rfl, hl⟩ := h.starts
    exact ⟨l, ls', rfl, .inl hl⟩

theorem Conjunct.starts_conjunct (h : Conjunct fails quantifiers F P last ls C) :
    ∃ l ls', ls = l :: ls' ∧ l.kind ≠ .keyword .not := by
  cases h with
  | always | never | read | exist | existParen | paren => exact ⟨_, _, rfl, by simp [Lexeme.kind]⟩
  | comparisons h =>
    obtain ⟨l, ls', rfl, hl⟩ := h.starts
    refine ⟨l, ls', rfl, fun hk => ?_⟩
    cases l with
    | keyword word spelled =>
      obtain rfl := TokenKind.keyword.inj hk
      cases hl
    | _ => cases hk

theorem Signed.starts (h : Signed fails quantifiers F P last ls C) :
    ∃ l ls', ls = l :: ls' ∧ StartsCondition l := by
  cases h with
  | plain h => exact h.starts
  | negated => exact ⟨_, _, rfl, .inr rfl⟩

theorem Conjunction.starts (h : Conjunction fails quantifiers F P last ls C) :
    ∃ l ls', ls = l :: ls' ∧ StartsCondition l := by
  cases h with
  | single h => exact h.starts
  | cons h hs =>
    obtain ⟨l, ls', rfl, hl⟩ := h.starts
    exact ⟨l, _, rfl, hl⟩

theorem Condition.starts (h : Condition fails quantifiers F P ls C) :
    ∃ l ls', ls = l :: ls' ∧ StartsCondition l := by
  cases h with
  | single h => exact h.starts
  | cons h hs =>
    obtain ⟨l, ls', rfl, hl⟩ := h.starts
    exact ⟨l, _, rfl, hl⟩

end Starts

section OpensSum

/-- A phrase that starts with a sum in parentheses, for which the token of a function with the same
values may stand. -/
def OpensSum (F : Frame) (phrase : List Lexeme → Prop) (ls : List Lexeme) : Prop :=
  ∃ (inner rest : List Lexeme) (v : Row → ℚ),
    ls = .mark .leftParen :: (inner ++ .mark .rightParen :: rest) ∧ Sum F inner v ∧
      ∀ f : Piecewise, f.Denotes F.space v → phrase (.expression f :: rest)

variable {phrase phrase' : List Lexeme → Prop}

theorem OpensSum.append (h : OpensSum F phrase ls) {tail : List Lexeme}
    (hp : ∀ ls, phrase ls → phrase' (ls ++ tail)) : OpensSum F phrase' (ls ++ tail) := by
  obtain ⟨inner, rest, v, rfl, hsum, hread⟩ := h
  exact ⟨inner, rest ++ tail, v, by simp, hsum, fun f hf => hp _ (hread f hf)⟩

theorem OpensSum.mono (h : OpensSum F phrase ls) (hp : ∀ ls, phrase ls → phrase' ls) :
    OpensSum F phrase' ls := by
  obtain ⟨inner, rest, v, hls, hsum, hread⟩ := h
  exact ⟨inner, rest, v, hls, hsum, fun f hf => hp _ (hread f hf)⟩

def Parenthesised (ls : List Lexeme) : Prop := ls.head? = some (.mark .leftParen)

theorem Operand.opensSum (h : Operand F ls v) (hp : Parenthesised ls) :
    OpensSum F (Operand F · v) ls := by
  cases h with
  | paren h => exact ⟨_, [], _, rfl, h, fun f hf => .read hf⟩
  | _ => simp [Parenthesised] at hp

theorem parenthesised_append {tail : List Lexeme} {q : Lexeme → Prop}
    (hs : ∃ l ls', ls = l :: ls' ∧ q l) (h : Parenthesised (ls ++ tail)) : Parenthesised ls := by
  obtain ⟨l, ls', rfl, -⟩ := hs
  exact h

theorem Factor.opensSum (h : Factor F ls v) (hp : Parenthesised ls) :
    OpensSum F (Factor F · v) ls := by
  cases h with
  | literal | literalOver | scaled => simp [Parenthesised] at hp
  | operand h => exact (h.opensSum hp).mono fun _ => .operand
  | divided hm h =>
    exact (h.opensSum (parenthesised_append h.starts hp)).append fun _ => .divided hm
  | mod hm h => exact (h.opensSum (parenthesised_append h.starts hp)).append fun _ => .mod hm

theorem Term.opensSum (h : Term F ls v) (hp : Parenthesised ls) : OpensSum F (Term F · v) ls := by
  cases h with
  | factor h => exact (h.opensSum hp).mono fun _ => .factor
  | juxtaposed => simp [Parenthesised] at hp

theorem Summands.opensSum (h : Summands F ls u w) (hp : Parenthesised ls) :
    OpensSum F (Summands F · u w) ls := by
  cases h with
  | negated => simp [Parenthesised] at hp
  | term ht hm =>
    exact (ht.opensSum (parenthesised_append ht.starts hp)).append fun _ h => .term h hm

theorem Sum.opensSum (h : Sum F ls v) (hp : Parenthesised ls) : OpensSum F (Sum F · v) ls := by
  cases h with
  | summands h => exact (h.opensSum hp).mono fun _ => .summands

theorem Sums.opensSum (h : Sums F ls vs) (hp : Parenthesised ls) : OpensSum F (Sums F · vs) ls := by
  cases h with
  | last h => exact (h.opensSum hp).mono fun _ => .last
  | more h hs =>
    exact (h.opensSum (parenthesised_append h.starts hp)).append fun _ h => .more h hs

theorem Comparisons.opensSum (h : Comparisons F ls C) (hp : Parenthesised ls) :
    OpensSum F (Comparisons F · C) ls := by
  cases h with
  | chain h hc =>
    exact (h.opensSum (parenthesised_append h.starts hp)).append fun _ h => .chain h hc

end OpensSum

section Opens

/-- A phrase that starts with a sum or a condition in parentheses, for which one token may stand. -/
def Opens (fails quantifiers : Prop) (F : Frame) (P : Row → Prop) (phrase : List Lexeme → Prop)
    (ls : List Lexeme) : Prop :=
  OpensSum F phrase ls ∨ ∃ (inner rest : List Lexeme) (C : Row → Prop),
    ls = .mark .leftParen :: (inner ++ .mark .rightParen :: rest) ∧
      Condition fails quantifiers F P inner C ∧
        ∀ r, F.Means quantifiers r (fun x => P x ∧ C x) → phrase (.condition r :: rest)

variable {phrase phrase' : List Lexeme → Prop}

theorem Opens.append (h : Opens fails quantifiers F P phrase ls) {tail : List Lexeme}
    (hp : ∀ ls, phrase ls → phrase' (ls ++ tail)) :
    Opens fails quantifiers F P phrase' (ls ++ tail) := by
  refine h.imp (·.append hp) ?_
  rintro ⟨inner, rest, C, rfl, hcond, hread⟩
  exact ⟨inner, rest ++ tail, C, by simp, hcond, fun r hr => hp _ (hread r hr)⟩

theorem Opens.mono (h : Opens fails quantifiers F P phrase ls) (hp : ∀ ls, phrase ls → phrase' ls) :
    Opens fails quantifiers F P phrase' ls := by
  refine h.imp (·.mono hp) ?_
  rintro ⟨inner, rest, C, hls, hcond, hread⟩
  exact ⟨inner, rest, C, hls, hcond, fun r hr => hp _ (hread r hr)⟩

theorem Conjunct.opens (h : Conjunct fails quantifiers F P last ls C) (hp : Parenthesised ls) :
    Opens fails quantifiers F P (Conjunct fails quantifiers F P last · C) ls := by
  cases h with
  | paren h => exact .inr ⟨_, [], _, rfl, h, fun r hr => .read hr⟩
  | comparisons h => exact .inl ((h.opensSum hp).mono fun _ => .comparisons)
  | _ => simp [Parenthesised] at hp

theorem Conjunction.opens (h : Conjunction fails quantifiers F P last ls C)
    (hp : Parenthesised ls) :
    Opens fails quantifiers F P (Conjunction fails quantifiers F P last · C) ls := by
  have hsigned : ∀ {last ls C}, Signed fails quantifiers F P last ls C → Parenthesised ls →
      Opens fails quantifiers F P (Signed fails quantifiers F P last · C) ls := by
    intro last ls C h hp
    cases h with
    | plain h => exact (h.opens hp).mono fun _ => .plain
    | negated => simp [Parenthesised] at hp
  cases h with
  | single h => exact (hsigned h hp).mono fun _ => .single
  | cons h hs => exact (hsigned h (parenthesised_append h.starts hp)).append fun _ h => .cons h hs

theorem Condition.opens (h : Condition fails quantifiers F P ls C) (hp : Parenthesised ls) :
    Opens fails quantifiers F P (Condition fails quantifiers F P · C) ls := by
  cases h with
  | single h => exact (h.opens hp).mono fun _ => .single
  | cons h hs => exact (h.opens (parenthesised_append h.starts hp)).append fun _ h => .cons h hs

end Opens

section Leads

def Leads (F : Frame) (phrase : List Lexeme → Prop) (ls : List Lexeme) : Prop :=
  ∃ (inner : List Lexeme) (l : Lexeme) (rest : List Lexeme) (v : Row → ℚ),
    ls = inner ++ l :: rest ∧ (l.reach = 3 ∨ l.reach = 4) ∧ Sum F inner v ∧
      ∀ f : Piecewise, f.Denotes F.space v → phrase (.expression f :: l :: rest)

variable {phrase phrase' : List Lexeme → Prop}

theorem Leads.append (h : Leads F phrase ls) {tail : List Lexeme}
    (hp : ∀ ls, phrase ls → phrase' (ls ++ tail)) : Leads F phrase' (ls ++ tail) := by
  obtain ⟨inner, l, rest, v, rfl, hl, hsum, hread⟩ := h
  exact ⟨inner, l, rest ++ tail, v, by simp, hl, hsum, fun f hf => hp _ (hread f hf)⟩

theorem Leads.mono (h : Leads F phrase ls) (hp : ∀ ls, phrase ls → phrase' ls) :
    Leads F phrase' ls := by
  obtain ⟨inner, l, rest, v, hls, hl, hsum, hread⟩ := h
  exact ⟨inner, l, rest, v, hls, hl, hsum, fun f hf => hp _ (hread f hf)⟩

theorem Comparisons.leads (h : Comparisons F ls C) : Leads F (Comparisons F · C) ls := by
  cases h with
  | chain h hc =>
    cases h with
    | last h =>
      obtain ⟨l, ls', rfl, hl⟩ := hc.starts
      exact ⟨_, l, ls', _, rfl, .inl hl, h, fun f hf => .chain (.last (.read hf)) hc⟩
    | more h hs =>
      refine ⟨_, .mark .comma, _, _, List.append_assoc .., .inr rfl, h, fun f hf => ?_⟩
      have hsums : Sums F ([.expression f] ++ .mark .comma :: _) _ := .more (.read hf) hs
      exact .chain hsums hc

def Bare (ls : List Lexeme) : Prop :=
  ∀ l ∈ ls.head?, Grammar.startsCondition l = false ∧ l ≠ .mark .leftParen

theorem bare_append {tail : List Lexeme} {q : Lexeme → Prop} (hs : ∃ l ls', ls = l :: ls' ∧ q l)
    (h : Bare (ls ++ tail)) : Bare ls := by
  obtain ⟨l, ls', rfl, -⟩ := hs
  exact h

theorem Signed.leads (h : Signed fails quantifiers F P last ls C) (hb : Bare ls) :
    Leads F (Signed fails quantifiers F P last · C) ls := by
  cases h with
  | plain h =>
    cases h with
    | comparisons h => exact h.leads.mono fun _ h => .plain (.comparisons h)
    | _ => simp [Bare, Grammar.startsCondition] at hb
  | negated => simp [Bare, Grammar.startsCondition] at hb

theorem Conjunction.leads (h : Conjunction fails quantifiers F P last ls C) (hb : Bare ls) :
    Leads F (Conjunction fails quantifiers F P last · C) ls := by
  cases h with
  | single h => exact (h.leads hb).mono fun _ => .single
  | cons h hs => exact (h.leads (bare_append h.starts hb)).append fun _ h => .cons h hs

theorem Condition.leads (h : Condition fails quantifiers F P ls C) (hb : Bare ls) :
    Leads F (Condition fails quantifiers F P · C) ls := by
  cases h with
  | single h => exact (h.leads hb).mono fun _ => .single
  | cons h hs => exact (h.leads (bare_append h.starts hb)).append fun _ h => .cons h hs

end Leads

end Phrase

end Quasiaffine
