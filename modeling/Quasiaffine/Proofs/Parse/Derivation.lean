import Quasiaffine.Proofs.Parse.Symbols

/-!
What expressions and conditions mean, for every sequence of symbols that the grammar takes. The
value of an expression is a partial function; a condition is read over a set of points and means the
points of this set at which it holds. One symbol of lookahead decides how far a part reaches.
-/

set_option autoImplicit false

namespace Quasiaffine

namespace Symbol

def startsFactor : Symbol → Bool
  | mark .leftParen | mark .leftBracket => true
  | word .min | word .max | word .floord | word .ceild => true
  | name _ | value _ => true
  | _ => false

def startsConjunct : Symbol → Bool
  | word .exist | word .always | word .never | points _ => true
  | _ => false

def startsCondition (l : Symbol) : Bool :=
  match l with
  | word .not => true
  | l => l.startsConjunct

def isRemainder : Symbol → Bool
  | mark .percent | word .mod => true
  | _ => false

end Symbol

def Keyword.rounding? : Keyword → Option (ℚ → ℤ)
  | .floord => some Int.floor
  | .ceild => some Int.ceil
  | _ => none

def Keyword.extremum? : Keyword → Option (ℚ → ℚ → ℚ)
  | .min => some Min.min
  | .max => some Max.max
  | _ => none

def Value.equals (pos : Nat) (v : Value) : Set Row := {x | v x = some (x.entry pos : ℚ)}

namespace Parse

def everywhere (n : Nat) : Set Row := {x | x.length = n}

def extend (n : Nat) (P : Set Row) : Set Row := {x | x.length = n + 1 ∧ x.take n ∈ P}

/-- The points that more coordinates make points of a set. -/
def project (n : Nat) (P : Set Row) : Set Row := {x | x.length = n ∧ ∃ y, x ++ y ∈ P}

def signed (negated : Bool) (c : Int) : Int := if negated then -c else c

def accumulate (negated : Bool) (sum v : Value) : Value :=
  if negated then .combine (· - ·) sum v else .combine (· + ·) sum v

/-- The parts of expressions and conditions, with what is known in front of them. -/
inductive Part where
  | operand (sc : Scope)
  | factor (sc : Scope)
  /-- The numbers behind an operand, by which it is multiplied. -/
  | scaling
  | product
  | terms (sc : Scope) (negated : Bool) (sum : Value)
  | more (sc : Scope) (sum : Value)
  | sums (sc : Scope)
  | choice (sc : Scope)
  | condition (sc : Scope) (P : Set Row)
  | alternatives (sc : Scope) (P Q : Set Row)
  | conjunction (sc : Scope) (P : Set Row)
  | conjuncts (sc : Scope) (P Q : Set Row)
  | conjunct (sc : Scope) (P : Set Row)
  /-- A conjunct whose first symbol is no parenthesis. -/
  | bare (sc : Scope) (P : Set Row)
  | chain (sc : Scope) (left : List Value) (op : Comparison) (P : Set Row)
  /-- A quantified variable, or one of a tuple. -/
  | binder (sc : Scope) (P : Set Row)
  | binders (sc : Scope) (P : Set Row)
  /-- What stands in parentheses at the front of a conjunct. -/
  | parenthesis (sc : Scope) (P : Set Row)
  | inner (sc : Scope) (P : Set Row)

def Part.sum (sc : Scope) : Part := .terms sc false (.constant sc.size 0)

/-- What parts mean: values, numbers, sets of points, the variables in scope behind them, or the
symbol that stands for them from then on. -/
@[reducible]
def Part.Meaning : Part → Type
  | operand _ | factor _ | terms _ _ _ | more _ _ | choice _ => Value
  | scaling | product => Int
  | sums _ => List Value
  | condition _ _ | alternatives _ _ _ | conjunction _ _ | conjuncts _ _ _ | conjunct _ _ | bare _ _
  | chain _ _ _ _ => Set Row
  | binder _ _ | binders _ _ => Scope × Set Row
  | parenthesis _ _ | inner _ _ => Symbol

/-- The symbols from `b` on begin with a part that has a meaning, and `c` are those behind it. -/
inductive Derives : (k : Part) → Symbols → k.Meaning → Symbols → Prop
  | value {sc : Scope} {b : Symbols} {v : Value} (h : b.head = .value v) :
      Derives (.operand sc) b v b.tail
  | name {sc : Scope} {b : Symbols} {x : String} {pos : Nat} (h : b.head = .name x)
      (hx : sc.position? x = some pos) :
      Derives (.operand sc) b (Value.coordinate sc.size pos) b.tail
  | literal {sc : Scope} {b : Symbols} {n : Int} (h : b.head = .number n)
      (hs : b.tail.head ≠ .mark .star) : Derives (.operand sc) b (Value.constant sc.size n) b.tail
  | multiple {sc : Scope} {b c : Symbols} {n : Int} {v : Value} (h : b.head = .number n)
      (hs : b.tail.head = .mark .star) (hf : Derives (.factor sc) b.tail.tail v c) :
      Derives (.operand sc) b (Value.map (fun q => n * q) v) c
  | paren {sc : Scope} {b c : Symbols} {v : Value} (h : b.head = .mark .leftParen)
      (hv : Derives (.sum sc) b.tail v c) (hc : c.head = .mark .rightParen) :
      Derives (.operand sc) b v c.tail
  | floor {sc : Scope} {b c : Symbols} {v : Value} (h : b.head = .mark .leftBracket)
      (hv : Derives (.sum sc) b.tail v c) (hc : c.head = .mark .rightBracket) :
      Derives (.operand sc) b (Value.map (fun q => ⌊q⌋) v) c.tail
  | rounded {sc : Scope} {b c : Symbols} {v : Value} {w : Keyword} {round : ℚ → ℤ} {m : Int}
      (h : b.head = .word w) (hw : w.rounding? = some round) (ho : b.tail.head = .mark .leftParen)
      (hv : Derives (.sum sc) b.tail.tail v c) (hc : c.head = .mark .comma)
      (hm : c.tail.head = .number m) (hpos : 0 < m) (he : c.tail.tail.head = .mark .rightParen) :
      Derives (.operand sc) b (Value.map (fun q => round (q / m)) v) c.tail.tail.tail
  | extremum {sc : Scope} {b c : Symbols} {v : Value} {vs : List Value} {w : Keyword}
      {o : ℚ → ℚ → ℚ} (h : b.head = .word w) (hw : w.extremum? = some o)
      (ho : b.tail.head = .mark .leftParen) (hv : Derives (.sums sc) b.tail.tail (v :: vs) c)
      (he : c.head = .mark .rightParen) :
      Derives (.operand sc) b (vs.foldl (Value.combine o) v) c.tail
  | remainder {sc : Scope} {b c : Symbols} {v : Value} {m : Int}
      (h : Derives (.operand sc) b v c) (hc : c.head.isRemainder = true) (hm : c.tail.head = .number m)
      (hpos : 0 < m) : Derives (.factor sc) b (Value.map (fun q => q - m * ⌊q / m⌋) v) c.tail.tail
  | scaled {sc : Scope} {b c d : Symbols} {v : Value} {n : Int} (h : Derives (.operand sc) b v c)
      (hc : c.head.isRemainder = false) (hn : Derives .scaling c n d) (hd : d.head ≠ .mark .slash) :
      Derives (.factor sc) b (Value.map (fun q => n * q) v) d
  | quotient {sc : Scope} {b c d : Symbols} {v : Value} {n m : Int}
      (h : Derives (.operand sc) b v c) (hc : c.head.isRemainder = false) (hn : Derives .scaling c n d)
      (hd : d.head = .mark .slash) (hm : d.tail.head = .number m) (hpos : 0 < m) :
      Derives (.factor sc) b (Value.map (fun q => n * q / m) v) d.tail.tail
  | unscaled {b : Symbols} (h : b.head ≠ .mark .star) : Derives .scaling b (1 : Int) b
  | star {b c : Symbols} {n : Int} (h : b.head = .mark .star) (hn : Derives .product b.tail n c) :
      Derives .scaling b n c
  | lastNumber {b : Symbols} {n : Int} (h : b.head = .number n) (hs : b.tail.head ≠ .mark .star) :
      Derives .product b n b.tail
  | moreNumbers {b c : Symbols} {n k : Int} (h : b.head = .number n)
      (hs : b.tail.head = .mark .star) (hn : Derives .product b.tail.tail k c) :
      Derives .product b (n * k : Int) c
  | sign {sc : Scope} {negated : Bool} {sum v : Value} {b c : Symbols} (h : b.head = .mark .minus)
      (ht : Derives (.terms sc (!negated) sum) b.tail v c) : Derives (.terms sc negated sum) b v c
  | coefficient {sc : Scope} {negated : Bool} {sum v w : Value} {b c d : Symbols} {n : Int}
      (h : b.head = .number n) (hs : b.tail.head = .mark .star)
      (hf : Derives (.factor sc) b.tail.tail v c)
      (hm : Derives (.more sc (.combine (· + ·) sum (.map (fun q => signed negated n * q) v))) c w
        d) : Derives (.terms sc negated sum) b w d
  | juxtaposed {sc : Scope} {negated : Bool} {sum v w : Value} {b c d : Symbols} {n : Int}
      (h : b.head = .number n) (hx : b.tail.head.kind = .identifier)
      (hf : Derives (.factor sc) b.tail v c)
      (hm : Derives (.more sc (.combine (· + ·) sum (.map (fun q => signed negated n * q) v))) c w
        d) : Derives (.terms sc negated sum) b w d
  /-- A literal takes the sign in front of it, before a remainder is taken of it. -/
  | number {sc : Scope} {negated : Bool} {sum v w : Value} {b c d : Symbols} {n : Int}
      (h : b.head = .number n) (hs : b.tail.head ≠ .mark .star)
      (hx : b.tail.head.kind ≠ .identifier)
      (hf : Derives (.factor sc) (.cons (.number (signed negated n)) b.tail) v c)
      (hm : Derives (.more sc (.combine (· + ·) sum v)) c w d) :
      Derives (.terms sc negated sum) b w d
  | term {sc : Scope} {negated : Bool} {sum v w : Value} {b c d : Symbols}
      (h : b.head.startsFactor = true) (hf : Derives (.factor sc) b v c)
      (hm : Derives (.more sc (accumulate negated sum v)) c w d) :
      Derives (.terms sc negated sum) b w d
  | minus {sc : Scope} {sum v : Value} {b c : Symbols} (h : b.head = .mark .minus)
      (ht : Derives (.terms sc true sum) b.tail v c) : Derives (.more sc sum) b v c
  | plus {sc : Scope} {sum v : Value} {b c : Symbols} (h : b.head = .mark .plus)
      (ht : Derives (.terms sc false sum) b.tail v c) : Derives (.more sc sum) b v c
  | negative {sc : Scope} {sum v : Value} {b c : Symbols} {n : Int} (h : b.head = .number n)
      (hn : n < 0) (ht : Derives (.terms sc false sum) b v c) : Derives (.more sc sum) b v c
  | noMore {sc : Scope} {sum : Value} {b : Symbols} (hm : b.head ≠ .mark .minus)
      (hp : b.head ≠ .mark .plus) (hn : ∀ n, b.head = .number n → ¬n < 0) :
      Derives (.more sc sum) b sum b
  | lastSum {sc : Scope} {v : Value} {b c : Symbols} (h : Derives (.sum sc) b v c)
      (hc : c.head ≠ .mark .comma) : Derives (.sums sc) b [v] c
  | moreSums {sc : Scope} {v : Value} {vs : List Value} {b c d : Symbols}
      (h : Derives (.sum sc) b v c) (hc : c.head = .mark .comma)
      (hs : Derives (.sums sc) c.tail vs d) : Derives (.sums sc) b (v :: vs) d
  | only {sc : Scope} {v : Value} {b c : Symbols} (h : Derives (.sum sc) b v c)
      (hc : c.head.comparison? = none) : Derives (.choice sc) b v c
  | select {sc : Scope} {u v w : Value} {Q : Set Row} {b c d e f : Symbols}
      (h : Derives (.sum sc) b u c) (hc : c.head.comparison? ≠ none)
      (hQ : Derives (.condition sc (everywhere sc.size)) (.cons (.value u) c) Q d)
      (hd : d.head = .mark .question) (hv : Derives (.choice sc) d.tail v e)
      (he : e.head = .mark .colon) (hw : Derives (.choice sc) e.tail w f) :
      Derives (.choice sc) b (Value.select Q v w) f
  | empty {sc : Scope} {P : Set Row} {b : Symbols} (h : b.head.isStop = true) :
      Derives (.condition sc P) b P b
  | disjunction {sc : Scope} {P Q R : Set Row} {b c d : Symbols} (h : b.head.isStop = false)
      (hc : Derives (.conjunction sc P) b Q c) (ha : Derives (.alternatives sc P Q) c R d) :
      Derives (.condition sc P) b R d
  | or {sc : Scope} {P Q R S : Set Row} {b c d : Symbols} (h : b.head = .word .or)
      (hc : Derives (.conjunction sc P) b.tail R c)
      (ha : Derives (.alternatives sc P (Q ∪ R)) c S d) : Derives (.alternatives sc P Q) b S d
  | noOr {sc : Scope} {P Q : Set Row} {b : Symbols} (h : b.head ≠ .word .or) :
      Derives (.alternatives sc P Q) b Q b
  | positive {sc : Scope} {P Q R : Set Row} {b c d : Symbols} (h : b.head ≠ .word .not)
      (hc : Derives (.conjunct sc P) b Q c) (hs : Derives (.conjuncts sc P Q) c R d) :
      Derives (.conjunction sc P) b R d
  | negated {sc : Scope} {P Q R : Set Row} {b c d : Symbols} (h : b.head = .word .not)
      (hc : Derives (.conjunct sc P) b.tail Q c) (hs : Derives (.conjuncts sc P (P \ Q)) c R d) :
      Derives (.conjunction sc P) b R d
  | and {sc : Scope} {P Q R S : Set Row} {b c d : Symbols} (h : b.head = .word .and)
      (hn : b.tail.head ≠ .word .not) (hc : Derives (.conjunct sc P) b.tail R c)
      (hs : Derives (.conjuncts sc P (Q ∩ R)) c S d) : Derives (.conjuncts sc P Q) b S d
  | andNot {sc : Scope} {P Q R S : Set Row} {b c d : Symbols} (h : b.head = .word .and)
      (hn : b.tail.head = .word .not) (hc : Derives (.conjunct sc P) b.tail.tail R c)
      (hs : Derives (.conjuncts sc P (Q \ R)) c S d) : Derives (.conjuncts sc P Q) b S d
  | noAnd {sc : Scope} {P Q : Set Row} {b : Symbols} (h : b.head ≠ .word .and) :
      Derives (.conjuncts sc P Q) b Q b
  | front {sc : Scope} {P Q : Set Row} {l : Symbol} {b c d : Symbols}
      (h : b.head = .mark .leftParen) (hp : Derives (.parenthesis sc P) b l c)
      (hc : Derives (.bare sc P) (.cons l c) Q d) : Derives (.conjunct sc P) b Q d
  | plain {sc : Scope} {P Q : Set Row} {b c : Symbols} (h : b.head ≠ .mark .leftParen)
      (hc : Derives (.bare sc P) b Q c) : Derives (.conjunct sc P) b Q c
  | points {sc : Scope} {P Q : Set Row} {b : Symbols} (h : b.head = .points Q) :
      Derives (.bare sc P) b Q b.tail
  | always {sc : Scope} {P : Set Row} {b : Symbols} (h : b.head = .word .always) :
      Derives (.bare sc P) b P b.tail
  | never {sc : Scope} {P : Set Row} {b : Symbols} (h : b.head = .word .never) :
      Derives (.bare sc P) b (∅ : Set Row) b.tail
  | exist {sc sc' : Scope} {P Q R : Set Row} {b c d : Symbols} (h : b.head = .word .exist)
      (hp : b.tail.head ≠ .mark .leftParen)
      (hv : Derives (.binders sc P) b.tail (sc', Q) c) (hc : c.head = .mark .colon)
      (hR : Derives (.condition sc' Q) c.tail R d) :
      Derives (.bare sc P) b (project sc.size R) d
  | existParen {sc sc' : Scope} {P Q R : Set Row} {b c d : Symbols} (h : b.head = .word .exist)
      (hp : b.tail.head = .mark .leftParen)
      (hv : Derives (.binders sc P) b.tail.tail (sc', Q) c) (hc : c.head = .mark .colon)
      (hR : Derives (.condition sc' Q) c.tail R d) (hd : d.head = .mark .rightParen) :
      Derives (.bare sc P) b (project sc.size R) d.tail
  | comparisons {sc : Scope} {P Q : Set Row} {vs : List Value} {op : Comparison} {b c d : Symbols}
      (h : b.head.startsConjunct = false) (hv : Derives (.sums sc) b vs c)
      (hop : c.head.comparison? = some op) (hc : Derives (.chain sc vs op P) c.tail Q d) :
      Derives (.bare sc P) b Q d
  | lastComparison {sc : Scope} {P : Set Row} {vs ws : List Value} {op : Comparison}
      {b c : Symbols} (hw : Derives (.sums sc) b ws c) (hc : c.head.comparison? = none) :
      Derives (.chain sc vs op P) b (P ∩ Value.compare op vs ws) c
  | moreComparisons {sc : Scope} {P Q : Set Row} {vs ws : List Value} {op op' : Comparison}
      {b c d : Symbols} (hw : Derives (.sums sc) b ws c) (hop : c.head.comparison? = some op')
      (hc : Derives (.chain sc ws op' (P ∩ Value.compare op vs ws)) c.tail Q d) :
      Derives (.chain sc vs op P) b Q d
  | free {sc : Scope} {P : Set Row} {x : String} {b : Symbols} (h : b.head = .name x)
      (hx : sc.position? x = none) (he : b.tail.head ≠ .mark .eq) :
      Derives (.binder sc P) b (sc.declare (some x), extend sc.size P) b.tail
  | defined {sc : Scope} {P : Set Row} {x : String} {v : Value} {b c : Symbols}
      (h : b.head = .name x) (hx : sc.position? x = none) (he : b.tail.head = .mark .eq)
      (hv : Derives (.choice (sc.declare (some x))) b.tail.tail v c) :
      Derives (.binder sc P) b
        (sc.declare (some x), extend sc.size P ∩ Value.equals sc.size v) c
  | noBinders {sc : Scope} {P : Set Row} {b : Symbols} (h : b.head.kind ≠ .identifier) :
      Derives (.binders sc P) b (sc, P) b
  | lastBinder {sc sc' : Scope} {P Q : Set Row} {b c : Symbols}
      (hb : b.head.kind = .identifier) (h : Derives (.binder sc P) b (sc', Q) c)
      (hc : c.head ≠ .mark .comma) : Derives (.binders sc P) b (sc', Q) c
  | moreBinders {sc sc' sc'' : Scope} {P Q R : Set Row} {b c d : Symbols}
      (hb : b.head.kind = .identifier) (h : Derives (.binder sc P) b (sc', Q) c)
      (hc : c.head = .mark .comma) (hs : Derives (.binders sc' Q) c.tail (sc'', R) d) :
      Derives (.binders sc P) b (sc'', R) d
  | nested {sc : Scope} {P : Set Row} {l l' : Symbol} {b c d : Symbols}
      (h : b.head = .mark .leftParen) (hn : b.tail.head = .mark .leftParen)
      (hp : Derives (.parenthesis sc P) b.tail l c)
      (hi : Derives (.inner sc P) (.cons l c) l' d) : Derives (.parenthesis sc P) b l' d
  | opened {sc : Scope} {P : Set Row} {l : Symbol} {b c : Symbols} (h : b.head = .mark .leftParen)
      (hn : b.tail.head ≠ .mark .leftParen) (hi : Derives (.inner sc P) b.tail l c) :
      Derives (.parenthesis sc P) b l c
  | innerCondition {sc : Scope} {P Q : Set Row} {b c : Symbols} (h : b.head.startsCondition = true)
      (hQ : Derives (.condition sc P) b Q c) (hc : c.head = .mark .rightParen) :
      Derives (.inner sc P) b (Symbol.points Q) c.tail
  | innerSum {sc : Scope} {P : Set Row} {v : Value} {b c : Symbols} (h : b.head.startsCondition = false)
      (hv : Derives (.sum sc) b v c) (hc : c.head = .mark .rightParen) :
      Derives (.inner sc P) b (Symbol.value v) c.tail
  | innerComparison {sc : Scope} {P Q : Set Row} {v : Value} {b c d : Symbols}
      (h : b.head.startsCondition = false) (hv : Derives (.sum sc) b v c)
      (hc : c.head ≠ .mark .rightParen) (hQ : Derives (.condition sc P) (.cons (.value v) c) Q d)
      (hd : d.head = .mark .rightParen) : Derives (.inner sc P) b (Symbol.points Q) d.tail

theorem extremum?_eq_none {w : Keyword} {round : ℚ → ℤ} (h : w.rounding? = some round) :
    w.extremum? = none := by
  cases w <;> first | rfl | cases h

attribute [local grind] Symbol.kind Symbol.isStop Symbol.startsFactor Symbol.startsConjunct
  Symbol.startsCondition Symbol.isRemainder Symbol.comparison? Part.sum
attribute [local grind →] extremum?_eq_none

/-- The symbols determine how far a part reaches and what it means. No two rules for a part apply at
once: the next symbol, or the one behind it, decides between them. -/
theorem Derives.unique {k : Part} {b c : Symbols} {m : k.Meaning} (h : Derives k b m c) :
    ∀ {m' : k.Meaning} {c' : Symbols}, Derives k b m' c' → m' = m ∧ c' = c := by
  induction h with
  | _ => intro m' c' h'; cases h' <;> grind

end Parse

end Quasiaffine
