import Quasiaffine.Proofs.Reader.FormulaParts
import Quasiaffine.Proofs.Reader.Quotable
import Quasiaffine.Proofs.Reader.TupleParts
import Quasiaffine.Proofs.Source.Excerpts
import Quasiaffine.Reader.Basic

set_option autoImplicit false

namespace Quasiaffine.Grammar

open Reading

variable {source : List Char}

section Literals

theorem quotable_literal : Quotable source literal := by
  refine quotes_next.bind fun t ht => ?_
  split
  · exact quotable_pure
  · exact quotes_stop (Token.within_unfit ht _)

theorem quotable_positiveLiteral : Quotable source positiveLiteral := by
  refine quotes_next.bind fun t ht => ?_
  split
  · split
    · exact quotable_pure
    · exact quotes_stop (Token.within_unfit ht _)
  · exact quotes_stop (Token.within_unfit ht _)

theorem quotable_coefficientFollows : Quotable source coefficientFollows := by
  refine quotable_eatIf.then fun b => ?_
  split
  · exact quotable_pure
  · exact quotable_nextIs

theorem quotable_literalProduct (depth : Nat) (product : Int) :
    Quotable source (literalProduct depth product) := by
  induction depth generalizing product with
  | zero => exact quotes_exhausted
  | succ depth ih =>
    refine quotable_enter.then fun _ => quotable_literal.then fun v =>
      quotable_eatIf.then fun b => ?_
    split
    · exact ih _
    · exact quotable_pure

theorem quotable_divided (f : Piecewise) : Quotable source (divided f) := by
  refine quotable_eatIf.then fun b => ?_
  split
  · exact quotable_positiveLiteral.then fun d => quotable_check (by simp)
  · exact quotable_pure

end Literals

structure Quoting (source : List Char) (depth : Nat) : Prop where
  expression (space : Space) : Quotable source (expression depth space)
  terms (space : Space) (negated : Bool) (sum : Piecewise) :
    Quotable source (terms depth space negated sum)
  moreTerms (space : Space) (sum : Piecewise) : Quotable source (moreTerms depth space sum)
  factor (space : Space) : Quotable source (factor depth space)
  operand (space : Space) : Quotable source (operand depth space)
  quotient (space : Space) : Quotable source (quotient depth space)
  arguments (space : Space) : Quotable source (arguments depth space)
  expressions (space : Space) : Quotable source (expressions depth space)
  choice (space : Space) : Quotable source (choice depth space)
  condition (set : Relation) : Quotable source (condition depth set)
  moreAlternatives (set result : Relation) : Quotable source (moreAlternatives depth set result)
  conjunction (set : Relation) : Quotable source (conjunction depth set)
  moreConjuncts (set result : Relation) : Quotable source (moreConjuncts depth set result)
  conjunct (set : Relation) : Quotable source (conjunct depth set)
  comparisons (set : Relation) : Quotable source (comparisons depth set)
  moreComparisons (space : Space) (left : List Piecewise) (op : Comparison) (set : Relation) :
    Quotable source (moreComparisons depth space left op set)
  quantifier (set : Relation) : Quotable source (quantifier depth set)
  quantified (set : Relation) : Quotable source (quantified depth set)
  parenthesis (set : Relation) : Quotable source (parenthesis depth set)
  parenthesisedCondition (set : Relation) {opening : Span} (h : opening.Within source) :
    Quotable source (parenthesisedCondition depth set opening)
  definition (set : Relation) (pos : Nat) : Quotable source (definition depth set pos)

namespace Quoting

variable {depth : Nat} (ih : Quoting source depth) (space : Space) (sum : Piecewise)
  (set result : Relation)

include ih

section Expressions

theorem expression_succ : Quotable source (Grammar.expression (depth + 1) space) := by
  rw [Grammar.expression]
  exact quotable_enter.then fun _ => ih.terms _ _ _

theorem terms_succ (negated : Bool) :
    Quotable source (Grammar.terms (depth + 1) space negated sum) := by
  have hadd : ∀ term : Piecewise,
      Quotable source (check (sum.add term) >>= Grammar.moreTerms depth space) := fun term =>
    (quotable_check (by simp)).then fun _ => ih.moreTerms _ _
  rw [Grammar.terms]
  refine quotable_enter.then fun _ => quotes_next.bind fun t ht => ?_
  split
  · exact ih.terms _ _ _
  · refine (quotable_again ht).then fun _ => quotable_coefficientFollows.then fun b => ?_
    split
    · exact (ih.factor space).then fun f => hadd _
    · exact (quotable_push (t := .made (.number _) t.span) ht).then fun _ =>
        (ih.factor space).then hadd
  · exact quotes_stop (Token.within_unfit ht _)
  · split
    · refine (quotable_push ht).then fun _ => (ih.factor space).then fun f => ?_
      split
      · exact (quotable_check (by simp)).then fun _ => ih.moreTerms _ _
      · exact hadd f
    · exact quotes_stop (Token.within_unfit ht _)

theorem moreTerms_succ : Quotable source (Grammar.moreTerms (depth + 1) space sum) := by
  rw [Grammar.moreTerms]
  refine quotable_enter.then fun _ => quotes_next.bind fun t ht => ?_
  split
  · exact ih.terms _ _ _
  · exact ih.terms _ _ _
  · refine (quotable_push ht).then fun _ => ?_
    split
    · exact ih.terms _ _ _
    · exact quotable_pure
  · exact (quotable_push ht).then fun _ => quotable_pure

theorem factor_succ : Quotable source (Grammar.factor (depth + 1) space) := by
  rw [Grammar.factor_succ]
  refine quotable_enter.then fun _ => (ih.operand space).then fun f =>
    quotable_eatIf.then fun b => ?_
  split
  · exact quotable_positiveLiteral.then fun m => quotable_check (by simp)
  · refine quotable_eatIf.then fun b => ?_
    split
    · exact quotable_positiveLiteral.then fun m => quotable_check (by simp)
    · refine quotable_eatIf.then fun b => ?_
      split
      · exact (quotable_literalProduct _ _).then fun c => quotable_divided _
      · exact quotable_divided f

theorem operand_succ : Quotable source (Grammar.operand (depth + 1) space) := by
  rw [Grammar.operand]
  refine quotable_enter.then fun _ => quotes_next.bind fun t ht => ?_
  split
  · exact quotable_pure
  · refine quotable_position?.then fun pos => ?_
    split
    · exact quotable_check (by simp)
    · exact quotes_stop (Error.within_of_span? rfl ht)
  · refine (quotable_again ht).then fun _ => quotable_eatIf.then fun b => ?_
    split
    · exact (ih.factor space).then fun f => quotable_pure
    · exact quotable_pure
  · exact (ih.expression space).then fun f => quotable_expectMark.then fun _ => quotable_pure
  · exact (quotable_again ht).then fun _ => (ih.expression space).then fun f =>
      quotable_expectMark.then fun _ => quotable_check (by simp)
  · exact (quotable_again ht).then fun _ => (ih.quotient space).then fun f =>
      quotable_check (by simp)
  · exact (quotable_again ht).then fun _ => (ih.quotient space).then fun f =>
      quotable_check (by simp)
  · exact (quotable_again ht).then fun _ => (ih.arguments space).then fun fs =>
      quotable_check (by simp)
  · exact (quotable_again ht).then fun _ => (ih.arguments space).then fun fs =>
      quotable_check (by simp)
  · exact quotes_stop (Token.within_unfit ht _)

theorem quotient_succ : Quotable source (Grammar.quotient (depth + 1) space) := by
  rw [Grammar.quotient]
  exact quotable_enter.then fun _ => quotable_expectMark.then fun _ => (ih.expression space).then
    fun f => quotable_expectMark.then fun _ => quotable_positiveLiteral.then fun d =>
      quotable_expectMark.then fun _ => quotable_check (by simp)

theorem arguments_succ : Quotable source (Grammar.arguments (depth + 1) space) := by
  rw [Grammar.arguments]
  exact quotable_enter.then fun _ => quotable_expectMark.then fun _ => (ih.expressions space).then
    fun fs => quotable_expectMark.then fun _ => quotable_pure

theorem expressions_succ : Quotable source (Grammar.expressions (depth + 1) space) := by
  rw [Grammar.expressions]
  refine quotable_enter.then fun _ => (ih.expression space).then fun f =>
    quotable_eatIf.then fun b => ?_
  split
  · exact (ih.expressions space).then fun fs => quotable_pure
  · exact quotable_pure

theorem choice_succ : Quotable source (Grammar.choice (depth + 1) space) := by
  rw [Grammar.choice]
  refine quotable_enter.then fun _ => quotes_peek.bind fun first hfirst =>
    (ih.expression space).then fun f => quotes_peek.bind fun t _ => ?_
  split
  · exact (quotable_push (t := .made (.expression f) first.span) hfirst).then fun _ =>
      (ih.condition _).then fun set => quotable_expectMark.then fun _ => (ih.choice space).then
        fun g => quotable_expectMark.then fun _ => (ih.choice space).then fun h =>
          quotable_warn.then fun _ => quotable_check (by simp)
  · exact quotable_pure

end Expressions

section Conditions

theorem condition_succ : Quotable source (Grammar.condition (depth + 1) set) := by
  rw [Grammar.condition]
  refine quotable_enter.then fun _ => quotes_peek.bind fun t _ => ?_
  split
  · exact quotable_pure
  · exact (ih.conjunction set).then fun r => ih.moreAlternatives _ _

theorem moreAlternatives_succ :
    Quotable source (Grammar.moreAlternatives (depth + 1) set result) := by
  rw [Grammar.moreAlternatives]
  refine quotable_enter.then fun _ => quotable_eatIf.then fun b => ?_
  split
  · exact (ih.conjunction set).then fun r => (quotable_check (by simp)).then fun _ =>
      ih.moreAlternatives _ _
  · exact quotable_pure

theorem firstConjunct (negated : Bool) : Quotable source (firstConjunct depth set negated) := by
  refine (ih.conjunct set).then fun r => ?_
  split
  · exact (quotable_check (by simp)).then fun _ => ih.moreConjuncts _ _
  · exact quotable_pure.then fun _ => ih.moreConjuncts _ _

theorem conjunction_succ : Quotable source (Grammar.conjunction (depth + 1) set) := by
  rw [Grammar.conjunction_succ]
  exact quotable_enter.then fun _ => quotable_eatIf.then fun b => ih.firstConjunct set b

theorem nextConjunct (negated : Bool) :
    Quotable source (nextConjunct depth set result negated) :=
  (ih.conjunct set).then fun r => (quotable_check (by simp)).then fun _ => ih.moreConjuncts _ _

theorem moreConjuncts_succ : Quotable source (Grammar.moreConjuncts (depth + 1) set result) := by
  rw [Grammar.moreConjuncts_succ]
  refine quotable_enter.then fun _ => quotable_eatIf.then fun b => ?_
  split
  · exact quotable_eatIf.then fun b => ih.nextConjunct set result b
  · exact quotable_pure

theorem bareConjunct : Quotable source (bareConjunct depth set) := by
  refine quotes_next.bind fun t ht => ?_
  split
  · exact quotable_pure
  · exact ih.quantifier set
  · exact quotable_pure
  · exact quotable_pure
  · exact (quotable_push ht).then fun _ => ih.comparisons set

theorem conjunct_succ : Quotable source (Grammar.conjunct (depth + 1) set) := by
  rw [Grammar.conjunct_succ]
  refine quotable_enter.then fun _ => quotable_nextIs.then fun b => ?_
  split
  · exact (ih.parenthesis set).then fun _ => ih.bareConjunct set
  · exact ih.bareConjunct set

theorem comparisons_succ : Quotable source (Grammar.comparisons (depth + 1) set) := by
  rw [Grammar.comparisons]
  refine quotable_enter.then fun _ => (ih.expressions _).then fun fs =>
    quotes_next.bind fun t ht => ?_
  split
  · exact ih.moreComparisons _ _ _ _
  · exact quotes_stop (Token.within_unfit ht _)

theorem moreComparisons_succ (left : List Piecewise) (op : Comparison) :
    Quotable source (Grammar.moreComparisons (depth + 1) space left op set) := by
  rw [Grammar.moreComparisons]
  refine quotable_enter.then fun _ => (ih.expressions space).then fun fs =>
    (quotable_check (by simp)).then fun r => (quotable_check (by simp)).then fun set =>
      quotes_next.bind fun t ht => ?_
  split
  · exact ih.moreComparisons _ _ _ _
  · exact (quotable_push ht).then fun _ => quotable_pure

theorem quantifierBody (mark : Nat) (inParens : Bool) :
    Quotable source (quantifierBody depth set mark inParens) := by
  refine (ih.quantified set).then fun r => quotable_expectMark.then fun _ => (ih.condition r).then
    fun r => (quotable_check (by simp)).then fun r => (quotable_check (by simp)).then fun r =>
      (quotable_scope (·.rollback mark)).then fun _ => ?_
  split
  · exact quotable_expectMark.then fun _ => quotable_pure
  · exact quotable_pure

theorem quantifier_succ : Quotable source (Grammar.quantifier (depth + 1) set) := by
  rw [Grammar.quantifier_succ]
  exact quotable_enter.then fun _ => upholds_get.bind fun s _ => quotable_eatIf.then fun b =>
    ih.quantifierBody set _ b

theorem moreQuantified : Quotable source (moreQuantified depth set) := by
  refine quotable_eatIf.then fun b => ?_
  split
  · exact ih.quantified set
  · exact quotable_pure

theorem quantified_succ : Quotable source (Grammar.quantified (depth + 1) set) := by
  rw [Grammar.quantified_succ]
  refine quotable_enter.then fun _ => quotes_next.bind fun t ht => ?_
  split
  · refine quotable_position?.then fun pos => ?_
    split
    · exact quotes_stop_bind (Error.within_of_span? rfl ht)
    · refine quotable_declare.then fun pos => (quotable_check (by simp)).then fun r =>
        quotable_eatIf.then fun b => ?_
      split
      · exact (ih.definition r pos).then ih.moreQuantified
      · exact ih.moreQuantified r
  · exact (quotable_push ht).then fun _ => quotable_pure

theorem insideParenthesis {opening : Span} (h : opening.Within source) :
    Quotable source (insideParenthesis depth set opening) := by
  -- The placeholder of an expression takes the span of its first token only.
  refine quotes_peek.bind fun first hfirst => ?_
  split
  · exact ih.parenthesisedCondition set h
  · refine (ih.expression _).then fun f => quotable_eatIf.then fun b =>
      (quotable_push (t := .made (.expression f) first.span) hfirst).then fun _ => ?_
    split
    · exact ih.parenthesisedCondition set h
    · exact quotable_pure

theorem parenthesis_succ : Quotable source (Grammar.parenthesis (depth + 1) set) := by
  rw [Grammar.parenthesis_succ]
  refine quotable_enter.then fun _ => quotes_expect.bind fun opening hopening =>
    quotable_nextIs.then fun b => ?_
  split
  · exact (ih.parenthesis set).then fun _ => ih.insideParenthesis set hopening
  · exact ih.insideParenthesis set hopening

theorem parenthesisedCondition_succ {opening : Span} (h : opening.Within source) :
    Quotable source (Grammar.parenthesisedCondition (depth + 1) set opening) := by
  -- The placeholder of a condition spans both of its parentheses.
  rw [Grammar.parenthesisedCondition]
  exact quotable_enter.then fun _ => (ih.condition set).then fun r =>
    quotes_expect.bind fun closing hclosing => quotable_push (h.cover hclosing)

theorem definition_succ (pos : Nat) : Quotable source (Grammar.definition (depth + 1) set pos) := by
  rw [Grammar.definition]
  exact quotable_enter.then fun _ => (ih.choice _).then fun value => (quotable_check (by simp)).then
    fun name => (quotable_check (by simp)).then fun r => quotable_check (by simp)

end Conditions

end Quoting

theorem quoting (depth : Nat) : Quoting source depth := by
  induction depth with
  | zero => constructor <;> intros <;> exact quotes_exhausted
  | succ depth ih =>
    exact ⟨ih.expression_succ, fun space negated sum => ih.terms_succ space sum negated,
      ih.moreTerms_succ, ih.factor_succ, ih.operand_succ, ih.quotient_succ, ih.arguments_succ,
      ih.expressions_succ, ih.choice_succ, ih.condition_succ, ih.moreAlternatives_succ,
      ih.conjunction_succ, ih.moreConjuncts_succ, ih.conjunct_succ, ih.comparisons_succ,
      fun space left op set => ih.moreComparisons_succ space set left op, ih.quantifier_succ,
      ih.quantified_succ, ih.parenthesis_succ, ih.parenthesisedCondition_succ, ih.definition_succ⟩

section Tuples

variable {kind : DimKind}

theorem quotable_startsTuple : Quotable source startsTuple := by
  refine quotes_tokens (TokenStream.quotes_lookingAhead
    (TokenStream.quotes_next.bind fun t _ => ?_))
  split
  · exact upholds_pure trivial
  · split
    · exact TokenStream.quotes_nextIs
    · exact upholds_pure trivial

theorem quotes_arrowBehind (depth nesting : Nat) :
    TokenStream.Quotes source (arrowBehind depth nesting) fun _ => True := by
  induction depth generalizing nesting with
  | zero => exact upholds_pure trivial
  | succ depth ih =>
    refine TokenStream.quotes_next.bind fun t _ => ?_
    split
    · exact ih _
    · split
      · exact TokenStream.quotes_nextIs.bind fun _ _ => upholds_pure trivial
      · exact ih _
    · exact upholds_pure trivial
    · exact ih _

theorem quotable_startsRelation (depth : Nat) : Quotable source (startsRelation depth) := by
  refine quotable_startsTuple.then fun b => ?_
  split
  · refine (quotes_tokens (TokenStream.quotes_lookingAhead (quotes_arrowBehind depth 0))).bind
      fun found _ => ?_
    split
    · exact quotable_pure
    · exact quotes_exhausted
  · exact quotable_pure

theorem quotable_freshName? (t : Token) : Quotable source (freshName? t) := by
  rw [freshName?]
  split
  · exact quotable_position?.then fun _ => quotable_pure
  · exact quotable_pure

theorem quotable_item (depth : Nat) (read : Items) {t : Token} (ht : t.span.Within source) :
    Quotable source (item depth kind read t) := by
  rw [item]
  refine (quotable_freshName? t).then fun name => ?_
  split
  · refine quotable_declare.then fun pos => (quotable_check (by simp)).then fun set =>
      quotable_eatIf.then fun b => ?_
    split
    · exact ((quoting depth).definition set pos).then fun _ => quotable_pure
    · exact quotable_pure
  · split
    · split
      · exact quotes_stop (Error.within_of_span? rfl ht)
      · exact quotes_stop (Token.within_unfit ht _)
    · exact (quotable_push ht).then fun _ => quotable_declare.then fun pos =>
        (quotable_check (by simp)).then fun set =>
          ((quoting depth).definition set pos).then fun _ => quotable_pure

theorem quotable_items (depth : Nat) (read : Items) : Quotable source (items depth kind read) := by
  induction depth generalizing read with
  | zero => exact quotes_exhausted
  | succ depth ih =>
    rw [items]
    refine quotable_enter.then fun _ => quotes_next.bind fun t ht =>
      (quotable_item depth read ht).then fun read' => quotes_next.bind fun behind hbehind => ?_
    split
    · exact ih read'
    · split
      · exact (quotable_push hbehind).then fun _ => quotable_pure
      · refine quotable_nextIs.then fun b => ?_
        split
        · exact quotes_next.bind fun _ _ => ih read'
        · exact (quotable_push hbehind).then fun _ => quotable_pure

variable {depth : Nat} {set : Relation} {name : Label} {t : Token}

theorem quotable_closeTuple (shaped : Shaped) : Quotable source (closeTuple name shaped) :=
  quotable_expectMark.then fun _ => quotable_pure

theorem quotable_insideTuple (htuple : ∀ set, Quotable source (tuple depth kind set))
    (wraps : Bool) : Quotable source (insideTuple depth kind set name wraps) := by
  refine quotable_nextIs.then fun closes => ?_
  split
  · exact (htuple set).then fun domain => quotable_expectMark.then fun _ =>
      (htuple domain.set).then fun range => quotable_closeTuple _
  · split
    · exact quotable_closeTuple _
    · exact (quotable_items depth ⟨set, []⟩).then fun read => quotable_closeTuple _

theorem quotable_openTuple (htuple : ∀ set, Quotable source (tuple depth kind set))
    (ht : t.span.Within source) : Quotable source (openTuple depth kind set name t) := by
  rw [openTuple]
  split
  · exact quotes_stop (Token.within_unfit ht _)
  · split
    · exact quotable_insideTuple htuple false
    · exact (quotable_startsRelation depth).then fun wraps => quotable_insideTuple htuple wraps

theorem quotable_tuple (depth : Nat) (set : Relation) : Quotable source (tuple depth kind set) := by
  induction depth generalizing set with
  | zero => exact quotes_exhausted
  | succ depth ih =>
    rw [tuple_succ]
    refine quotable_enter.then fun _ => quotes_next.bind fun t ht => ?_
    split
    · exact quotes_next.bind fun opening hopening => quotable_openTuple ih hopening
    · exact quotable_openTuple ih ht

end Tuples

section Bodies

variable (depth : Nat) (params set : Relation)

theorem quotable_optionalCondition : Quotable source (optionalCondition depth set) := by
  refine quotes_next.bind fun t ht => ?_
  split
  · exact (quoting depth).condition set
  · exact (quotable_push ht).then fun _ => quotable_pure

theorem quotable_expectEnd : Quotable source expectEnd := by
  refine quotes_next.bind fun t ht => ?_
  split
  · exact quotes_stop (Token.within_unfit ht _)
  · exact quotable_pure

theorem quotable_parameters : Quotable source (parameters depth) := by
  refine quotable_nextIs.then fun b => ?_
  split
  · exact (quotable_tuple depth _).then fun shaped =>
      quotable_expectMark.then fun _ => quotable_pure
  · exact quotable_pure

theorem quotable_parameterNames : Quotable source (parameterNames params) :=
  upholds_get.bind fun _ _ => quotable_pure

theorem quotable_located : Quotable source (located depth params) := by
  refine (quotable_parameterNames params).then fun names => quotable_nextIs.then fun b => ?_
  split
  · exact (quotable_optionalCondition depth params).then fun r => quotable_pure
  · refine (quotable_tuple depth params).then fun first => quotable_eatIf.then fun b => ?_
    split
    · exact (quotable_tuple depth _).then fun second =>
        (quotable_optionalCondition depth _).then fun r => quotable_pure
    · exact (quotable_optionalCondition depth _).then fun r => quotable_pure

theorem quotable_body (config : Config) : Quotable source (body config depth params) :=
  (quotable_inScope (quotable_located depth params)).then fun _ =>
    (quotable_check (by simp)).then fun _ => quotable_pure

/-- Sets and relations that do not go together are told at the start of the body that is added. -/
theorem quotable_insert (object : Object) (r : Relation) {span : Span} (h : span.Within source) :
    Quotable source (check (object.insert r span)) := by
  cases hinsert : object.insert r span with
  | ok o => exact quotable_pure
  | error e =>
    refine quotes_stop ?_
    rcases Object.span?_insert hinsert with he | he
    · exact fun s hs => by simp [he] at hs
    · exact Error.within_of_span? he h

theorem quotable_moreBodies (config : Config) (object : Object) :
    Quotable source (moreBodies config params depth object) := by
  induction depth generalizing object with
  | zero => exact quotes_exhausted
  | succ depth ih =>
    rw [moreBodies]
    refine quotable_enter.then fun _ => quotable_eatIf.then fun b => ?_
    split
    · refine quotable_nextIs.then fun b => ?_
      split
      · exact quotable_pure
      · exact quotes_peek.bind fun start hstart => (quotable_body depth params config).then fun r =>
          (quotable_insert object r hstart).then fun o => ih o
    · exact quotable_pure

theorem quotable_bodies (config : Config) : Quotable source (bodies config depth params) :=
  (quotable_body depth params config).then fun _ =>
    (quotable_moreBodies depth params config _).then fun _ => quotable_expectMark.then fun _ =>
      quotable_expectEnd.then fun _ => quotable_pure

theorem quotable_object (config : Config) : Quotable source (object config depth) := by
  refine (quotable_parameters depth).then fun params => quotable_expectMark.then fun _ =>
    quotes_next.bind fun t ht => ?_
  split
  · exact quotable_expectMark.then fun _ => (quotable_tuple depth params).then fun shaped =>
      quotable_bodies depth shaped.set config
  · exact quotable_expectEnd.then fun _ => quotable_pure
  · exact (quotable_push ht).then fun _ => quotable_bodies depth params config

end Bodies

section Pieces

variable (depth : Nat) (params set : Relation)

theorem quotable_startsDomain : Quotable source startsDomain := by
  refine upholds_get.bind fun s hs => quotes_next.bind fun _ _ => quotable_startsTuple.then fun b =>
    quotable_nextIs.then fun b' => ?_
  have hback : ∀ found : Bool, Quotable source (do
      tokens (TokenStream.restore s.stream)
      return found) := fun _ =>
    (quotes_tokens (TokenStream.quotes_restore hs)).bind fun _ _ => quotable_pure
  split
  · exact hback true
  · split
    · exact hback true
    · exact quotes_peek.bind fun t _ => (quotable_freshName? t).then fun name => hback name.isSome

theorem quotable_pieceDomain? : Quotable source (pieceDomain? depth params) := by
  have htuple : Quotable source (do return some (← tuple depth .output params)) :=
    (quotable_tuple depth params).then fun shaped => quotable_pure
  refine quotes_peek.bind fun t ht => ?_
  split
  · exact htuple
  · split
    · exact quotes_stop_bind (Token.within_unfit ht _)
    · refine quotable_startsDomain.then fun b => ?_
      split
      · exact htuple
      · exact quotable_pure

theorem quotable_pieceValue : Quotable source (pieceValue depth set) :=
  quotable_expectMark.then fun _ => ((quoting depth).choice _).then fun f =>
    quotable_expectMark.then fun _ => (quotable_optionalCondition depth set).then fun r =>
      quotable_check (by simp)

theorem quotable_locatedPiece : Quotable source (locatedPiece depth params) := by
  refine (quotable_parameterNames params).then fun names =>
    (quotable_pieceDomain? depth params).then fun domain => ?_
  split
  · exact quotable_expectMark.then fun _ =>
      (quotable_pieceValue depth _).then fun f => quotable_pure
  · exact (quotable_pieceValue depth params).then fun f => quotable_pure

theorem quotable_piece : Quotable source (piece depth params) :=
  (quotable_inScope (quotable_locatedPiece depth params)).then fun _ => quotable_check (by simp)

theorem quotable_morePieces (whole : Piecewise) :
    Quotable source (morePieces params depth whole) := by
  induction depth generalizing whole with
  | zero => exact quotes_exhausted
  | succ depth ih =>
    rw [morePieces]
    refine quotable_enter.then fun _ => quotable_eatIf.then fun b => ?_
    split
    · refine quotable_nextIs.then fun b => ?_
      split
      · exact quotable_pure
      · refine quotes_peek.bind fun start hstart =>
          (quotable_piece depth params).then fun part => ?_
        split
        · exact quotes_stop_bind (Error.within_of_span? rfl hstart)
        · exact (quotable_check (by simp)).then fun f => ih f
    · exact quotable_pure

theorem quotable_piecewise : Quotable source (piecewise depth) :=
  (quotable_parameters depth).then fun params => quotable_expectMark.then fun _ =>
    (quotable_piece depth params).then fun f => (quotable_morePieces depth params f).then fun _ =>
      quotable_expectMark.then fun _ => quotable_expectEnd.then fun _ => quotable_pure

end Pieces

end Quasiaffine.Grammar

namespace Quasiaffine.Reader

theorem within_of_run {α : Type} {source : String} {production : Nat → Reading α} {e : Error}
    (h : ∀ depth, Reading.Quotable source.toList (production depth))
    (he : (run source production).result = .error (.error e)) : e.Within source.toList := by
  have hends := h (depthFor source) (initial source) (TokenStream.inside_ofText source)
  rw [run] at he
  cases hrun : production (depthFor source) (initial source) with
  | mk result final =>
    rw [hrun] at hends he
    dsimp only at he
    rw [he] at hends
    exact hends

/-- Every error of reading a text that lies in it can be quoted with its line; the lines of a text
with line ends between them are the text. -/
theorem quoted_errors (config : Config) (source : String) :
    (∀ (e : Error) (span : Span), (object config source).result = .error (.error e) ∨
        (piecewise source).result = .error (.error e) → e.span? = some span →
      Source.Quoted source span) ∧
    ∃ ls : List String, (∀ i, Source.line? source (i + 1) = ls[i]?) ∧
      "\n".intercalate ls = source := by
  refine ⟨fun e span he hspan => Source.quoted_of_within ?_, Source.intercalate_line? source⟩
  rcases he with he | he
  · exact within_of_run (fun depth => Grammar.quotable_object depth config) he span hspan
  · exact within_of_run Grammar.quotable_piecewise he span hspan

/-- The power behind the object is one token of six characters. -/
theorem quoted_errors_power :
    let source := "\x7b [é]\n  : é < 1 \x7d /* é */ 2 ^ 31"
    let span : Span := ⟨⟨2, 21, 29⟩, ⟨2, 27, 35⟩⟩
    (∃ e, (object default source).result = .error (.error e) ∧ e.span? = some span) ∧
      Source.Quoted source span ∧
      Source.excerpt? source span =
        some "  : é < 1 \x7d /* é */ 2 ^ 31\n                    ^^^^^^" := by
  intro source span
  have herror : (match (object default source).result with
      | .error (.error e) => decide (e.span? = some span)
      | _ => false) = true := by decide +kernel
  split at herror
  · rename_i e he
    have hspan := of_decide_eq_true herror
    exact ⟨⟨e, he, hspan⟩, (quoted_errors default source).1 e span (.inl he) hspan,
      by decide +kernel⟩
  · cases herror

end Quasiaffine.Reader
