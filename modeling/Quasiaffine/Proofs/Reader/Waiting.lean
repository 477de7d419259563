import Quasiaffine.Proofs.Reader.FormulaParts
import Quasiaffine.Proofs.Reader.Room
import Quasiaffine.Proofs.Reader.TupleParts
import Quasiaffine.Reader.Basic

/-!
No more tokens wait than may, whatever text is read. Every production may start with two tokens
waiting, which are an operand in place of what was read in parentheses and the token behind it. What
reads an expression leaves one token at most, and what reads a condition or a tuple two at most. By
induction on the depth of calls.
-/

set_option autoImplicit false

namespace Quasiaffine.Grammar

open Reading

section Literals

theorem waits_literal {n : Nat} : Waits n literal (n - 1) := by
  refine waits_next.bind fun t => ?_
  split
  · exact waits_pure (Nat.le_refl _)
  · exact waits_stop

theorem waits_positiveLiteral {n : Nat} : Waits n positiveLiteral (n - 1) := by
  refine waits_next.bind fun t => ?_
  split
  · split
    · exact waits_pure (Nat.le_refl _)
    · exact waits_stop
  · exact waits_stop

theorem waits_coefficientFollows : Waits 1 coefficientFollows 1 :=
  waits_eatIf_bind (by decide) (waits_pure (by decide)) (waits_nextIs (by decide))

theorem waits_literalProduct (depth : Nat) (product : Int) :
    Waits 1 (literalProduct depth product) 1 := by
  induction depth generalizing product with
  | zero => exact waits_exhausted
  | succ depth ih =>
    exact waits_enter.bind fun _ => waits_literal.bind fun v =>
      waits_eatIf_bind (by decide) ((ih _).from (by decide)) (waits_pure (by decide))

theorem waits_divided (f : Piecewise) : Waits 1 (divided f) 1 :=
  waits_eatIf_bind (by decide)
    (waits_positiveLiteral.bind fun d => waits_check.to (by decide))
    (waits_pure (by decide))

end Literals

structure Waiting (depth : Nat) : Prop where
  expression (space : Space) : Waits 2 (expression depth space) 1
  terms (space : Space) (negated : Bool) (sum : Piecewise) :
    Waits 2 (terms depth space negated sum) 1
  moreTerms (space : Space) (sum : Piecewise) : Waits 1 (moreTerms depth space sum) 1
  factor (space : Space) : Waits 2 (factor depth space) 1
  operand (space : Space) : Waits 2 (operand depth space) 1
  quotient (space : Space) : Waits 2 (quotient depth space) 1
  arguments (space : Space) : Waits 2 (arguments depth space) 1
  expressions (space : Space) : Waits 2 (expressions depth space) 1
  choice (space : Space) : Waits 2 (choice depth space) 1
  condition (set : Relation) : Waits 2 (condition depth set) 2
  moreAlternatives (set result : Relation) : Waits 2 (moreAlternatives depth set result) 2
  conjunction (set : Relation) : Waits 2 (conjunction depth set) 2
  moreConjuncts (set result : Relation) : Waits 2 (moreConjuncts depth set result) 2
  conjunct (set : Relation) : Waits 2 (conjunct depth set) 2
  comparisons (set : Relation) : Waits 2 (comparisons depth set) 2
  moreComparisons (space : Space) (left : List Piecewise) (op : Comparison) (set : Relation) :
    Waits 2 (moreComparisons depth space left op set) 2
  quantifier (set : Relation) : Waits 2 (quantifier depth set) 2
  quantified (set : Relation) : Waits 2 (quantified depth set) 2
  parenthesis (set : Relation) : Waits 2 (parenthesis depth set) 2
  parenthesisedCondition (set : Relation) (opening : Span) :
    Waits 2 (parenthesisedCondition depth set opening) 2
  definition (set : Relation) (pos : Nat) : Waits 2 (definition depth set pos) 1

namespace Waiting

variable {depth : Nat} (ih : Waiting depth) (space : Space) (sum : Piecewise) (set result : Relation)

include ih

section Expressions

theorem expression_succ : Waits 2 (Grammar.expression (depth + 1) space) 1 := by
  rw [Grammar.expression]
  exact waits_enter.bind fun _ => ih.terms _ _ _

theorem terms_succ (negated : Bool) : Waits 2 (Grammar.terms (depth + 1) space negated sum) 1 := by
  have hadd : ∀ term : Piecewise,
      Waits 1 (check (sum.add term) >>= Grammar.moreTerms depth space) 1 := fun term =>
    waits_check.bind fun _ => ih.moreTerms _ _
  rw [Grammar.terms]
  refine waits_enter.bind fun _ => waits_next.bind fun t => ?_
  split
  · exact (ih.terms _ _ _).from (by decide)
  · refine (waits_again (by decide)).bind fun _ => waits_coefficientFollows.bind fun b => ?_
    split
    · exact ((ih.factor space).from (by decide)).bind fun f => hadd _
    · exact (waits_push (by decide)).bind fun _ => (ih.factor space).bind hadd
  · exact waits_stop
  · split
    · refine (waits_push (by decide)).bind fun _ => (ih.factor space).bind fun f => ?_
      split
      · exact waits_check.bind fun _ => ih.moreTerms _ _
      · exact hadd f
    · exact waits_stop

theorem moreTerms_succ : Waits 1 (Grammar.moreTerms (depth + 1) space sum) 1 := by
  rw [Grammar.moreTerms]
  refine waits_enter.bind fun _ => waits_next.bind fun t => ?_
  split
  · exact (ih.terms _ _ _).from (by decide)
  · exact (ih.terms _ _ _).from (by decide)
  · refine (waits_push (by decide)).bind fun _ => ?_
    split
    · exact (ih.terms _ _ _).from (by decide)
    · exact waits_pure (by decide)
  · exact (waits_push (by decide)).bind fun _ => waits_pure (by decide)

theorem factor_succ : Waits 2 (Grammar.factor (depth + 1) space) 1 := by
  have hmod : ∀ f : Piecewise, Waits 0 (do check (f.mod (← positiveLiteral))) 1 := fun f =>
    waits_positiveLiteral.bind fun m => waits_check.to (by decide)
  rw [Grammar.factor_succ]
  refine waits_enter.bind fun _ => (ih.operand space).bind fun f =>
    waits_eatIf_bind (by decide) (hmod f) (waits_eatIf_bind (by decide) (hmod f)
      (waits_eatIf_bind (by decide) ?_ (waits_divided f)))
  exact ((waits_literalProduct _ _).from (by decide)).bind fun c => waits_divided _

theorem operand_succ : Waits 2 (Grammar.operand (depth + 1) space) 1 := by
  rw [Grammar.operand]
  refine waits_enter.bind fun _ => waits_next.bind fun t => ?_
  split
  · exact waits_pure (by decide)
  · refine waits_position?.bind fun pos => ?_
    split
    · exact waits_check
    · exact waits_stop
  · exact (waits_again (by decide)).bind fun _ => waits_eatIf_bind (by decide)
      (((ih.factor space).from (by decide)).bind fun f => waits_pure (by decide))
      (waits_pure (by decide))
  · exact ((ih.expression space).from (by decide)).bind fun f => waits_expectMark.bind fun _ =>
      waits_pure (by decide)
  · exact (waits_again (by decide)).bind fun _ => ((ih.expression space).from (by decide)).bind
      fun f => waits_expectMark.bind fun _ => waits_check.to (by decide)
  · exact (waits_again (by decide)).bind fun _ => ((ih.quotient space).from (by decide)).bind
      fun f => waits_check
  · exact (waits_again (by decide)).bind fun _ => ((ih.quotient space).from (by decide)).bind
      fun f => waits_check
  · exact (waits_again (by decide)).bind fun _ => ((ih.arguments space).from (by decide)).bind
      fun fs => waits_check
  · exact (waits_again (by decide)).bind fun _ => ((ih.arguments space).from (by decide)).bind
      fun fs => waits_check
  · exact waits_stop

theorem quotient_succ : Waits 2 (Grammar.quotient (depth + 1) space) 1 := by
  rw [Grammar.quotient]
  exact waits_enter.bind fun _ => waits_expectMark.bind fun _ =>
    ((ih.expression space).from (by decide)).bind fun f => waits_expectMark.bind fun _ =>
      waits_positiveLiteral.bind fun d =>
        waits_expectMark.bind fun _ => waits_check.to (by decide)

theorem arguments_succ : Waits 2 (Grammar.arguments (depth + 1) space) 1 := by
  rw [Grammar.arguments]
  exact waits_enter.bind fun _ => waits_expectMark.bind fun _ =>
    ((ih.expressions space).from (by decide)).bind fun fs => waits_expectMark.bind fun _ =>
      waits_pure (by decide)

theorem expressions_succ : Waits 2 (Grammar.expressions (depth + 1) space) 1 := by
  rw [Grammar.expressions]
  exact waits_enter.bind fun _ => (ih.expression space).bind fun f =>
    waits_eatIf_bind (by decide)
      (((ih.expressions space).from (by decide)).bind fun fs => waits_pure (by decide))
      (waits_pure (by decide))

theorem choice_succ : Waits 2 (Grammar.choice (depth + 1) space) 1 := by
  -- The expression that was compared waits in front of the comparison.
  rw [Grammar.choice]
  refine waits_enter.bind fun _ => (waits_peek (by decide)).bind fun first =>
    (ih.expression space).bind fun f => (waits_peek (by decide)).bind fun t => ?_
  split
  · exact (waits_push (by decide)).bind fun _ => (ih.condition _).bind fun set =>
      waits_expectMark.bind fun _ => ((ih.choice space).from (by decide)).bind fun g =>
        waits_expectMark.bind fun _ => ((ih.choice space).from (by decide)).bind fun h =>
          waits_warn.bind fun _ => waits_check
  · exact waits_pure (by decide)

end Expressions

section Conditions

theorem condition_succ : Waits 2 (Grammar.condition (depth + 1) set) 2 := by
  rw [Grammar.condition]
  refine waits_enter.bind fun _ => (waits_peek (by decide)).bind fun t => ?_
  split
  · exact waits_pure (by decide)
  · exact (ih.conjunction set).bind fun r => ih.moreAlternatives _ _

theorem moreAlternatives_succ : Waits 2 (Grammar.moreAlternatives (depth + 1) set result) 2 := by
  rw [Grammar.moreAlternatives]
  exact waits_enter.bind fun _ => waits_eatIf_bind (by decide)
    (((ih.conjunction set).from (by decide)).bind fun r => waits_check.bind fun _ =>
      ih.moreAlternatives _ _)
    (waits_pure (by decide))

theorem firstConjunct (negated : Bool) : Waits 2 (firstConjunct depth set negated) 2 := by
  refine (ih.conjunct set).bind fun r => ?_
  split
  · exact waits_check.bind fun _ => ih.moreConjuncts _ _
  · exact (waits_pure (Nat.le_refl 2)).bind fun _ => ih.moreConjuncts _ _

theorem conjunction_succ : Waits 2 (Grammar.conjunction (depth + 1) set) 2 := by
  rw [Grammar.conjunction_succ]
  exact waits_enter.bind fun _ => (waits_eatIf (by decide)).bind fun b => ih.firstConjunct set b

theorem nextConjunct (negated : Bool) : Waits 2 (nextConjunct depth set result negated) 2 :=
  (ih.conjunct set).bind fun _ => waits_check.bind fun _ => ih.moreConjuncts _ _

theorem moreConjuncts_succ : Waits 2 (Grammar.moreConjuncts (depth + 1) set result) 2 := by
  rw [Grammar.moreConjuncts_succ]
  exact waits_enter.bind fun _ => waits_eatIf_bind (by decide)
    ((waits_eatIf (by decide)).bind fun b => (ih.nextConjunct set result b).from (by decide))
    (waits_pure (by decide))

theorem bareConjunct : Waits 2 (bareConjunct depth set) 2 := by
  refine waits_next.bind fun t => ?_
  split
  · exact waits_pure (by decide)
  · exact (ih.quantifier set).from (by decide)
  · exact waits_pure (by decide)
  · exact waits_pure (by decide)
  · exact (waits_push (by decide)).bind fun _ => ih.comparisons set

theorem conjunct_succ : Waits 2 (Grammar.conjunct (depth + 1) set) 2 := by
  rw [Grammar.conjunct_succ]
  refine waits_enter.bind fun _ => (waits_nextIs (by decide)).bind fun b => ?_
  split
  · exact (ih.parenthesis set).bind fun _ => ih.bareConjunct set
  · exact ih.bareConjunct set

theorem comparisons_succ : Waits 2 (Grammar.comparisons (depth + 1) set) 2 := by
  rw [Grammar.comparisons]
  refine waits_enter.bind fun _ => (ih.expressions _).bind fun fs => waits_next.bind fun t => ?_
  split
  · exact (ih.moreComparisons _ _ _ _).from (by decide)
  · exact waits_stop

theorem moreComparisons_succ (left : List Piecewise) (op : Comparison) :
    Waits 2 (Grammar.moreComparisons (depth + 1) space left op set) 2 := by
  rw [Grammar.moreComparisons]
  refine waits_enter.bind fun _ => (ih.expressions space).bind fun fs => waits_check.bind fun r =>
    waits_check.bind fun set => waits_next.bind fun t => ?_
  split
  · exact (ih.moreComparisons _ _ _ _).from (by decide)
  · exact (waits_push (by decide)).bind fun _ => waits_pure (by decide)

theorem quantifierBody (mark : Nat) (inParens : Bool) :
    Waits 2 (quantifierBody depth set mark inParens) 2 := by
  refine (ih.quantified set).bind fun r => waits_expectMark.bind fun _ =>
    ((ih.condition r).from (by decide)).bind fun r => waits_check.bind fun r =>
      waits_check.bind fun r => (waits_scope (·.rollback mark)).bind fun _ => ?_
  split
  · exact waits_expectMark.bind fun _ => waits_pure (by decide)
  · exact waits_pure (by decide)

theorem quantifier_succ : Waits 2 (Grammar.quantifier (depth + 1) set) 2 := by
  rw [Grammar.quantifier_succ]
  exact waits_enter.bind fun _ => Waits.get_bind fun s _ => (waits_eatIf (by decide)).bind fun b =>
    ih.quantifierBody set _ b

theorem moreQuantified : Waits 1 (moreQuantified depth set) 2 :=
  waits_eatIf_bind (by decide) ((ih.quantified set).from (by decide)) (waits_pure (by decide))

theorem quantified_succ : Waits 2 (Grammar.quantified (depth + 1) set) 2 := by
  rw [Grammar.quantified_succ]
  refine waits_enter.bind fun _ => waits_next.bind fun t => ?_
  split
  · refine waits_position?.bind fun pos => ?_
    split
    · exact waits_stop_bind
    · exact waits_declare.bind fun pos => waits_check.bind fun r => waits_eatIf_bind (by decide)
        (((ih.definition r pos).from (by decide)).bind ih.moreQuantified) (ih.moreQuantified r)
  · exact (waits_push (by decide)).bind fun _ => waits_pure (by decide)

theorem insideParenthesis (opening : Span) : Waits 2 (insideParenthesis depth set opening) 2 := by
  -- The placeholder waits in front of the token behind what was read.
  refine (waits_peek (by decide)).bind fun first => ?_
  split
  · exact ih.parenthesisedCondition set opening
  · refine (ih.expression _).bind fun f => (waits_eatIf (by decide)).bind fun b =>
      (waits_push (by decide)).bind fun _ => ?_
    split
    · exact ih.parenthesisedCondition set opening
    · exact waits_pure (by decide)

theorem parenthesis_succ : Waits 2 (Grammar.parenthesis (depth + 1) set) 2 := by
  rw [Grammar.parenthesis_succ]
  refine waits_enter.bind fun _ => waits_expect.bind fun opening =>
    (waits_nextIs (by decide)).bind fun b => ?_
  split
  · exact ((ih.parenthesis set).from (by decide)).bind fun _ => ih.insideParenthesis set _
  · exact (ih.insideParenthesis set _).from (by decide)

theorem parenthesisedCondition_succ (opening : Span) :
    Waits 2 (Grammar.parenthesisedCondition (depth + 1) set opening) 2 := by
  rw [Grammar.parenthesisedCondition]
  exact waits_enter.bind fun _ => (ih.condition set).bind fun r => waits_expect.bind fun closing =>
    waits_push (by decide)

theorem definition_succ (pos : Nat) : Waits 2 (Grammar.definition (depth + 1) set pos) 1 := by
  rw [Grammar.definition]
  exact waits_enter.bind fun _ => (ih.choice _).bind fun value => waits_check.bind fun name =>
    waits_check.bind fun r => waits_check

end Conditions

end Waiting

theorem waiting (depth : Nat) : Waiting depth := by
  induction depth with
  | zero => constructor <;> intros <;> exact waits_exhausted
  | succ depth ih =>
    exact ⟨ih.expression_succ, fun space negated sum => ih.terms_succ space sum negated,
      ih.moreTerms_succ, ih.factor_succ, ih.operand_succ, ih.quotient_succ, ih.arguments_succ,
      ih.expressions_succ, ih.choice_succ, ih.condition_succ, ih.moreAlternatives_succ,
      ih.conjunction_succ, ih.moreConjuncts_succ, ih.conjunct_succ, ih.comparisons_succ,
      fun space left op set => ih.moreComparisons_succ space set left op, ih.quantifier_succ,
      ih.quantified_succ, ih.parenthesis_succ, ih.parenthesisedCondition_succ, ih.definition_succ⟩

section Tuples

variable {kind : DimKind}

theorem waits_startsTuple : Waits 2 startsTuple 2 := by
  refine waits_tokens (TokenStream.waits_lookingAhead (k := 1)
    (TokenStream.waits_next.bind fun t => ?_))
  split
  · exact TokenStream.waits_pure (by decide)
  · split
    · exact TokenStream.waits_nextIs (by decide)
    · exact TokenStream.waits_pure (by decide)

theorem waits_arrowBehind (depth nesting : Nat) :
    TokenStream.Waits 2 (arrowBehind depth nesting) 2 := by
  induction depth generalizing nesting with
  | zero => exact TokenStream.waits_pure (by decide)
  | succ depth ih =>
    have hmore : ∀ nesting, TokenStream.Waits 1 (arrowBehind depth nesting) 2 := fun nesting =>
      (ih nesting).mono (by decide) (by decide)
    refine TokenStream.waits_next.bind fun t => ?_
    split
    · exact hmore _
    · split
      · exact (TokenStream.waits_nextIs (by decide)).bind fun _ =>
          TokenStream.waits_pure (by decide)
      · exact hmore _
    · exact TokenStream.waits_pure (by decide)
    · exact hmore _

theorem waits_startsRelation (depth : Nat) : Waits 2 (startsRelation depth) 2 := by
  refine waits_startsTuple.bind fun b => ?_
  split
  · refine (waits_tokens (TokenStream.waits_lookingAhead (waits_arrowBehind depth 0))).bind
      fun found => ?_
    split
    · exact waits_pure (by decide)
    · exact waits_exhausted
  · exact waits_pure (by decide)

theorem waits_freshName? {n : Nat} (t : Token) : Waits n (freshName? t) n := by
  rw [freshName?]
  split
  · exact waits_position?.bind fun _ => waits_pure (Nat.le_refl n)
  · exact waits_pure (Nat.le_refl n)

theorem waits_item (depth : Nat) (read : Items) (t : Token) :
    Waits 1 (item depth kind read t) 1 := by
  rw [item]
  refine (waits_freshName? t).bind fun name => ?_
  split
  · exact waits_declare.bind fun pos => waits_check.bind fun set => waits_eatIf_bind (by decide)
      ((((waiting depth).definition set pos).from (by decide)).bind fun _ => waits_pure (by decide))
      (waits_pure (by decide))
  · split
    · split
      · exact waits_stop
      · exact waits_stop
    · exact (waits_push (by decide)).bind fun _ => waits_declare.bind fun pos =>
        waits_check.bind fun set => ((waiting depth).definition set pos).bind fun _ =>
          waits_pure (by decide)

theorem waits_items (depth : Nat) (read : Items) : Waits 2 (items depth kind read) 2 := by
  -- Behind the last item the bracket that closes the tuple is put back in front of the
  -- token behind it, which has been looked at.
  induction depth generalizing read with
  | zero => exact waits_exhausted
  | succ depth ih =>
    rw [items]
    refine waits_enter.bind fun _ => waits_next.bind fun t => (waits_item depth read t).bind
      fun read' => waits_next.bind fun behind => ?_
    split
    · exact (ih read').from (by decide)
    · split
      · exact (waits_push (by decide)).bind fun _ => waits_pure (by decide)
      · refine (waits_nextIs (by decide)).bind fun b => ?_
        split
        · exact waits_next.bind fun _ => (ih read').from (by decide)
        · exact (waits_push (by decide)).bind fun _ => waits_pure (by decide)

variable {depth : Nat} {set : Relation} {name : Label} {t : Token}

theorem waits_closeTuple (shaped : Shaped) : Waits 2 (closeTuple name shaped) 1 :=
  waits_expectMark.bind fun _ => waits_pure (by decide)

theorem waits_insideTuple (htuple : ∀ set, Waits 2 (tuple depth kind set) 1) (wraps : Bool) :
    Waits 2 (insideTuple depth kind set name wraps) 1 := by
  refine (waits_nextIs (by decide)).bind fun closes => ?_
  split
  · exact (htuple set).bind fun domain => waits_expectMark.bind fun _ =>
      ((htuple domain.set).from (by decide)).bind fun range =>
        (waits_closeTuple _).from (by decide)
  · split
    · exact waits_closeTuple _
    · exact (waits_items depth ⟨set, []⟩).bind fun read => waits_closeTuple _

theorem waits_openTuple (htuple : ∀ set, Waits 2 (tuple depth kind set) 1) :
    Waits 2 (openTuple depth kind set name t) 1 := by
  rw [openTuple]
  split
  · exact waits_stop
  · split
    · exact waits_insideTuple htuple false
    · exact (waits_startsRelation depth).bind fun wraps => waits_insideTuple htuple wraps

theorem waits_tuple (depth : Nat) (set : Relation) : Waits 2 (tuple depth kind set) 1 := by
  induction depth generalizing set with
  | zero => exact waits_exhausted
  | succ depth ih =>
    rw [tuple_succ]
    refine waits_enter.bind fun _ => waits_next.bind fun t => ?_
    split
    · exact waits_next.bind fun opening => (waits_openTuple ih).from (by decide)
    · exact (waits_openTuple ih).from (by decide)

end Tuples

section Bodies

variable (depth : Nat) (params set : Relation)

theorem waits_optionalCondition : Waits 2 (optionalCondition depth set) 2 := by
  refine waits_next.bind fun t => ?_
  split
  · exact ((waiting depth).condition set).from (by decide)
  · exact (waits_push (by decide)).bind fun _ => waits_pure (by decide)

theorem waits_expectEnd : Waits 2 expectEnd 2 := by
  refine waits_next.bind fun t => ?_
  split
  · exact waits_stop
  · exact waits_pure (by decide)

theorem waits_parameters : Waits 2 (parameters depth) 2 := by
  refine (waits_nextIs (by decide)).bind fun b => ?_
  split
  · exact (waits_tuple depth _).bind fun shaped => waits_expectMark.bind fun _ =>
      waits_pure (by decide)
  · exact waits_pure (by decide)

theorem waits_parameterNames : Waits 2 (parameterNames params) 2 :=
  Waits.get_bind fun _ _ => waits_pure (by decide)

theorem waits_located : Waits 2 (located depth params) 2 := by
  refine (waits_parameterNames params).bind fun names => (waits_nextIs (by decide)).bind fun b => ?_
  split
  · exact (waits_optionalCondition depth params).bind fun r => waits_pure (by decide)
  · exact (waits_tuple depth params).bind fun first => waits_eatIf_bind (by decide)
      (((waits_tuple depth _).from (by decide)).bind fun second =>
        ((waits_optionalCondition depth _).from (by decide)).bind fun r => waits_pure (by decide))
      (((waits_optionalCondition depth _).from (by decide)).bind fun r => waits_pure (by decide))

theorem waits_body (config : Config) : Waits 2 (body config depth params) 2 :=
  (waits_inScope (waits_located depth params)).bind fun _ => waits_check.bind fun _ =>
    waits_pure (by decide)

theorem waits_moreBodies (config : Config) (object : Object) :
    Waits 2 (moreBodies config params depth object) 2 := by
  induction depth generalizing object with
  | zero => exact waits_exhausted
  | succ depth ih =>
    rw [moreBodies]
    refine waits_enter.bind fun _ => waits_eatIf_bind (by decide)
      ((waits_nextIs (by decide)).bind fun b => ?_) (waits_pure (by decide))
    split
    · exact waits_pure (by decide)
    · exact (waits_peek (by decide)).bind fun start =>
        ((waits_body depth params config).from (by decide)).bind fun r =>
          waits_check.bind fun o => ih o

theorem waits_bodies (config : Config) : Waits 2 (bodies config depth params) 2 :=
  (waits_body depth params config).bind fun _ => (waits_moreBodies depth params config _).bind
    fun _ => waits_expectMark.bind fun _ => (waits_expectEnd.from (by decide)).bind fun _ =>
      waits_pure (by decide)

theorem waits_object (config : Config) : Waits 2 (object config depth) 2 := by
  refine (waits_parameters depth).bind fun params => waits_expectMark.bind fun _ =>
    waits_next.bind fun t => ?_
  split
  · exact waits_expectMark.bind fun _ => ((waits_tuple depth params).from (by decide)).bind
      fun shaped => (waits_bodies depth shaped.set config).from (by decide)
  · exact (waits_expectEnd.from (by decide)).bind fun _ => waits_pure (by decide)
  · exact (waits_push (by decide)).bind fun _ =>
      (waits_bodies depth params config).from (by decide)

end Bodies

section Pieces

variable (depth : Nat) (params set : Relation)

/-- The tokens that wait are those that waited before the domain was looked for. -/
theorem waits_startsDomain : Waits 2 startsDomain 2 := by
  refine Waits.get_bind fun s hs => waits_next.bind fun _ =>
    (waits_startsTuple.from (by decide)).bind fun b => (waits_nextIs (by decide)).bind fun b' => ?_
  have hback : ∀ found : Bool, Waits 2 (do
      tokens (TokenStream.restore s.stream)
      return found) 2 := fun _ =>
    (waits_tokens (TokenStream.waits_restore hs)).bind fun _ => waits_pure (by decide)
  split
  · exact hback true
  · split
    · exact hback true
    · exact (waits_peek (by decide)).bind fun t => (waits_freshName? t).bind fun name =>
        hback name.isSome

theorem waits_pieceDomain? : Waits 2 (pieceDomain? depth params) 2 := by
  have htuple : Waits 2 (do return some (← tuple depth .output params)) 2 :=
    (waits_tuple depth params).bind fun shaped => waits_pure (by decide)
  refine (waits_peek (by decide)).bind fun t => ?_
  split
  · exact htuple
  · split
    · exact waits_stop_bind
    · refine waits_startsDomain.bind fun b => ?_
      split
      · exact htuple
      · exact waits_pure (by decide)

theorem waits_pieceValue : Waits 2 (pieceValue depth set) 2 :=
  waits_expectMark.bind fun _ => (((waiting depth).choice _).from (by decide)).bind fun f =>
    waits_expectMark.bind fun _ => ((waits_optionalCondition depth set).from (by decide)).bind
      fun r => waits_check

theorem waits_locatedPiece : Waits 2 (locatedPiece depth params) 2 := by
  refine (waits_parameterNames params).bind fun names =>
    (waits_pieceDomain? depth params).bind fun domain => ?_
  split
  · exact waits_expectMark.bind fun _ => ((waits_pieceValue depth _).from (by decide)).bind
      fun f => waits_pure (by decide)
  · exact (waits_pieceValue depth params).bind fun f => waits_pure (by decide)

theorem waits_piece : Waits 2 (piece depth params) 2 :=
  (waits_inScope (waits_locatedPiece depth params)).bind fun _ => waits_check

theorem waits_morePieces (whole : Piecewise) : Waits 2 (morePieces params depth whole) 2 := by
  induction depth generalizing whole with
  | zero => exact waits_exhausted
  | succ depth ih =>
    rw [morePieces]
    refine waits_enter.bind fun _ => waits_eatIf_bind (by decide)
      ((waits_nextIs (by decide)).bind fun b => ?_) (waits_pure (by decide))
    split
    · exact waits_pure (by decide)
    · refine (waits_peek (by decide)).bind fun start =>
        ((waits_piece depth params).from (by decide)).bind fun part => ?_
      split
      · exact waits_stop_bind
      · exact waits_check.bind fun f => ih f

theorem waits_piecewise : Waits 2 (piecewise depth) 2 :=
  (waits_parameters depth).bind fun params => waits_expectMark.bind fun _ =>
    ((waits_piece depth params).from (by decide)).bind fun f =>
      (waits_morePieces depth params f).bind fun _ => waits_expectMark.bind fun _ =>
        (waits_expectEnd.from (by decide)).bind fun _ => waits_pure (by decide)

end Pieces

end Quasiaffine.Grammar

namespace Quasiaffine.Reader

open TokenStream (maxWaiting)

theorem mostWaiting_run_le {α : Type} {source : String} {production : Nat → Reading α} {k : Nat}
    (h : ∀ depth, Reading.Waits 2 (production depth) k) :
    (run source production).final.stream.mostWaiting ≤ maxWaiting := by
  have hends := h (depthFor source) (initial source) ⟨Nat.zero_le _, Nat.zero_le _⟩
  rw [run]
  cases hrun : production (depthFor source) (initial source) with
  | mk result final =>
    rw [hrun] at hends
    cases result with
    | error e => exact hends
    | ok a => exact hends.most

/-- Whatever text is read, never more than two tokens wait. A token that has just been taken finds
room if it is put back. -/
theorem mostWaiting_le (config : Config) (source : String) :
    (object config source).final.stream.mostWaiting ≤ maxWaiting ∧
      (piecewise source).final.stream.mostWaiting ≤ maxWaiting ∧
      ∀ s t s', s.waiting.length ≤ maxWaiting → TokenStream.next s = (.ok t, s') →
        s'.waiting.length < maxWaiting := by
  refine ⟨mostWaiting_run_le fun depth => Grammar.waits_object depth config,
    mostWaiting_run_le Grammar.waits_piecewise, fun s t s' hs hnext => ?_⟩
  have hlen := TokenStream.length_waiting_of_next hnext
  have hmax : maxWaiting = 2 := rfl
  omega

/-- Both waiting places are used for an operand in parentheses, also where nothing can be read. -/
theorem mostWaiting_le_parenthesis :
    (object default "\x7b [i] : (i) < 2 \x7d").final.stream.mostWaiting = maxWaiting ∧
      (object default "\x7b [i] : ((i) +").final.stream.mostWaiting ≤ maxWaiting ∧
      (piecewise "\x7b [i] -> [i < 2 ? 1 : 2] \x7d").final.stream.mostWaiting ≤ maxWaiting :=
  ⟨by decide +kernel, (mostWaiting_le default "\x7b [i] : ((i) +").1,
    (mostWaiting_le default "\x7b [i] -> [i < 2 ? 1 : 2] \x7d").2.1⟩

end Quasiaffine.Reader
