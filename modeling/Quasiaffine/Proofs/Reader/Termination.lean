import Quasiaffine.Proofs.Reader.FormulaParts
import Quasiaffine.Proofs.Reader.Progress
import Quasiaffine.Proofs.Reader.TupleParts
import Quasiaffine.Reader.Basic

/-!
Reading comes to an end. Each production is given some credit and leaves some behind; what it takes
off the text pays for the calls that it makes. A text therefore bounds the number of calls, and it
bounds how deeply they nest.
-/

set_option autoImplicit false

namespace Quasiaffine

namespace Grammar

open Reading

section Literals

variable {depth : Nat}

theorem affords_literal {c : Nat} : Affords depth c literal fun _ => 32 + c := by
  refine .next_bind fun t => ?_
  split
  · rename_i v hl
    exact affords_pure (by rw [hl]; exact Nat.le_refl _)
  · exact affords_stop _

theorem affords_positiveLiteral {c : Nat} : Affords depth c positiveLiteral fun _ => 32 + c := by
  refine .next_bind fun t => ?_
  split
  · rename_i v hl
    split
    · exact affords_pure (by rw [hl]; exact Nat.le_refl _)
    · exact affords_stop _
  · exact affords_stop _

theorem affords_coefficientFollows {c : Nat} :
    Affords depth c coefficientFollows fun _ => c :=
  .eatMark_bind (affords_pure (by omega)) (affords_nextIs fun _ => Nat.le_refl c)

theorem affords_literalProduct (depth : Nat) (product : Int) :
    Affords depth 1 (literalProduct depth product) fun _ => 0 := by
  induction depth generalizing product with
  | zero => exact affords_zero (by omega)
  | succ depth ih =>
    rw [literalProduct]
    refine .enter_bind (affords_literal.bind fun n => .eatMark_bind ?_ ?_)
    · exact (ih _).mono (by omega) fun _ => Nat.zero_le _
    · exact affords_pure (Nat.zero_le _)

end Literals

/-- The credit that each production needs, and what is left of it. A production that has read
something has credit left for those that go on behind it. -/
structure Affordable (depth : Nat) : Prop where
  expression (space : Space) : Affords depth 5 (expression depth space) fun _ => 16
  terms (space : Space) (negated : Bool) (sum : Piecewise) :
    Affords depth 4 (terms depth space negated sum) fun _ => 16
  moreTerms (space : Space) (sum : Piecewise) :
    Affords depth 5 (moreTerms depth space sum) fun _ => 4
  factor (space : Space) : Affords depth 2 (factor depth space) fun _ => 16
  operand (space : Space) : Affords depth 1 (operand depth space) fun _ => 16
  quotient (space : Space) : Affords depth 1 (quotient depth space) fun _ => 16
  arguments (space : Space) : Affords depth 1 (arguments depth space) fun _ => 16
  expressions (space : Space) : Affords depth 6 (expressions depth space) fun _ => 16
  choice (space : Space) : Affords depth 17 (choice depth space) fun _ => 16
  condition (set : Relation) : Affords depth 11 (condition depth set) fun _ => 10
  moreAlternatives (set result : Relation) :
    Affords depth 1 (moreAlternatives depth set result) fun _ => 0
  conjunction (set : Relation) : Affords depth 10 (conjunction depth set) fun _ => 16
  moreConjuncts (set result : Relation) :
    Affords depth 1 (moreConjuncts depth set result) fun _ => 0
  conjunct (set : Relation) : Affords depth 8 (conjunct depth set) fun _ => 16
  comparisons (set : Relation) : Affords depth 7 (comparisons depth set) fun _ => 16
  moreComparisons (space : Space) (left : List Piecewise) (op : Comparison) (set : Relation) :
    Affords depth 7 (moreComparisons depth space left op set) fun _ => 16
  quantifier (set : Relation) : Affords depth 2 (quantifier depth set) fun _ => 16
  quantified (set : Relation) : Affords depth 1 (quantified depth set) fun _ => 0
  parenthesis (set : Relation) : Affords depth 1 (parenthesis depth set) fun _ => 8
  parenthesisedCondition (set : Relation) (opening : Span) :
    Affords depth 12 (parenthesisedCondition depth set opening) fun _ => 26
  definition (set : Relation) (pos : Nat) :
    Affords depth 18 (definition depth set pos) fun _ => 16

namespace Affordable

variable {depth : Nat} (ih : Affordable depth)

include ih

section Expressions

variable (space : Space)

theorem expression_succ : Affords (depth + 1) 5 (Grammar.expression (depth + 1) space)
    fun _ => 16 := by
  rw [Grammar.expression]
  exact .enter_bind (ih.terms space _ _)

theorem terms_succ (negated : Bool) (sum : Piecewise) :
    Affords (depth + 1) 4 (Grammar.terms (depth + 1) space negated sum) fun _ => 16 := by
  have hmore : ∀ r : Except Error Piecewise, Affords depth 17
      (check r >>= Grammar.moreTerms depth space) fun _ => 16 := fun r =>
    .check_bind fun sum => (ih.moreTerms space sum).mono (by omega) fun _ => by omega
  rw [Grammar.terms]
  refine .enter_bind (.next_bind fun t => ?_)
  split
  · rename_i hl
    have hw : t.lexeme.weight = 32 := by rw [hl]; rfl
    exact (ih.terms space _ sum).mono (by omega) fun _ => by omega
  · rename_i v hl
    have hw : t.lexeme.weight = 32 := by rw [hl]; rfl
    refine .again_bind (affords_coefficientFollows.bind fun b => ?_)
    split
    · exact (ih.factor space).then (by omega) fun f =>
        (hmore _).mono (by omega) fun _ => by omega
    · rw [hw]
      exact .push_bind (t := .made (.number _) _) ((ih.factor space).then (by omega) fun f =>
        (hmore _).mono (by omega) fun _ => by omega)
  · exact affords_stop _
  · split
    · exact .push_bind ((ih.factor space).then (by omega) fun f =>
        (hmore _).mono (by omega) fun _ => by omega)
    · exact affords_stop _

theorem moreTerms_succ (sum : Piecewise) :
    Affords (depth + 1) 5 (Grammar.moreTerms (depth + 1) space sum) fun _ => 4 := by
  -- A negative literal is put back, so the sum that goes on with it is paid for in
  -- advance.
  rw [Grammar.moreTerms]
  refine .enter_bind (.next_bind fun t => ?_)
  split
  · exact (ih.terms space _ sum).mono (by omega) fun _ => by omega
  · exact (ih.terms space _ sum).mono (by omega) fun _ => by omega
  · refine .push_bind ?_
    split
    · exact (ih.terms space _ sum).mono (by omega) fun _ => by omega
    · exact affords_pure (by omega)
  · exact .push_bind (affords_pure (by omega))

omit ih in
theorem affords_divided (f : Piecewise) : Affords depth 16 (divided f) fun _ => 16 :=
  .eatMark_bind (affords_positiveLiteral.bind fun d => affords_check fun _ => by omega)
    (affords_pure (Nat.le_refl _))

theorem factor_succ : Affords (depth + 1) 2 (Grammar.factor (depth + 1) space) fun _ => 16 := by
  rw [Grammar.factor_succ]
  refine .enter_bind ((ih.operand space).bind fun f => .eatMark_bind ?_ ?_)
  · exact affords_positiveLiteral.bind fun m => affords_check fun _ => by omega
  · refine .eatKeyword_bind ?_ (.eatMark_bind ?_ (affords_divided f))
    · exact affords_positiveLiteral.bind fun m => affords_check fun _ => by omega
    · exact (affords_literalProduct depth 1).then (by omega) fun n =>
        (affords_divided _).mono (by omega) fun _ => by omega

theorem operand_succ : Affords (depth + 1) 1 (Grammar.operand (depth + 1) space) fun _ => 16 := by
  rw [Grammar.operand]
  refine .enter_bind (.next_bind fun t => ?_)
  split <;> rename_i hl
  · have hw : t.lexeme.weight = 16 := by rw [hl]; rfl
    exact affords_pure (by omega)
  · have hw : t.lexeme.weight = 32 := by rw [hl]; rfl
    refine .position?_bind fun pos => ?_
    split
    · exact affords_check fun _ => by omega
    · exact affords_stop _
  · have hw : t.lexeme.weight = 32 := by rw [hl]; rfl
    refine .again_bind (.eatMark_bind ?_ (affords_pure (by omega)))
    exact (ih.factor space).then (by omega) fun f => affords_pure (by omega)
  · have hw : t.lexeme.weight = 32 := by rw [hl]; rfl
    exact (ih.expression space).then (by omega) fun f => .expectMark_bind (affords_pure (by omega))
  · have hw : t.lexeme.weight = 32 := by rw [hl]; rfl
    exact .again_bind ((ih.expression space).then (by omega) fun f =>
      .expectMark_bind (affords_check fun _ => by omega))
  · have hw : t.lexeme.weight = 32 := by rw [hl]; rfl
    exact .again_bind ((ih.quotient space).then (by omega) fun f => affords_check fun _ => by omega)
  · have hw : t.lexeme.weight = 32 := by rw [hl]; rfl
    exact .again_bind ((ih.quotient space).then (by omega) fun f => affords_check fun _ => by omega)
  · have hw : t.lexeme.weight = 32 := by rw [hl]; rfl
    exact .again_bind ((ih.arguments space).then (by omega) fun f => affords_check fun _ => by omega)
  · have hw : t.lexeme.weight = 32 := by rw [hl]; rfl
    exact .again_bind ((ih.arguments space).then (by omega) fun f => affords_check fun _ => by omega)
  · exact affords_stop _

theorem quotient_succ : Affords (depth + 1) 1 (Grammar.quotient (depth + 1) space)
    fun _ => 16 := by
  rw [Grammar.quotient]
  exact .enter_bind (.expectMark_bind ((ih.expression space).then (by omega) fun f =>
    .expectMark_bind (affords_positiveLiteral.bind fun d =>
      .expectMark_bind (affords_check fun _ => by omega))))

theorem arguments_succ : Affords (depth + 1) 1 (Grammar.arguments (depth + 1) space)
    fun _ => 16 := by
  rw [Grammar.arguments]
  exact .enter_bind (.expectMark_bind ((ih.expressions space).then (by omega) fun fs =>
    .expectMark_bind (affords_pure (by omega))))

theorem expressions_succ : Affords (depth + 1) 6 (Grammar.expressions (depth + 1) space)
    fun _ => 16 := by
  rw [Grammar.expressions]
  refine .enter_bind ((ih.expression space).bind fun f => .eatMark_bind ?_ ?_)
  · exact (ih.expressions space).then (by omega) fun fs => affords_pure (by omega)
  · exact affords_pure (Nat.le_refl _)

theorem choice_succ : Affords (depth + 1) 17 (Grammar.choice (depth + 1) space) fun _ => 16 := by
  -- The token that stands for the first operand weighs less than what was read for it.
  rw [Grammar.choice]
  refine .enter_bind (.peek_bind fun first => (ih.expression space).then (by omega) fun f =>
    .peek_bind fun t => ?_)
  split
  · refine .push_bind (t := .made (.expression f) _) (c := 11) ?_
    exact (ih.condition _).bind fun set => .expectMark_bind ((ih.choice space).then (by omega)
      fun g => .expectMark_bind ((ih.choice space).then (by omega) fun h =>
        .warn_bind (affords_check fun _ => by omega)))
  · exact affords_pure (by omega)

end Expressions

section Conditions

variable (set : Relation)

theorem condition_succ : Affords (depth + 1) 11 (Grammar.condition (depth + 1) set)
    fun _ => 10 := by
  rw [Grammar.condition]
  refine .enter_bind (.peek_bind fun t => ?_)
  split
  · exact affords_pure (Nat.le_refl _)
  · exact (ih.conjunction set).bind fun r =>
      (ih.moreAlternatives set r).mono (by omega) fun _ => by omega

theorem moreAlternatives_succ (result : Relation) :
    Affords (depth + 1) 1 (Grammar.moreAlternatives (depth + 1) set result) fun _ => 0 := by
  rw [Grammar.moreAlternatives]
  refine .enter_bind (.eatKeyword_bind ?_ (affords_pure (Nat.le_refl _)))
  exact (ih.conjunction set).then (by omega) fun r => .check_bind fun r =>
    (ih.moreAlternatives set r).mono (by omega) fun _ => by omega

theorem firstConjunct (negated : Bool) :
    Affords depth 9 (firstConjunct depth set negated) fun _ => 16 := by
  have hmore : ∀ r : Relation, Affords depth 17 (Grammar.moreConjuncts depth set r)
      fun _ => 16 := fun r => (ih.moreConjuncts set r).mono (by omega) fun _ => by omega
  refine (ih.conjunct set).then (by omega) fun first => ?_
  split
  · exact .check_bind hmore
  · exact hmore first

theorem conjunction_succ : Affords (depth + 1) 10 (Grammar.conjunction (depth + 1) set)
    fun _ => 16 := by
  rw [Grammar.conjunction_succ]
  exact .enter_bind (.eatKeyword_bind ((ih.firstConjunct set true).mono (by omega) fun _ => by omega)
    (ih.firstConjunct set false))

theorem nextConjunct (result : Relation) (negated : Bool) :
    Affords depth 32 (nextConjunct depth set result negated) fun _ => 0 :=
  (ih.conjunct set).then (by omega) fun other => .check_bind fun r =>
    (ih.moreConjuncts set r).mono (by omega) fun _ => by omega

theorem moreConjuncts_succ (result : Relation) :
    Affords (depth + 1) 1 (Grammar.moreConjuncts (depth + 1) set result) fun _ => 0 := by
  rw [Grammar.moreConjuncts_succ]
  refine .enter_bind (.eatKeyword_bind (.eatKeyword_bind ?_ ?_) (affords_pure (Nat.le_refl _)))
  · exact (ih.nextConjunct set result true).mono (by omega) fun _ => by omega
  · exact ih.nextConjunct set result false

theorem bareConjunct : Affords depth 7 (bareConjunct depth set) fun _ => 16 := by
  refine .next_bind fun t => ?_
  split
  · rename_i hl
    have hw : t.lexeme.weight = 16 := by rw [hl]; rfl
    exact affords_pure (by omega)
  · exact (ih.quantifier set).mono (by omega) fun _ => by omega
  · rename_i hl
    have hw : t.lexeme.weight = 32 := by rw [hl]; rfl
    exact affords_pure (by omega)
  · rename_i hl
    have hw : t.lexeme.weight = 32 := by rw [hl]; rfl
    exact affords_pure (by omega)
  · exact .push_bind (ih.comparisons set)

theorem conjunct_succ : Affords (depth + 1) 8 (Grammar.conjunct (depth + 1) set)
    fun _ => 16 := by
  rw [Grammar.conjunct_succ]
  refine .enter_bind (.nextIs_bind fun b => ?_)
  split
  · exact (ih.parenthesis set).then (by omega) fun _ =>
      (ih.bareConjunct set).mono (by omega) fun _ => by omega
  · exact ih.bareConjunct set

theorem comparisons_succ : Affords (depth + 1) 7 (Grammar.comparisons (depth + 1) set)
    fun _ => 16 := by
  rw [Grammar.comparisons]
  refine .enter_bind ((ih.expressions set.space).bind fun left => .next_bind fun t => ?_)
  split
  · exact (ih.moreComparisons set.space left _ set).mono (by omega) fun _ => by omega
  · exact affords_stop _

theorem moreComparisons_succ (space : Space) (left : List Piecewise) (op : Comparison) :
    Affords (depth + 1) 7 (Grammar.moreComparisons (depth + 1) space left op set)
      fun _ => 16 := by
  rw [Grammar.moreComparisons]
  refine .enter_bind ((ih.expressions space).bind fun right => .check_bind fun holds =>
    .check_bind fun both => .next_bind fun t => ?_)
  split
  · exact (ih.moreComparisons space right _ both).mono (by omega) fun _ => by omega
  · exact .push_bind (affords_pure (Nat.le_refl _))

theorem quantifierBody (mark : Nat) (inParens : Bool) :
    Affords depth 1 (quantifierBody depth set mark inParens) fun _ => 16 := by
  refine (ih.quantified set).bind fun r => .expectMark_bind
    ((ih.condition r).then (by omega) fun r => .check_bind fun r => .check_bind fun recovered =>
      .scope_bind (·.rollback mark) ?_)
  split
  · exact .expectMark_bind (affords_pure (by omega))
  · exact affords_pure (by omega)

theorem quantifier_succ : Affords (depth + 1) 2 (Grammar.quantifier (depth + 1) set)
    fun _ => 16 := by
  rw [Grammar.quantifier_succ]
  refine .enter_bind (.get_bind fun s => .eatMark_bind ?_ (ih.quantifierBody set _ false))
  exact (ih.quantifierBody set _ true).mono (by omega) fun _ => by omega

theorem moreQuantified : Affords depth 0 (moreQuantified depth set) fun _ => 0 :=
  .eatMark_bind ((ih.quantified set).mono (by omega) fun _ => by omega)
    (affords_pure (Nat.le_refl _))

theorem quantified_succ : Affords (depth + 1) 1 (Grammar.quantified (depth + 1) set)
    fun _ => 0 := by
  rw [Grammar.quantified_succ]
  refine .enter_bind (.next_bind fun t => ?_)
  split
  · refine .position?_bind fun pos => ?_
    split
    · exact affords_stop_bind _
    · refine .declare_bind fun pos => .check_bind fun r => .eatMark_bind ?_ ?_
      · exact (ih.definition r pos).then (by omega) fun r =>
          (ih.moreQuantified r).mono (Nat.zero_le _) fun _ => Nat.zero_le _
      · exact (ih.moreQuantified r).mono (Nat.zero_le _) fun _ => Nat.zero_le _
  · exact .push_bind (affords_pure (Nat.le_refl _))

theorem insideParenthesis (opening : Span) :
    Affords depth 32 (insideParenthesis depth set opening) fun _ => 8 := by
  -- The placeholder that is put back weighs less than the parenthesis that was taken.
  refine .peek_bind fun first => ?_
  split
  · exact (ih.parenthesisedCondition set opening).mono (by omega) fun _ => by omega
  · refine (ih.expression set.space).then (by omega) fun f => .eatMark_bind ?_ ?_
    · exact .push_bind (t := .made (.expression f) _) (c := 59) (affords_pure (by omega))
    · exact .push_bind (t := .made (.expression f) _) (c := 27)
        ((ih.parenthesisedCondition set opening).mono (by omega) fun _ => by omega)

theorem parenthesis_succ : Affords (depth + 1) 1 (Grammar.parenthesis (depth + 1) set)
    fun _ => 8 := by
  rw [Grammar.parenthesis_succ]
  refine .enter_bind (.expect_bind fun opening => .nextIs_bind fun b => ?_)
  split
  · exact (ih.parenthesis set).then (by omega) fun _ =>
      (ih.insideParenthesis set opening.span).mono (by omega) fun _ => by omega
  · exact ih.insideParenthesis set opening.span

theorem parenthesisedCondition_succ (opening : Span) :
    Affords (depth + 1) 12 (Grammar.parenthesisedCondition (depth + 1) set opening)
      fun _ => 26 := by
  rw [Grammar.parenthesisedCondition]
  refine .enter_bind ((ih.condition set).bind fun r => .expect_bind fun closing => ?_)
  exact affords_push (t := .made (.condition r) _) (c := 26) (Nat.le_refl _)

theorem definition_succ (pos : Nat) :
    Affords (depth + 1) 18 (Grammar.definition (depth + 1) set pos) fun _ => 16 := by
  rw [Grammar.definition]
  exact .enter_bind ((ih.choice set.space).bind fun value => .check_bind fun name =>
    .check_bind fun equal => affords_check fun _ => Nat.le_refl _)

end Conditions

end Affordable

theorem affordable (depth : Nat) : Affordable depth := by
  induction depth with
  | zero => constructor <;> intros <;> exact affords_zero (by omega)
  | succ depth ih =>
    exact {
      expression := ih.expression_succ
      terms := ih.terms_succ
      moreTerms := ih.moreTerms_succ
      factor := ih.factor_succ
      operand := ih.operand_succ
      quotient := ih.quotient_succ
      arguments := ih.arguments_succ
      expressions := ih.expressions_succ
      choice := ih.choice_succ
      condition := ih.condition_succ
      moreAlternatives := ih.moreAlternatives_succ
      conjunction := ih.conjunction_succ
      moreConjuncts := ih.moreConjuncts_succ
      conjunct := ih.conjunct_succ
      comparisons := ih.comparisons_succ
      moreComparisons := fun space left op set => ih.moreComparisons_succ set space left op
      quantifier := ih.quantifier_succ
      quantified := ih.quantified_succ
      parenthesis := ih.parenthesis_succ
      parenthesisedCondition := ih.parenthesisedCondition_succ
      definition := ih.definition_succ }

section Tuples

variable {depth c : Nat}

theorem startsTuple_eq : ∃ action, startsTuple = tokens action ∧
    ∀ c, TokenStream.Saves c action fun _ => c := by
  refine ⟨_, rfl, fun c => .lookingAhead (TokenStream.saves_next.bind fun t => ?_)⟩
  split
  · exact TokenStream.saves_pure (Nat.zero_le _)
  · split
    · exact TokenStream.saves_nextIs.mono fun _ => Nat.zero_le _
    · exact TokenStream.saves_pure (Nat.zero_le _)

theorem affords_startsTuple : Affords depth c startsTuple fun _ => c := by
  obtain ⟨action, heq, h⟩ := startsTuple_eq
  rw [heq]
  exact affords_tokens (h c)

/-- A search that may go on for longer than the stream is heavy comes to an end. -/
theorem ends_arrowBehind (depth nesting n : Nat) :
    Ends (fun s => s.weight < depth ∧ s.weight ≤ n) (arrowBehind depth nesting)
      (fun found _ => found.isSome) fun _ s => s.weight ≤ n := by
  induction depth generalizing nesting with
  | zero => exact fun s hs => absurd hs.1 (Nat.not_lt_zero _)
  | succ depth ih =>
    have hread : Ends (fun s : TokenStream => s.weight < depth + 1 ∧ s.weight ≤ n) TokenStream.next
        (fun t s => s.weight + t.lexeme.weight < depth + 1 ∧ s.weight ≤ n)
        fun _ s => s.weight ≤ n := by
      intro s hs
      have h := TokenStream.next_spec s
      cases hr : TokenStream.next s with
      | mk result s' =>
        rw [hr] at h
        cases result with
        | error _ => exact Nat.le_trans h hs.2
        | ok t => exact ⟨Nat.lt_of_le_of_lt h hs.1, Nat.le_trans (by omega) hs.2⟩
    have hmore : ∀ (t : Token) (nesting : Nat), 0 < t.lexeme.weight →
        Ends (fun s => s.weight + t.lexeme.weight < depth + 1 ∧ s.weight ≤ n)
          (arrowBehind depth nesting) (fun found _ => found.isSome) fun _ s => s.weight ≤ n :=
      fun t nesting ht => (ih nesting).mono (fun s hs => ⟨by omega, hs.2⟩) (fun _ _ h => h)
        fun _ _ h => h
    rw [arrowBehind]
    refine hread.bind fun t => ?_
    split
    · rename_i hl
      exact hmore t _ (by rw [hl]; decide)
    · rename_i hl
      split
      · have hfollows : Ends (fun s => s.weight + t.lexeme.weight < depth + 1 ∧ s.weight ≤ n)
            (TokenStream.nextIs (.mark .arrow)) (fun _ _ => True) fun _ s => s.weight ≤ n :=
          (TokenStream.saves_nextIs (c := 0) n).mono (fun s hs => hs.2) (fun _ _ _ => trivial)
            fun _ _ h => h
        exact hfollows.bind fun _ => ends_pure fun _ _ => rfl
      · exact hmore t _ (by rw [hl]; decide)
    · exact ends_pure fun _ _ => rfl
    · have hpos : 0 < t.lexeme.weight := by
        cases hl : t.lexeme <;> simp_all [Lexeme.weight]
      exact hmore t _ hpos

theorem affords_startsRelation (hc : 0 < c) :
    Affords depth c (startsRelation depth) fun _ => c := by
  refine affords_startsTuple.bind fun b => ?_
  split
  · intro n w hw
    have hlook : Ends (Within n w c) (tokens (TokenStream.lookingAhead (arrowBehind depth 0)))
        (fun found s => found.isSome ∧ Within n w c s)
        fun e s => e ≠ .exhausted ∧ s.calls + s.stream.weight ≤ n := by
      refine ends_tokens fun s hs => ?_
      have hcalls := hs.calls
      have hnesting := hs.nesting
      have harrow : Ends (· = s.stream) (arrowBehind depth 0) (fun found _ => found.isSome)
          fun _ t => t.weight ≤ s.stream.weight :=
        (ends_arrowBehind depth 0 s.stream.weight).mono
          (by rintro _ rfl; exact ⟨by omega, Nat.le_refl _⟩) (fun _ _ h => h) fun _ _ h => h
      refine (TokenStream.ends_lookingAhead harrow).mono (fun _ h => h) (fun found t ht => ?_)
        fun _ t ht => ⟨nofun, by dsimp only; omega⟩
      exact ⟨ht.1, by dsimp only; omega, by dsimp only; omega⟩
    refine hlook.bind fun found => ?_
    split
    · exact ends_pure fun s hs => hs.2
    · exact fun s hs => absurd hs.1 (by simp)
  · exact affords_pure (Nat.le_refl c)

theorem affords_freshName? {t : Token} {k : Option String → Reading Items} {f : Items → Nat}
    (hsome : ∀ name, t.lexeme = .identifier name → Affords depth c (k (some name)) f)
    (hnone : Affords depth c (k none) f) : Affords depth c (freshName? t >>= k) f := by
  rw [freshName?]
  split
  · rename_i name hl
    rw [bind_assoc]
    refine .position?_bind fun pos => ?_
    rw [pure_bind]
    split
    · exact hnone
    · exact hsome name hl
  · rw [pure_bind]
    exact hnone

theorem affords_item (depth : Nat) (kind : DimKind) (read : Items) (t : Token) :
    Affords depth (t.lexeme.weight + 18) (item depth kind read t) fun _ => 16 := by
  rw [item]
  refine affords_freshName? (fun name hl => ?_) ?_
  · have hw : t.lexeme.weight = 32 := by rw [hl]; rfl
    refine .declare_bind fun pos => .check_bind fun set => .eatMark_bind ?_ ?_
    · exact ((affordable depth).definition set pos).then (by omega) fun set =>
        affords_pure (by omega)
    · exact affords_pure (by omega)
  · dsimp only
    split
    · split
      · exact affords_stop _
      · exact affords_stop _
    · exact .push_bind (.declare_bind fun pos => .check_bind fun set =>
        ((affordable depth).definition set pos).bind fun set => affords_pure (Nat.le_refl _))

theorem affords_items (depth : Nat) (kind : DimKind) (read : Items) :
    Affords depth 19 (items depth kind read) fun _ => 16 := by
  induction depth generalizing read with
  | zero => exact affords_zero (by omega)
  | succ depth ih =>
    rw [items]
    refine .enter_bind (.next_bind fun t => (affords_item depth kind read t).bind fun read =>
      .next_bind fun behind => ?_)
    split
    · rename_i hb
      have hw := Token.weight_of_kind_mark hb
      exact (ih read).mono (by omega) fun _ => by omega
    · split
      · exact .push_bind (affords_pure (Nat.le_refl _))
      · rename_i hb
        have hw := Token.weight_of_kind_mark (Decidable.of_not_not hb)
        refine .nextIs_bind fun b => ?_
        split
        · exact .next_bind fun _ => (ih read).mono (by omega) fun _ => by omega
        · exact .push_bind (affords_pure (Nat.le_refl _))

section Parts

variable {kind : DimKind} {set : Relation} {name : Label}

theorem affords_closeTuple (shaped : Shaped) :
    Affords depth 16 (closeTuple name shaped) fun _ => 16 :=
  .expectMark_bind (affords_pure (by omega))

theorem affords_insideTuple
    (htuple : ∀ set, Affords depth 1 (tuple depth kind set) fun _ => 16) (wraps : Bool) :
    Affords depth 32 (insideTuple depth kind set name wraps) fun _ => 16 := by
  refine .nextIs_bind fun closes => ?_
  split
  · exact (htuple set).then (by omega) fun domain => .expectMark_bind ((htuple domain.set).then
      (by omega) fun range => (affords_closeTuple _).mono (by omega) fun _ => by omega)
  · split
    · exact (affords_closeTuple _).mono (by omega) fun _ => by omega
    · exact (affords_items depth kind _).then (by omega) fun read =>
        (affords_closeTuple _).mono (by omega) fun _ => by omega

theorem affords_openTuple
    (htuple : ∀ set, Affords depth 1 (tuple depth kind set) fun _ => 16) (opening : Token) :
    Affords depth opening.lexeme.weight (openTuple depth kind set name opening) fun _ => 16 := by
  rw [openTuple]
  by_cases hopening : opening.kind ≠ .mark .leftBracket
  · rw [if_pos hopening]
    exact affords_stop _
  · rw [if_neg hopening, Token.weight_of_kind_mark (Decidable.of_not_not hopening)]
    split
    · exact affords_insideTuple htuple false
    · exact (affords_startsRelation (by omega)).bind fun wraps => affords_insideTuple htuple wraps

end Parts

theorem affords_tuple (depth : Nat) (kind : DimKind) (set : Relation) :
    Affords depth 1 (tuple depth kind set) fun _ => 16 := by
  induction depth generalizing set with
  | zero => exact affords_zero (by omega)
  | succ depth ih =>
    rw [tuple_succ]
    refine .enter_bind (.next_bind fun t => ?_)
    split
    · exact .next_bind fun opening =>
        (affords_openTuple ih opening).mono (by omega) fun _ => by omega
    · exact affords_openTuple ih t

end Tuples

section Bodies

variable {depth : Nat}

theorem affords_optionalCondition (set : Relation) :
    Affords depth 0 (optionalCondition depth set) fun _ => 0 := by
  refine .next_bind fun t => ?_
  split
  · rename_i hkind
    have hw : t.lexeme.weight = 32 := hkind.elim Token.weight_of_kind_mark
      Token.weight_of_kind_mark
    exact ((affordable depth).condition set).mono (by omega) fun _ => Nat.zero_le _
  · exact .push_bind (affords_pure (Nat.le_refl _))

theorem affords_expectEnd {c : Nat} : Affords depth c expectEnd fun _ => c := by
  refine .next_bind fun t => ?_
  split
  · exact affords_stop _
  · exact affords_pure (by omega)

theorem affords_parameters : Affords depth 1 (parameters depth) fun _ => 1 := by
  refine .nextIs_bind fun b => ?_
  split
  · exact (affords_tuple depth .param _).bind fun shaped => .expectMark_bind (affords_pure (by omega))
  · exact affords_pure (Nat.le_refl _)

theorem affords_parameterNames {c : Nat} (params : Relation) :
    Affords depth c (parameterNames params) fun _ => c :=
  .get_bind fun _ => affords_pure (Nat.le_refl c)

theorem affords_located (params : Relation) :
    Affords depth 1 (located depth params) fun _ => 0 := by
  have hcondition : ∀ (set : Relation) (space : Space), Affords depth 0 (do
      return (⟨← optionalCondition depth set, space⟩ : Located)) fun _ => 0 := fun set space =>
    (affords_optionalCondition set).bind fun _ => affords_pure (Nat.le_refl _)
  refine (affords_parameterNames params).bind fun names => .nextIs_bind fun b => ?_
  split
  · exact (hcondition params _).mono (by omega) fun _ => Nat.zero_le _
  · refine (affords_tuple depth .output params).bind fun first => .eatMark_bind ?_ ?_
    · exact (affords_tuple depth .output first.set).then (by omega) fun second =>
        (hcondition second.set _).mono (by omega) fun _ => Nat.zero_le _
    · exact (hcondition first.set _).mono (by omega) fun _ => Nat.zero_le _

theorem affords_body (config : Config) (params : Relation) :
    Affords depth 1 (body config depth params) fun _ => 0 :=
  (affords_located params).inScope.bind fun _ => .check_bind fun _ => affords_pure (Nat.le_refl _)

theorem affords_moreBodies (config : Config) (params : Relation) (depth : Nat) (object : Object) :
    Affords depth 1 (moreBodies config params depth object) fun _ => 0 := by
  induction depth generalizing object with
  | zero => exact affords_zero (by omega)
  | succ depth ih =>
    rw [moreBodies]
    refine .enter_bind (.eatMark_bind (.nextIs_bind fun b => ?_) (affords_pure (Nat.le_refl _)))
    split
    · exact affords_pure (Nat.zero_le _)
    · exact .peek_bind fun start => (affords_body config params).then (by omega) fun r =>
        .check_bind fun object => (ih object).mono (by omega) fun _ => Nat.zero_le _

theorem affords_bodies (config : Config) (params : Relation) :
    Affords depth 2 (bodies config depth params) fun _ => 0 :=
  (affords_body config params).then (by omega) fun first =>
    (affords_moreBodies config params depth _).bind fun object =>
      .expectMark_bind (affords_expectEnd.bind fun _ => affords_pure (Nat.zero_le _))

theorem affords_object (config : Config) (depth : Nat) :
    Affords depth 1 (object config depth) fun _ => 0 := by
  refine affords_parameters.bind fun params => .expectMark_bind (.next_bind fun t => ?_)
  split
  · exact .expectMark_bind ((affords_tuple depth .param params).then (by omega) fun shaped =>
      (affords_bodies config shaped.set).mono (by omega) fun _ => Nat.zero_le _)
  · exact affords_expectEnd.bind fun _ => affords_pure (Nat.zero_le _)
  · exact .push_bind ((affords_bodies config params).mono (by omega) fun _ => Nat.zero_le _)

/-- What was read to tell how a piece starts is put back, and no call was made. -/
theorem affords_startsDomain {c : Nat} : Affords depth c startsDomain fun _ => c := by
  intro n w _
  refine .get_bind fun s hs => ?_
  have hcalls := hs.calls
  let idle (t : ReaderState) : Prop := t.calls = s.calls ∧ t.stream.weight ≤ s.stream.weight
  let failed (e : Stop) (t : ReaderState) : Prop :=
    e ≠ .exhausted ∧ t.calls + t.stream.weight ≤ n
  have htokens : ∀ {α : Type} {action : Streaming α}, TokenStream.Saves 0 action (fun _ => 0) →
      Ends idle (tokens action) (fun _ => idle) failed := fun h =>
    (ends_tokens_calls h).mono (fun _ ht => ht) (fun _ _ ht => ht) fun e t ht =>
      ⟨ht.1, Nat.le_trans ht.2 (by omega)⟩
  have hback : ∀ found : Bool, Ends idle (do
      tokens (TokenStream.restore s.stream)
      return found) (fun _ => Within n w c) failed := by
    rintro found t ⟨ht, -⟩
    exact ⟨ht ▸ hs.calls, hs.nesting⟩
  have hnext : Ends idle next (fun _ => idle) failed :=
    htokens (TokenStream.saves_next.mono fun _ => Nat.zero_le _)
  have hpeek : Ends idle peek (fun _ => idle) failed := by
    rw [peek_eq]
    exact htokens (TokenStream.saves_next.bind fun _ => TokenStream.saves_push.bind fun _ =>
      TokenStream.saves_pure (Nat.le_refl _))
  obtain ⟨action, heq, h⟩ := startsTuple_eq
  rw [heq]
  refine (hnext.mono (by rintro _ ⟨rfl, -⟩; exact ⟨rfl, Nat.le_refl _⟩) (fun _ _ ht => ht)
    fun _ _ ht => ht).bind fun _ => (htokens (h 0)).bind fun b =>
      (htokens TokenStream.saves_nextIs).bind fun b' => ?_
  split
  · exact hback true
  · split
    · exact hback true
    · refine hpeek.bind fun t => ?_
      rw [freshName?]
      split
      · rename_i name _
        exact fun t' ht =>
          hback (if (t'.scope.position? name).isSome then none else some name).isSome t' ht
      · exact hback false

theorem affords_pieceDomain? (params : Relation) :
    Affords depth 1 (pieceDomain? depth params) fun _ => 1 := by
  have htuple : Affords depth 1 (do return some (← tuple depth .output params)) fun _ => 1 :=
    (affords_tuple depth .output params).bind fun _ => affords_pure (by omega)
  refine .peek_bind fun t => ?_
  split
  · exact htuple
  · split
    · exact affords_stop_bind _
    · refine affords_startsDomain.bind fun b => ?_
      split
      · exact htuple
      · exact affords_pure (Nat.le_refl _)

theorem affords_pieceValue (set : Relation) :
    Affords depth 0 (pieceValue depth set) fun _ => 0 :=
  .expectMark_bind (((affordable depth).choice set.space).then (by omega) fun f =>
    .expectMark_bind (((affords_optionalCondition set).mono (Nat.zero_le _) fun _ =>
      Nat.zero_le _).bind fun r => affords_check fun _ => Nat.le_refl _))

theorem affords_piece (params : Relation) : Affords depth 1 (piece depth params) fun _ => 0 := by
  have hlocated : Affords depth 1 (locatedPiece depth params) fun _ => 0 := by
    refine (affords_parameterNames params).bind fun names =>
      (affords_pieceDomain? params).bind fun domain => ?_
    split
    · exact .expectMark_bind ((affords_pieceValue _).then (Nat.zero_le _) fun f =>
        affords_pure (Nat.zero_le _))
    · exact (affords_pieceValue params).then (Nat.zero_le _) fun f =>
        affords_pure (Nat.zero_le _)
  exact hlocated.inScope.bind fun read => affords_check fun _ => Nat.le_refl _

theorem affords_morePieces (params : Relation) (depth : Nat) (whole : Piecewise) :
    Affords depth 1 (morePieces params depth whole) fun _ => 0 := by
  induction depth generalizing whole with
  | zero => exact affords_zero (by omega)
  | succ depth ih =>
    rw [morePieces]
    refine .enter_bind (.eatMark_bind (.nextIs_bind fun b => ?_) (affords_pure (Nat.le_refl _)))
    split
    · exact affords_pure (Nat.zero_le _)
    · refine .peek_bind fun start => (affords_piece params).then (by omega) fun part => ?_
      split
      · exact affords_stop_bind _
      · exact .check_bind fun sum => (ih sum).mono (by omega) fun _ => Nat.zero_le _

theorem affords_piecewise (depth : Nat) : Affords depth 1 (piecewise depth) fun _ => 0 :=
  affords_parameters.bind fun params => .expectMark_bind ((affords_piece params).then (by omega)
    fun first => (affords_morePieces params depth first).then (by omega) fun whole =>
      .expectMark_bind (affords_expectEnd.bind fun _ => affords_pure (Nat.zero_le _)))

end Bodies

/-- What every production and every loop takes off the stream pays for the calls that it makes. -/
structure MakesProgress (config : Config) (depth : Nat) : Prop extends Affordable depth where
  literalProduct (product : Int) : Affords depth 1 (literalProduct depth product) fun _ => 0
  arrowBehind (nesting : Nat) : Ends (fun s => s.weight < depth) (arrowBehind depth nesting)
    (fun found _ => found.isSome) fun _ _ => True
  items (kind : DimKind) (read : Items) : Affords depth 19 (items depth kind read) fun _ => 16
  tuple (kind : DimKind) (set : Relation) : Affords depth 1 (tuple depth kind set) fun _ => 16
  moreBodies (params : Relation) (object : Object) :
    Affords depth 1 (moreBodies config params depth object) fun _ => 0
  morePieces (params : Relation) (whole : Piecewise) :
    Affords depth 1 (morePieces params depth whole) fun _ => 0

theorem makesProgress (config : Config) (depth : Nat) : MakesProgress config depth where
  toAffordable := affordable depth
  literalProduct := affords_literalProduct depth
  arrowBehind nesting := by
    intro s hs
    have h := ends_arrowBehind depth nesting s.weight s ⟨hs, Nat.le_refl _⟩
    cases hr : Grammar.arrowBehind depth nesting s with
    | mk result t =>
      rw [hr] at h
      cases result with
      | error _ => trivial
      | ok found => exact h
  items := affords_items depth
  tuple := affords_tuple depth
  moreBodies params := affords_moreBodies config params depth
  morePieces params := affords_morePieces params depth

end Grammar

namespace Reader

def EndsWithin {α : Type} (n : Nat) (outcome : Except Stop α × ReaderState) : Prop :=
  outcome.1 ≠ .error .exhausted ∧ outcome.2.calls ≤ n

theorem endsWithin_of_affords {α : Type} {depth : Nat} {m : Reading α} {source : String}
    (h : Reading.Affords depth 1 m fun _ => 0) (hd : 32 * source.length + 1 ≤ depth) :
    EndsWithin (32 * source.length + 1) (m (initial source)) := by
  have hweight : (initial source).stream.weight = 32 * source.length :=
    TokenStream.weight_ofText source
  have h := h (32 * source.length + 1) depth (Nat.le_refl _) (initial source)
    ⟨by rw [hweight]; simp [initial], by rw [hweight]; exact hd⟩
  cases hr : m (initial source) with
  | mk result t =>
    rw [hr] at h
    cases result with
    | error e => exact ⟨fun he => h.1 (Except.error.inj he), Nat.le_of_add_right_le h.2⟩
    | ok a => exact ⟨nofun, Nat.le_of_add_right_le h.calls⟩

/-- Reading reaches a result on every text, and the length of the text bounds the number of calls.
Each production makes progress; a placeholder weighs less than a token of the text. However deep
calls may nest beyond that bound, none is stopped for it. -/
theorem reading_ends (config : Config) (source : String) :
    (∀ depth, Grammar.MakesProgress config depth) ∧
    (∀ placeholder token : Lexeme, placeholder.isPlaceholder = true → token.isPlaceholder = false →
      token = .endOfInput ∨ placeholder.weight < token.weight) ∧
    (∀ spare, EndsWithin (32 * source.length + 1)
        (Grammar.object config (32 * source.length + 1 + spare) (initial source)) ∧
      EndsWithin (32 * source.length + 1)
        (Grammar.piecewise (32 * source.length + 1 + spare) (initial source))) ∧
    ((object config source).result ≠ .error .exhausted ∧
      (object config source).final.calls ≤ 32 * source.length + 1) ∧
    (piecewise source).result ≠ .error .exhausted ∧
      (piecewise source).final.calls ≤ 32 * source.length + 1 := by
  have hdepth : 32 * source.length + 1 ≤ depthFor source := by
    rw [depthFor]
    omega
  refine ⟨Grammar.makesProgress config, fun placeholder token hp ht => ?_, fun spare => ⟨?_, ?_⟩,
    endsWithin_of_affords (Grammar.affords_object config _) hdepth,
    endsWithin_of_affords (Grammar.affords_piecewise _) hdepth⟩
  · cases placeholder <;> cases token <;> simp [Lexeme.isPlaceholder, Lexeme.weight] at *
  · exact endsWithin_of_affords (Grammar.affords_object config _) (Nat.le_add_right _ _)
  · exact endsWithin_of_affords (Grammar.affords_piecewise _) (Nat.le_add_right _ _)

end Reader

end Quasiaffine
