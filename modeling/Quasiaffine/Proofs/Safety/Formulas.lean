import Quasiaffine.Proofs.Reader.FormulaParts
import Quasiaffine.Proofs.Safety.Steps

set_option autoImplicit false

namespace Quasiaffine.Grammar

open Reading

variable {F : Frame} {depth : Nat} {set : Relation} {sum : Piecewise}

section Literals

theorem safe_literal {front : Front} : Safe F front literal (Returns F fun _ => True) := by
  refine .next_bind fun t _ => ?_
  split
  · exact safe_returns trivial
  · exact safe_stop trivial

theorem safe_positiveLiteral {front : Front} : Safe F front positiveLiteral (Returns F (0 < ·)) := by
  refine .next_bind fun t _ => ?_
  split
  · split
    · exact safe_returns ‹_›
    · exact safe_stop trivial
  · exact safe_stop trivial

theorem safe_coefficientFollows : Safe F .plain coefficientFollows (Returns F fun _ => True) := by
  refine .eatIf_bind (safe_returns trivial) (safe_nextIs.mono ?_)
  rintro _ G _ ⟨rfl, rfl⟩
  exact ⟨rfl, rfl, trivial⟩

theorem safe_literalProduct (depth : Nat) (product : Int) :
    Safe F .plain (literalProduct depth product) (Returns F fun _ => True) := by
  induction depth generalizing product with
  | zero => exact safe_exhausted
  | succ depth ih =>
    exact .enter_bind (safe_literal.then fun v _ => .eatIf_bind (ih _) (safe_returns trivial))

end Literals

structure Steady (depth : Nat) : Prop where
  expression {F : Frame} : Safe F .any (expression depth F.space) (Returns F (Piecewise.LiesOver F))
  terms {F : Frame} (negated : Bool) {sum : Piecewise} (hsum : sum.LiesOver F) :
    Safe F .any (terms depth F.space negated sum) (Returns F (Piecewise.LiesOver F))
  moreTerms {F : Frame} {sum : Piecewise} (hsum : sum.LiesOver F) :
    Safe F .plain (moreTerms depth F.space sum) (Returns F (Piecewise.LiesOver F))
  factor {F : Frame} : Safe F .any (factor depth F.space) (Returns F (Piecewise.LiesOver F))
  operand {F : Frame} : Safe F .any (operand depth F.space) (Returns F (Piecewise.LiesOver F))
  quotient {F : Frame} : Safe F .plain (quotient depth F.space) (Returns F (Piecewise.LiesOver F))
  arguments {F : Frame} : Safe F .plain (arguments depth F.space)
    (Returns F fun fs => fs ≠ [] ∧ ∀ f ∈ fs, f.LiesOver F)
  expressions {F : Frame} : Safe F .any (expressions depth F.space)
    (Returns F fun fs => fs ≠ [] ∧ ∀ f ∈ fs, f.LiesOver F)
  choice {F : Frame} : Safe F .any (choice depth F.space) (Returns F (Piecewise.LiesOver F))
  condition {F : Frame} {set : Relation} (hset : set.LiesOver F) :
    Safe F .any (condition depth set) (Returns F (Relation.LiesOver F))
  moreAlternatives {F : Frame} {set result : Relation} (hset : set.LiesOver F)
    (hr : result.LiesOver F) :
    Safe F .plain (moreAlternatives depth set result) (Returns F (Relation.LiesOver F))
  conjunction {F : Frame} {set : Relation} (hset : set.LiesOver F) :
    Safe F .any (conjunction depth set) (Returns F (Relation.LiesOver F))
  moreConjuncts {F : Frame} {set result : Relation} (hset : set.LiesOver F)
    (hr : result.LiesOver F) :
    Safe F .plain (moreConjuncts depth set result) (Returns F (Relation.LiesOver F))
  conjunct {F : Frame} {set : Relation} (hset : set.LiesOver F) :
    Safe F .any (conjunct depth set) (Returns F (Relation.LiesOver F))
  comparisons {F : Frame} {set : Relation} (hset : set.LiesOver F) :
    Safe F .any (comparisons depth set) (Returns F (Relation.LiesOver F))
  moreComparisons {F : Frame} {left : List Piecewise} (hne : left ≠ [])
    (hleft : ∀ f ∈ left, f.LiesOver F) (op : Comparison) {set : Relation} (hset : set.LiesOver F) :
    Safe F .plain (moreComparisons depth F.space left op set) (Returns F (Relation.LiesOver F))
  quantifier {F : Frame} {set : Relation} (hset : set.LiesOver F) :
    Safe F .plain (quantifier depth set) (Returns F (Relation.LiesOver F))
  quantified {F : Frame} {set : Relation} (hset : set.LiesOver F) :
    Safe F .plain (quantified depth set) fun r G front =>
      F.Extends G ∧ front = .plain ∧ r.LiesOver G
  parenthesis {F : Frame} {set : Relation} (hset : set.LiesOver F) :
    Safe F .any (parenthesis depth set) fun _ G front => G = F ∧ front = .any
  parenthesisedCondition {F : Frame} {set : Relation} (hset : set.LiesOver F) (opening : Span) :
    Safe F .any (parenthesisedCondition depth set opening) fun _ G front => G = F ∧ front = .any
  definition {F : Frame} {set : Relation} (hset : set.LiesOver F) {pos : Nat} (hpos : pos < F.size) :
    Safe F .any (definition depth set pos) (Returns F (Relation.LiesOver F))

namespace Steady

section Expressions

variable (ih : Steady depth)
include ih

theorem expression_succ :
    Safe F .any (Grammar.expression (depth + 1) F.space) (Returns F (Piecewise.LiesOver F)) := by
  rw [Grammar.expression]
  exact .enter_bind (ih.terms false (Piecewise.liesOver_const F 0))

theorem addTerm {front : Front} {m : Reading Piecewise} (op : Piecewise → Except Error Piecewise)
    (hm : Safe F front m (Returns F (Piecewise.LiesOver F)))
    (hop : ∀ f, f.LiesOver F → Sure (Piecewise.LiesOver F) (op f)) :
    Safe F front (m >>= fun f => check (op f) >>= Grammar.moreTerms depth F.space)
      (Returns F (Piecewise.LiesOver F)) :=
  hm.then fun f hf => .check_bind (hop f hf) fun _ hg => ih.moreTerms hg

theorem terms_succ (negated : Bool) (hsum : sum.LiesOver F) :
    Safe F .any (Grammar.terms (depth + 1) F.space negated sum)
      (Returns F (Piecewise.LiesOver F)) := by
  rw [Grammar.terms]
  refine .enter_bind (.next_bind fun t ht => ?_)
  split
  · exact (ih.terms _ hsum).of_any
  · rename_i v _
    refine .again_bind .any ht (safe_coefficientFollows.then fun follows _ => ?_)
    split
    · exact ih.addTerm (fun f => sum.add (f.scale (if negated then -v else v)))
        ih.factor.of_any fun f hf => hsum.sure_add (hf.scale _)
    · exact .push_bind .any trivial (ih.addTerm sum.add ih.factor fun f hf => hsum.sure_add hf)
  · exact safe_stop trivial
  · split
    · refine .push_bind .any ht (ih.addTerm (fun f => if negated then sum.sub f else sum.add f)
        ih.factor fun f hf => ?_)
      cases negated with
      | true => exact hsum.sure_sub hf
      | false => exact hsum.sure_add hf
    · exact safe_stop trivial

theorem moreTerms_succ (hsum : sum.LiesOver F) :
    Safe F .plain (Grammar.moreTerms (depth + 1) F.space sum)
      (Returns F (Piecewise.LiesOver F)) := by
  rw [Grammar.moreTerms]
  refine .enter_bind (.next_bind fun t ht => ?_)
  split
  · exact (ih.terms _ hsum).of_any
  · exact (ih.terms _ hsum).of_any
  · refine .push_bind .plain ht ?_
    split
    · exact (ih.terms _ hsum).of_any
    · exact safe_returns hsum
  · exact .push_bind .plain ht (safe_returns hsum)

omit ih in
theorem divided {f : Piecewise} (hf : f.LiesOver F) :
    Safe F .plain (Grammar.divided f) (Returns F (Piecewise.LiesOver F)) :=
  .eatIf_bind (safe_positiveLiteral.then fun _ hm => safe_check (hf.sure_scaleDown hm))
    (safe_returns hf)

theorem factor_succ :
    Safe F .any (Grammar.factor (depth + 1) F.space) (Returns F (Piecewise.LiesOver F)) := by
  rw [Grammar.factor_succ]
  refine .enter_bind (ih.operand.then fun f hf => ?_)
  have hmod : Safe F .plain (do check (f.mod (← positiveLiteral)))
      (Returns F (Piecewise.LiesOver F)) :=
    safe_positiveLiteral.then fun _ hm => safe_check (hf.sure_mod hm)
  exact .eatIf_bind hmod (.eatIf_bind hmod (.eatIf_bind
    ((safe_literalProduct depth 1).then fun n _ => divided (hf.scale n)) (divided hf)))

theorem operand_succ :
    Safe F .any (Grammar.operand (depth + 1) F.space) (Returns F (Piecewise.LiesOver F)) := by
  rw [Grammar.operand]
  refine .enter_bind (.next_bind fun t ht => ?_)
  split
  · rename_i f hl
    rw [hl] at ht
    exact safe_returns ht
  · refine .position?_bind ?_
    split
    · rename_i pos hpos
      exact safe_check (F.sure_variableAt (Scope.lt_size_of_position? hpos))
    · exact safe_stop trivial
  · refine .again_bind .any ht
      (.eatIf_bind (ih.factor.of_any.then fun f hf => safe_returns (hf.scale _)) ?_)
    exact safe_returns (Piecewise.liesOver_const F _)
  · exact ih.expression.of_any.then fun f hf => .expectMark_bind (safe_returns hf)
  · exact .again_bind .any ht (ih.expression.of_any.then fun f hf =>
      .expectMark_bind (safe_check hf.sure_floor))
  · exact .again_bind .any ht (ih.quotient.then fun f hf => safe_check hf.sure_floor)
  · exact .again_bind .any ht (ih.quotient.then fun f hf => safe_check hf.sure_ceil)
  · exact .again_bind .any ht (ih.arguments.then fun fs hfs => safe_check
      (Piecewise.sure_foldList (fun _ _ hf hg => hf.sure_min hg) hfs.1 hfs.2))
  · exact .again_bind .any ht (ih.arguments.then fun fs hfs => safe_check
      (Piecewise.sure_foldList (fun _ _ hf hg => hf.sure_max hg) hfs.1 hfs.2))
  · exact safe_stop trivial

theorem quotient_succ :
    Safe F .plain (Grammar.quotient (depth + 1) F.space) (Returns F (Piecewise.LiesOver F)) := by
  rw [Grammar.quotient]
  exact .enter_bind (.expectMark_bind (ih.expression.of_any.then fun f hf => .expectMark_bind
    (safe_positiveLiteral.then fun d hd => .expectMark_bind (safe_check (hf.sure_scaleDown hd)))))

theorem arguments_succ : Safe F .plain (Grammar.arguments (depth + 1) F.space)
    (Returns F fun fs => fs ≠ [] ∧ ∀ f ∈ fs, f.LiesOver F) := by
  rw [Grammar.arguments]
  exact .enter_bind (.expectMark_bind (ih.expressions.of_any.then fun fs hfs =>
    .expectMark_bind (safe_returns hfs)))

theorem expressions_succ : Safe F .any (Grammar.expressions (depth + 1) F.space)
    (Returns F fun fs => fs ≠ [] ∧ ∀ f ∈ fs, f.LiesOver F) := by
  rw [Grammar.expressions]
  refine .enter_bind (ih.expression.then fun f hf => .eatIf_bind ?_ ?_)
  · exact ih.expressions.of_any.then fun fs hfs =>
      safe_returns ⟨List.cons_ne_nil _ _, List.forall_mem_cons.2 ⟨hf, hfs.2⟩⟩
  · exact safe_returns ⟨List.cons_ne_nil _ _, List.forall_mem_singleton.2 hf⟩

theorem choice_succ :
    Safe F .any (Grammar.choice (depth + 1) F.space) (Returns F (Piecewise.LiesOver F)) := by
  rw [Grammar.choice]
  refine .enter_bind (.peek_bind fun first => ih.expression.then fun f hf => .peek_bind fun t => ?_)
  split
  · refine .push_bind .any hf ((ih.condition (Relation.liesOver_full F).1).then
      fun set hset => .expectMark_bind (ih.choice.of_any.then fun g hg => .expectMark_bind
        (ih.choice.of_any.then fun h hh => .warn_bind (safe_check ?_))))
    exact hg.sure_select hset hh
  · exact safe_returns hf

end Expressions

section Conditions

variable {result : Relation} (ih : Steady depth)
include ih

theorem condition_succ (hset : set.LiesOver F) :
    Safe F .any (Grammar.condition (depth + 1) set) (Returns F (Relation.LiesOver F)) := by
  rw [Grammar.condition]
  refine .enter_bind (.peek_bind_front fun t front ht => ?_)
  split
  · rename_i hstop
    have hplain : t.lexeme.isPlaceholder = false := by
      cases hl : t.lexeme <;> simp_all [Token.kind, Lexeme.kind, Lexeme.isPlaceholder]
    obtain rfl := ht hplain
    exact safe_returns hset
  · exact (ih.conjunction hset).of_any.then fun r hr => ih.moreAlternatives hset hr

theorem moreAlternatives_succ (hset : set.LiesOver F) (hr : result.LiesOver F) :
    Safe F .plain (Grammar.moreAlternatives (depth + 1) set result)
      (Returns F (Relation.LiesOver F)) := by
  rw [Grammar.moreAlternatives]
  exact .enter_bind (.eatIf_bind ((ih.conjunction hset).of_any.then fun r hr' =>
    .check_bind (hr.sure_union hr') fun _ h => ih.moreAlternatives hset h) (safe_returns hr))

theorem firstConjunct (hset : set.LiesOver F) (negated : Bool) :
    Safe F .any (firstConjunct depth set negated) (Returns F (Relation.LiesOver F)) := by
  refine (ih.conjunct hset).then fun r hr => ?_
  cases negated with
  | true => exact .check_bind (hset.sure_subtract hr) fun _ h => ih.moreConjuncts hset h
  | false => exact ih.moreConjuncts hset hr

theorem conjunction_succ (hset : set.LiesOver F) :
    Safe F .any (Grammar.conjunction (depth + 1) set) (Returns F (Relation.LiesOver F)) := by
  rw [Grammar.conjunction_succ]
  exact .enter_bind (.eatIf_bind (ih.firstConjunct hset true).of_any (ih.firstConjunct hset false))

theorem nextConjunct (hset : set.LiesOver F) (hr : result.LiesOver F) (negated : Bool) :
    Safe F .any (nextConjunct depth set result negated) (Returns F (Relation.LiesOver F)) := by
  refine (ih.conjunct hset).then fun other hother =>
    .check_bind ?_ fun _ h => ih.moreConjuncts hset h
  cases negated with
  | true => exact hr.sure_subtract hother
  | false => exact hr.sure_intersect hother.wellFormed hother.space

theorem moreConjuncts_succ (hset : set.LiesOver F) (hr : result.LiesOver F) :
    Safe F .plain (Grammar.moreConjuncts (depth + 1) set result)
      (Returns F (Relation.LiesOver F)) := by
  rw [Grammar.moreConjuncts_succ]
  exact .enter_bind (.eatIf_bind (.eatIf_bind (ih.nextConjunct hset hr true).of_any
    (ih.nextConjunct hset hr false).of_any) (safe_returns hr))

theorem bareConjunct (hset : set.LiesOver F) :
    Safe F .any (bareConjunct depth set) (Returns F (Relation.LiesOver F)) := by
  refine .next_bind fun t ht => ?_
  split
  · rename_i r hl
    rw [hl] at ht
    exact safe_returns ht
  · exact ih.quantifier hset
  · exact safe_returns hset
  · rw [hset.space]
    exact safe_returns (Relation.liesOver_empty F).1
  · exact .push_bind .any ht (ih.comparisons hset)

theorem conjunct_succ (hset : set.LiesOver F) :
    Safe F .any (Grammar.conjunct (depth + 1) set) (Returns F (Relation.LiesOver F)) := by
  rw [Grammar.conjunct_succ]
  refine .enter_bind (.nextIs_bind fun b => ?_)
  split
  · refine (ih.parenthesis hset).bind ?_
    rintro _ F _ ⟨rfl, rfl⟩
    exact ih.bareConjunct hset
  · exact ih.bareConjunct hset

theorem comparisons_succ (hset : set.LiesOver F) :
    Safe F .any (Grammar.comparisons (depth + 1) set) (Returns F (Relation.LiesOver F)) := by
  rw [Grammar.comparisons, hset.space]
  refine .enter_bind (ih.expressions.then fun fs hfs => .next_bind fun t _ => ?_)
  split
  · exact ih.moreComparisons hfs.1 hfs.2 _ hset
  · exact safe_stop trivial

theorem moreComparisons_succ {left : List Piecewise} (hne : left ≠ [])
    (hleft : ∀ f ∈ left, f.LiesOver F) (op : Comparison) (hset : set.LiesOver F) :
    Safe F .plain (Grammar.moreComparisons (depth + 1) F.space left op set)
      (Returns F (Relation.LiesOver F)) := by
  rw [Grammar.moreComparisons]
  refine .enter_bind (ih.expressions.of_any.then fun right hright =>
    .check_bind (Piecewise.sure_compareListSet hne hleft hright.2 op) fun holds hholds =>
      .check_bind (hset.sure_intersect hholds.1 hholds.2) fun both hboth =>
        .next_bind fun t ht => ?_)
  split
  · exact ih.moreComparisons hright.1 hright.2 _ hboth
  · exact .push_bind .plain ht (safe_returns hboth)

/-- What the variables of a quantifier enclose lies over the space in front of it once they are
projected out. -/
theorem quantifierBody (hset : set.LiesOver F) (inParens : Bool) :
    Safe F .plain (quantifierBody depth set F.scope.size inParens)
      (Returns F (Relation.LiesOver F)) := by
  have hfirst : set.dim .output = F.size - F.params := by
    rw [Relation.dim, hset.space, Frame.space, Relation.dim_anonymousSet_output]
  refine (ih.quantified hset).bind ?_
  rintro inner G _ ⟨hext, rfl, hinner⟩
  refine .expectMark_bind ((ih.condition hinner).of_any.then fun r hr => ?_)
  have hdim : r.dim .output = F.size - F.params + (G.size - F.size) := by
    rw [Relation.dim, hr.space, hext.space, Relation.dim_anonymousSet_output]
  rw [hfirst, hdim, Nat.add_sub_cancel_left]
  refine .check_bind (hr.sure_projectOut hext) fun projected hprojected =>
    .check_bind hprojected.sure_recoverDefinitions fun recovered hrecovered =>
      .scope_bind (f := (·.rollback F.scope.size)) hext.rollback ?_
  cases inParens with
  | true => exact .expectMark_bind (safe_returns hrecovered)
  | false => exact safe_returns hrecovered

theorem quantifier_succ (hset : set.LiesOver F) :
    Safe F .plain (Grammar.quantifier (depth + 1) set) (Returns F (Relation.LiesOver F)) := by
  rw [Grammar.quantifier_succ]
  refine .enter_bind (.get_bind fun s hs => ?_)
  rw [hs.scope]
  exact .eatIf_bind (ih.quantifierBody hset true) (ih.quantifierBody hset false)

theorem moreQuantified {G : Frame} (hext : F.Extends G) (hset : set.LiesOver G) :
    Safe G .plain (moreQuantified depth set) fun r H front =>
      F.Extends H ∧ front = .plain ∧ r.LiesOver H := by
  refine .eatIf_bind ((ih.quantified hset).mono ?_) (safe_pure ⟨hext, rfl, hset⟩)
  rintro r H _ ⟨hext', rfl, hr⟩
  exact ⟨hext.trans hext', rfl, hr⟩

theorem quantified_succ (hset : set.LiesOver F) :
    Safe F .plain (Grammar.quantified (depth + 1) set) fun r G front =>
      F.Extends G ∧ front = .plain ∧ r.LiesOver G := by
  rw [Grammar.quantified_succ]
  refine .enter_bind (.next_bind fun t ht => ?_)
  split
  · rename_i x _
    refine .position?_bind ?_
    split
    · exact safe_stop_bind trivial
    · have hext := F.extends_declare (some x)
      refine .declare_bind (G := F.declare (some x)) rfl
        (.check_bind (hset.sure_addDim (.inl rfl) (some x)) fun r hr => ?_)
      refine .eatIf_bind ((ih.definition hr ?_).of_any.then fun r' hr' => ih.moreQuantified hext hr')
        (ih.moreQuantified hext hr)
      exact Nat.lt_of_lt_of_eq (Nat.lt_succ_self _) (F.size_declare (some x)).symm
  · exact .push_bind .plain ht (safe_pure ⟨⟨rfl, List.prefix_refl _⟩, rfl, hset⟩)

theorem insideParenthesis (hset : set.LiesOver F) (opening : Span) :
    Safe F .any (insideParenthesis depth set opening) fun _ G front => G = F ∧ front = .any := by
  rw [Grammar.insideParenthesis, hset.space]
  refine .peek_bind fun first => ?_
  split
  · exact ih.parenthesisedCondition hset opening
  · refine ih.expression.then fun f hf => .eatIf_bind ?_ ?_
    · exact .push_bind .any hf (safe_pure ⟨rfl, rfl⟩)
    · exact .push_bind .any hf (ih.parenthesisedCondition hset opening)

theorem parenthesis_succ (hset : set.LiesOver F) :
    Safe F .any (Grammar.parenthesis (depth + 1) set) fun _ G front => G = F ∧ front = .any := by
  rw [Grammar.parenthesis_succ]
  refine .enter_bind (.expect_bind fun opening => .nextIs_bind fun b => ?_)
  split
  · refine (ih.parenthesis hset).of_any.bind ?_
    rintro _ F _ ⟨rfl, rfl⟩
    exact ih.insideParenthesis hset opening.span
  · exact (ih.insideParenthesis hset opening.span).of_any

theorem parenthesisedCondition_succ (hset : set.LiesOver F) (opening : Span) :
    Safe F .any (Grammar.parenthesisedCondition (depth + 1) set opening)
      fun _ G front => G = F ∧ front = .any := by
  rw [Grammar.parenthesisedCondition]
  exact .enter_bind ((ih.condition hset).then fun r hr => .expect_bind fun closing =>
    safe_push .any hr)

theorem definition_succ (hset : set.LiesOver F) {pos : Nat} (hpos : pos < F.size) :
    Safe F .any (Grammar.definition (depth + 1) set pos) (Returns F (Relation.LiesOver F)) := by
  rw [Grammar.definition, hset.space]
  exact .enter_bind (ih.choice.then fun value hvalue => .check_bind (F.sure_variableAt hpos)
    fun name hname => .check_bind (hname.sure_compareSet hvalue .eq) fun r hr =>
      safe_check (hset.sure_intersect hr.1 hr.2))

end Conditions

end Steady

theorem steady (depth : Nat) : Steady depth := by
  induction depth with
  | zero => constructor <;> intros <;> exact safe_exhausted
  | succ depth ih =>
    exact {
      expression := ih.expression_succ
      terms := fun negated _ hsum => ih.terms_succ negated hsum
      moreTerms := ih.moreTerms_succ
      factor := ih.factor_succ
      operand := ih.operand_succ
      quotient := ih.quotient_succ
      arguments := ih.arguments_succ
      expressions := ih.expressions_succ
      choice := ih.choice_succ
      condition := ih.condition_succ
      moreAlternatives := ih.moreAlternatives_succ
      conjunction := ih.conjunction_succ
      moreConjuncts := ih.moreConjuncts_succ
      conjunct := ih.conjunct_succ
      comparisons := ih.comparisons_succ
      moreComparisons := fun hne hleft op _ hset => ih.moreComparisons_succ hne hleft op hset
      quantifier := ih.quantifier_succ
      quantified := ih.quantified_succ
      parenthesis := ih.parenthesis_succ
      parenthesisedCondition := ih.parenthesisedCondition_succ
      definition := ih.definition_succ }

end Quasiaffine.Grammar
