import Quasiaffine.Proofs.Reader.FormulaParts
import Quasiaffine.Proofs.Reader.Keeps
import Quasiaffine.Proofs.Reader.TupleParts
import Quasiaffine.Reader.Basic

set_option autoImplicit false

namespace Quasiaffine

namespace Relation.Plain

variable {r a b : Relation} {s : Space} {kind : DimKind}

theorem full (h : s.Unnamed) : (full s).Plain := by
  obtain ⟨p, n, rfl⟩ := h
  exact ⟨wellFormed_full proper_anonymousSet, p, n, rfl⟩

theorem empty (h : r.Plain) : (empty r.space).Plain :=
  ⟨wellFormed_empty h.wellFormed.proper, h.unnamed⟩

theorem intersect (ha : a.Plain) (hb : b.WellFormed) (hok : a.intersect b = .ok r) : r.Plain :=
  have ⟨hspace, hwf, _⟩ := ha.wellFormed.intersect hb hok
  ⟨hwf, hspace ▸ ha.unnamed⟩

theorem union (ha : a.Plain) (hb : b.WellFormed) (hok : a.union b = .ok r) : r.Plain :=
  have ⟨hspace, hwf, _⟩ := ha.wellFormed.union hb hok
  ⟨hwf, hspace ▸ ha.unnamed⟩

theorem subtract (ha : a.Plain) (hb : b.WellFormed) (hok : a.subtract b = .ok r) : r.Plain :=
  have ⟨hspace, hwf, _⟩ := ha.wellFormed.subtract hb hok
  ⟨hwf, hspace ▸ ha.unnamed⟩

theorem addDims (ha : a.Plain) (hk : kind = .param ∨ kind = .output)
    (hok : a.addDims kind 1 = .ok r) : r.Plain := by
  obtain ⟨p, n, hs⟩ := ha.unnamed
  obtain ⟨r', hok', hspace, hwf, -⟩ := addDims_eq_ok kind 1 ha.wellFormed
    (by rcases hk with rfl | rfl <;> decide)
    (hk.imp_right fun h => by rw [h, Space.hasTuple]) Nat.one_pos
  obtain rfl := Except.ok.inj (hok'.symm.trans hok)
  rcases hk with rfl | rfl
  · rw [hs, dim_anonymousSet_param, insertUnchecked_anonymousSet_param] at hspace
    exact ⟨hwf, _, _, hspace⟩
  · rw [hs, dim_anonymousSet_output, insertUnchecked_anonymousSet_output] at hspace
    exact ⟨hwf, _, _, hspace⟩

theorem projectOut {first : Nat} (ha : a.Plain)
    (hok : a.projectOut .output first (a.dim .output - first) = .ok r) : r.Plain := by
  obtain ⟨p, n, hs⟩ := ha.unnamed
  have hdim : a.dim .output = n := by rw [dim, hs, dim_anonymousSet_output]
  rw [hdim] at hok
  have hle : first ≤ n := by
    obtain ⟨_, hdrop, -⟩ := bind_eq_ok_iff.1 hok
    obtain ⟨_, hfirst, -⟩ := bind_eq_ok_iff.1 hdrop
    rw [require_eq_ok_iff, decide_eq_true_eq, hs, dim_anonymousSet_output] at hfirst
    omega
  obtain ⟨k, rfl⟩ := Nat.exists_eq_add_of_le hle
  rw [Nat.add_sub_cancel_left] at hok
  rcases Nat.eq_zero_or_pos k with rfl | hk
  · rw [Nat.add_zero] at hs
    rw [ha.wellFormed.projectOut_zero hs] at hok
    exact Except.ok.inj hok ▸ ha
  · obtain ⟨r', hok', hspace, hwf, -⟩ := projectOut_eq_ok .output first k ha.wellFormed (by decide)
      (by rw [hs, dim_anonymousSet_output]) (.inr rfl) hk
    obtain rfl := Except.ok.inj (hok'.symm.trans hok)
    rw [hs, dropUnchecked_anonymousSet] at hspace
    exact ⟨hwf, p, first, hspace⟩

theorem recoverDefinitions {r : Recovery} (ha : a.Plain) (hok : a.recoverDefinitions = .ok r) :
    r.relation.Plain := by
  obtain ⟨r', hok', hspace, hwf, -⟩ := recoverDefinitions_eq_ok ha.wellFormed
  obtain rfl := Except.ok.inj (hok'.symm.trans hok)
  exact ⟨hwf, hspace ▸ ha.unnamed⟩

end Relation.Plain

namespace Space.Unnamed

theorem proper {s : Space} (h : s.Unnamed) : s.Proper := by
  obtain ⟨p, n, rfl⟩ := h
  exact Relation.proper_anonymousSet

end Space.Unnamed

namespace Grammar

open Reading Piecewise

theorem separate_ofAffine_var {space : Space} {kind : DimKind} {pos : Nat} {a : Affine}
    (hs : space.Proper) (hk : kind ≠ .div) (hok : Affine.var (.ofSpace space) kind pos = .ok a) :
    (ofAffine a).Separate := by
  have hpos : pos < space.dim kind := by
    obtain ⟨_, h, -⟩ := bind_eq_ok_iff.1 hok
    rw [require_eq_ok_iff, decide_eq_true_eq] at h
    cases kind with
    | div => exact absurd rfl hk
    | _ => exact h
  obtain ⟨a', hok', ha'⟩ := Affine.var_eq_ok kind pos hk hpos
  obtain rfl := Except.ok.inj (hok'.symm.trans hok)
  exact separate_ofAffine ha'.wellFormed (ha'.space ▸ hs)

theorem separate_variableAt {space : Space} {pos : Nat} {f : Piecewise} (hs : space.Proper)
    (hok : variableAt space pos = .ok f) : f.Separate := by
  simp only [variableAt] at hok
  split at hok <;>
  · obtain ⟨a, ha, hok⟩ := bind_eq_ok_iff.1 hok
    obtain rfl := Except.ok.inj hok
    exact separate_ofAffine_var hs (by decide) ha

section Literals

theorem keeps_literal : KeepsSound literal fun _ => True := by
  refine keeps_next.bind fun t _ => ?_
  split
  · exact keeps_pure trivial
  · exact keeps_stop _

theorem keeps_positiveLiteral : KeepsSound positiveLiteral fun _ => True := by
  refine keeps_next.bind fun t _ => ?_
  split
  · split
    · exact keeps_pure trivial
    · exact keeps_stop _
  · exact keeps_stop _

theorem keeps_coefficientFollows : KeepsSound coefficientFollows fun _ => True := by
  refine keeps_eatIf.bind fun b _ => ?_
  split
  · exact keeps_pure trivial
  · exact keeps_nextIs

theorem keeps_literalProduct (depth : Nat) (product : Int) :
    KeepsSound (literalProduct depth product) fun _ => True := by
  induction depth generalizing product with
  | zero => exact keeps_throw _
  | succ depth ih =>
    refine keeps_enter.bind fun _ _ => keeps_literal.bind fun v _ => keeps_eatIf.bind fun b _ => ?_
    split
    · exact ih _
    · exact keeps_pure trivial

end Literals

structure Reliable (depth : Nat) : Prop where
  expression {space : Space} (hs : space.Proper) : KeepsSound (expression depth space) Separate
  terms {space : Space} (hs : space.Proper) (negated : Bool) {sum : Piecewise}
    (hsum : sum.Separate) : KeepsSound (terms depth space negated sum) Separate
  moreTerms {space : Space} (hs : space.Proper) {sum : Piecewise} (hsum : sum.Separate) :
    KeepsSound (moreTerms depth space sum) Separate
  factor {space : Space} (hs : space.Proper) : KeepsSound (factor depth space) Separate
  operand {space : Space} (hs : space.Proper) : KeepsSound (operand depth space) Separate
  quotient {space : Space} (hs : space.Proper) : KeepsSound (quotient depth space) Separate
  arguments {space : Space} (hs : space.Proper) :
    KeepsSound (arguments depth space) fun fs => ∀ f ∈ fs, f.Separate
  expressions {space : Space} (hs : space.Proper) :
    KeepsSound (expressions depth space) fun fs => ∀ f ∈ fs, f.Separate
  choice {space : Space} (hs : space.Unnamed) : KeepsSound (choice depth space) Separate
  condition {set : Relation} (hset : set.Plain) : KeepsSound (condition depth set) Relation.Plain
  moreAlternatives {set result : Relation} (hset : set.Plain) (hr : result.Plain) :
    KeepsSound (moreAlternatives depth set result) Relation.Plain
  conjunction {set : Relation} (hset : set.Plain) :
    KeepsSound (conjunction depth set) Relation.Plain
  moreConjuncts {set result : Relation} (hset : set.Plain) (hr : result.Plain) :
    KeepsSound (moreConjuncts depth set result) Relation.Plain
  conjunct {set : Relation} (hset : set.Plain) : KeepsSound (conjunct depth set) Relation.Plain
  comparisons {set : Relation} (hset : set.Plain) :
    KeepsSound (comparisons depth set) Relation.Plain
  moreComparisons {space : Space} (hs : space.Proper) {left : List Piecewise}
    (hleft : ∀ f ∈ left, f.Separate) (op : Comparison) {set : Relation} (hset : set.Plain) :
    KeepsSound (moreComparisons depth space left op set) Relation.Plain
  quantifier {set : Relation} (hset : set.Plain) : KeepsSound (quantifier depth set) Relation.Plain
  quantified {set : Relation} (hset : set.Plain) : KeepsSound (quantified depth set) Relation.Plain
  parenthesis {set : Relation} (hset : set.Plain) : KeepsSound (parenthesis depth set) fun _ => True
  parenthesisedCondition {set : Relation} (hset : set.Plain) (opening : Span) :
    KeepsSound (parenthesisedCondition depth set opening) fun _ => True
  definition {set : Relation} (hset : set.Plain) (pos : Nat) :
    KeepsSound (definition depth set pos) Relation.Plain

variable {depth : Nat} {space : Space} {set : Relation}

section Expressions

theorem Reliable.expression_succ (ih : Reliable depth) (hs : space.Proper) :
    KeepsSound (Grammar.expression (depth + 1) space) Separate := by
  rw [Grammar.expression]
  exact keeps_enter.bind fun _ _ => ih.terms hs _ (separate_const hs 0)

theorem Reliable.terms_succ (ih : Reliable depth) (hs : space.Proper) (negated : Bool)
    {sum : Piecewise} (hsum : sum.Separate) :
    KeepsSound (Grammar.terms (depth + 1) space negated sum) Separate := by
  have hadd : ∀ term : Piecewise, term.Separate →
      KeepsSound (check (sum.add term) >>= Grammar.moreTerms depth space) Separate := by
    intro term hterm
    have hsum' : KeepsSound (check (sum.add term)) Separate :=
      keeps_check fun _ hok => (hsum.add hterm hok).1
    exact hsum'.bind fun _ h => ih.moreTerms hs h
  rw [Grammar.terms]
  refine keeps_enter.bind fun _ _ => keeps_next.bind fun t ht => ?_
  split
  · exact ih.terms hs _ hsum
  · refine (keeps_again ht).bind fun _ _ => keeps_coefficientFollows.bind fun b _ => ?_
    split
    · exact (ih.factor hs).bind fun f hf => hadd _ (hf.scale _)
    · exact (keeps_push (t := .made (.number _) _) trivial).bind fun _ _ =>
        (ih.factor hs).bind hadd
  · exact keeps_stop _
  · split
    · refine (keeps_push ht).bind fun _ _ => (ih.factor hs).bind fun f hf => ?_
      split
      · have hsub : KeepsSound (check (sum.sub f)) Separate :=
          keeps_check fun _ hok => hsum.sub hf hok
        exact hsub.bind fun _ h => ih.moreTerms hs h
      · exact hadd f hf
    · exact keeps_stop _

theorem Reliable.moreTerms_succ (ih : Reliable depth) (hs : space.Proper) {sum : Piecewise}
    (hsum : sum.Separate) : KeepsSound (Grammar.moreTerms (depth + 1) space sum) Separate := by
  rw [Grammar.moreTerms]
  refine keeps_enter.bind fun _ _ => keeps_next.bind fun t ht => ?_
  split
  · exact ih.terms hs _ hsum
  · exact ih.terms hs _ hsum
  · refine (keeps_push ht).bind fun _ _ => ?_
    split
    · exact ih.terms hs _ hsum
    · exact keeps_pure hsum
  · exact (keeps_push ht).bind fun _ _ => keeps_pure hsum

theorem keeps_divided {f : Piecewise} (hf : f.Separate) : KeepsSound (divided f) Separate := by
  refine keeps_eatIf.bind fun b _ => ?_
  split
  · exact keeps_positiveLiteral.bind fun d _ => keeps_check fun _ => hf.scaleDown
  · exact keeps_pure hf

theorem Reliable.factor_succ (ih : Reliable depth) (hs : space.Proper) :
    KeepsSound (Grammar.factor (depth + 1) space) Separate := by
  rw [Grammar.factor_succ]
  refine keeps_enter.bind fun _ _ => (ih.operand hs).bind fun f hf => keeps_eatIf.bind fun b _ => ?_
  split
  · exact keeps_positiveLiteral.bind fun m _ => keeps_check fun _ => hf.mod
  · refine keeps_eatIf.bind fun b _ => ?_
    split
    · exact keeps_positiveLiteral.bind fun m _ => keeps_check fun _ => hf.mod
    · refine keeps_eatIf.bind fun b _ => ?_
      split
      · exact (keeps_literalProduct _ _).bind fun c _ => keeps_divided (hf.scale c)
      · exact keeps_divided hf

theorem Reliable.operand_succ (ih : Reliable depth) (hs : space.Proper) :
    KeepsSound (Grammar.operand (depth + 1) space) Separate := by
  rw [Grammar.operand]
  refine keeps_enter.bind fun _ _ => keeps_next.bind fun t ht => ?_
  split
  · rename_i f hf
    rw [hf] at ht
    exact keeps_pure ht
  · refine keeps_position?.bind fun pos _ => ?_
    split
    · exact keeps_check fun _ hok => separate_variableAt hs hok
    · exact keeps_stop _
  · refine (keeps_again ht).bind fun _ _ => keeps_eatIf.bind fun b _ => ?_
    split
    · exact (ih.factor hs).bind fun f hf => keeps_pure (hf.scale _)
    · exact keeps_pure (separate_const hs _)
  · exact (ih.expression hs).bind fun f hf => keeps_expectMark.bind fun _ _ => keeps_pure hf
  · exact (keeps_again ht).bind fun _ _ => (ih.expression hs).bind fun f hf =>
      keeps_expectMark.bind fun _ _ => keeps_check fun _ => hf.floor
  · exact (keeps_again ht).bind fun _ _ => (ih.quotient hs).bind fun f hf =>
      keeps_check fun _ => hf.floor
  · exact (keeps_again ht).bind fun _ _ => (ih.quotient hs).bind fun f hf =>
      keeps_check fun _ => hf.ceil
  · exact (keeps_again ht).bind fun _ _ => (ih.arguments hs).bind fun fs hfs =>
      keeps_check fun _ => separate_of_minList hfs
  · exact (keeps_again ht).bind fun _ _ => (ih.arguments hs).bind fun fs hfs =>
      keeps_check fun _ => separate_of_maxList hfs
  · exact keeps_stop _

theorem Reliable.quotient_succ (ih : Reliable depth) (hs : space.Proper) :
    KeepsSound (Grammar.quotient (depth + 1) space) Separate := by
  rw [Grammar.quotient]
  exact keeps_enter.bind fun _ _ => keeps_expectMark.bind fun _ _ => (ih.expression hs).bind
    fun f hf => keeps_expectMark.bind fun _ _ => keeps_positiveLiteral.bind fun d _ =>
      keeps_expectMark.bind fun _ _ => keeps_check fun _ => hf.scaleDown

theorem Reliable.arguments_succ (ih : Reliable depth) (hs : space.Proper) :
    KeepsSound (Grammar.arguments (depth + 1) space) fun fs => ∀ f ∈ fs, f.Separate := by
  rw [Grammar.arguments]
  exact keeps_enter.bind fun _ _ => keeps_expectMark.bind fun _ _ => (ih.expressions hs).bind
    fun fs hfs => keeps_expectMark.bind fun _ _ => keeps_pure hfs

theorem Reliable.expressions_succ (ih : Reliable depth) (hs : space.Proper) :
    KeepsSound (Grammar.expressions (depth + 1) space) fun fs => ∀ f ∈ fs, f.Separate := by
  rw [Grammar.expressions]
  refine keeps_enter.bind fun _ _ => (ih.expression hs).bind fun f hf =>
    keeps_eatIf.bind fun b _ => ?_
  split
  · exact (ih.expressions hs).bind fun fs hfs => keeps_pure (List.forall_mem_cons.2 ⟨hf, hfs⟩)
  · exact keeps_pure (List.forall_mem_singleton.2 hf)

/-- A choice depends on a condition; the token that stands for its first operand may be relied
on. -/
theorem Reliable.choice_succ (ih : Reliable depth) (hs : space.Unnamed) :
    KeepsSound (Grammar.choice (depth + 1) space) Separate := by
  rw [Grammar.choice]
  refine keeps_enter.bind fun _ _ => keeps_peek.bind fun first _ =>
    (ih.expression hs.proper).bind fun f hf => keeps_peek.bind fun t _ => ?_
  split
  · refine (keeps_push (t := .made (.expression f) _) hf).bind fun _ _ =>
      (ih.condition (.full hs)).bind fun set hset => ?_
    exact keeps_expectMark.bind fun _ _ => (ih.choice hs).bind fun g hg =>
      keeps_expectMark.bind fun _ _ => (ih.choice hs).bind fun h hh => keeps_warn.bind fun _ _ =>
        keeps_check fun _ => Separate.select hset.wellFormed hg hh
  · exact keeps_pure hf

end Expressions

section Conditions

theorem Reliable.condition_succ (ih : Reliable depth) (hset : set.Plain) :
    KeepsSound (Grammar.condition (depth + 1) set) Relation.Plain := by
  rw [Grammar.condition]
  refine keeps_enter.bind fun _ _ => keeps_peek.bind fun t _ => ?_
  split
  · exact keeps_pure hset
  · exact (ih.conjunction hset).bind fun r hr => ih.moreAlternatives hset hr

theorem Reliable.moreAlternatives_succ (ih : Reliable depth) {set result : Relation}
    (hset : set.Plain) (hr : result.Plain) :
    KeepsSound (Grammar.moreAlternatives (depth + 1) set result) Relation.Plain := by
  rw [Grammar.moreAlternatives]
  refine keeps_enter.bind fun _ _ => keeps_eatIf.bind fun b _ => ?_
  split
  · refine (ih.conjunction hset).bind fun r hr' => ?_
    have hunion : KeepsSound (check (result.union r)) Relation.Plain :=
      keeps_check fun _ => hr.union hr'.wellFormed
    exact hunion.bind fun _ h => ih.moreAlternatives hset h
  · exact keeps_pure hr

theorem Reliable.firstConjunct (ih : Reliable depth) (hset : set.Plain) (negated : Bool) :
    KeepsSound (firstConjunct depth set negated) Relation.Plain := by
  refine (ih.conjunct hset).bind fun first hfirst => ?_
  split
  · have hsub : KeepsSound (check (set.subtract first)) Relation.Plain :=
      keeps_check fun _ => hset.subtract hfirst.wellFormed
    exact hsub.bind fun _ h => ih.moreConjuncts hset h
  · exact ih.moreConjuncts hset hfirst

theorem Reliable.conjunction_succ (ih : Reliable depth) (hset : set.Plain) :
    KeepsSound (Grammar.conjunction (depth + 1) set) Relation.Plain := by
  rw [Grammar.conjunction_succ]
  exact keeps_enter.bind fun _ _ => keeps_eatIf.bind fun b _ => ih.firstConjunct hset b

theorem Reliable.nextConjunct (ih : Reliable depth) {set result : Relation} (hset : set.Plain)
    (hr : result.Plain) (negated : Bool) :
    KeepsSound (nextConjunct depth set result negated) Relation.Plain := by
  refine (ih.conjunct hset).bind fun other hother => ?_
  have hboth : KeepsSound
      (check (if negated then result.subtract other else result.intersect other))
      Relation.Plain := by
    refine keeps_check fun r hok => ?_
    split at hok
    · exact hr.subtract hother.wellFormed hok
    · exact hr.intersect hother.wellFormed hok
  exact hboth.bind fun _ h => ih.moreConjuncts hset h

theorem Reliable.moreConjuncts_succ (ih : Reliable depth) {set result : Relation}
    (hset : set.Plain) (hr : result.Plain) :
    KeepsSound (Grammar.moreConjuncts (depth + 1) set result) Relation.Plain := by
  rw [Grammar.moreConjuncts_succ]
  refine keeps_enter.bind fun _ _ => keeps_eatIf.bind fun b _ => ?_
  split
  · exact keeps_eatIf.bind fun negated _ => ih.nextConjunct hset hr negated
  · exact keeps_pure hr

theorem Reliable.bareConjunct (ih : Reliable depth) (hset : set.Plain) :
    KeepsSound (bareConjunct depth set) Relation.Plain := by
  refine keeps_next.bind fun t ht => ?_
  split
  · rename_i r hr
    rw [hr] at ht
    exact keeps_pure ht
  · exact ih.quantifier hset
  · exact keeps_pure hset
  · exact keeps_pure hset.empty
  · exact (keeps_push ht).bind fun _ _ => ih.comparisons hset

theorem Reliable.conjunct_succ (ih : Reliable depth) (hset : set.Plain) :
    KeepsSound (Grammar.conjunct (depth + 1) set) Relation.Plain := by
  rw [Grammar.conjunct_succ]
  refine keeps_enter.bind fun _ _ => keeps_nextIs.bind fun b _ => ?_
  split
  · exact (ih.parenthesis hset).bind fun _ _ => ih.bareConjunct hset
  · exact ih.bareConjunct hset

theorem Reliable.comparisons_succ (ih : Reliable depth) (hset : set.Plain) :
    KeepsSound (Grammar.comparisons (depth + 1) set) Relation.Plain := by
  rw [Grammar.comparisons]
  refine keeps_enter.bind fun _ _ => (ih.expressions hset.unnamed.proper).bind fun left hleft =>
    keeps_next.bind fun t _ => ?_
  split
  · exact ih.moreComparisons hset.unnamed.proper hleft _ hset
  · exact keeps_stop _

theorem Reliable.moreComparisons_succ (ih : Reliable depth) (hs : space.Proper)
    {left : List Piecewise} (hleft : ∀ f ∈ left, f.Separate) (op : Comparison) {set : Relation}
    (hset : set.Plain) :
    KeepsSound (Grammar.moreComparisons (depth + 1) space left op set) Relation.Plain := by
  rw [Grammar.moreComparisons]
  refine keeps_enter.bind fun _ _ => (ih.expressions hs).bind fun right hright => ?_
  have hholds : KeepsSound (check (compareListSet left right op)) Relation.WellFormed :=
    keeps_check fun _ => wellFormed_of_compareListSet hleft hright
  refine hholds.bind fun holds hholds => ?_
  have hboth : KeepsSound (check (set.intersect holds)) Relation.Plain :=
    keeps_check fun _ => hset.intersect hholds
  refine hboth.bind fun both hboth => keeps_next.bind fun t ht => ?_
  split
  · exact ih.moreComparisons hs hright _ hboth
  · exact (keeps_push ht).bind fun _ _ => keeps_pure hboth

theorem Reliable.quantifierBody (ih : Reliable depth) (hset : set.Plain) (mark : Nat)
    (inParens : Bool) : KeepsSound (quantifierBody depth set mark inParens) Relation.Plain := by
  refine (ih.quantified hset).bind fun set' hset' => keeps_expectMark.bind fun _ _ =>
    (ih.condition hset').bind fun r hr => ?_
  have hproject : KeepsSound (check (r.projectOut .output (set.dim .output)
      (r.dim .output - set.dim .output))) Relation.Plain := keeps_check fun _ => hr.projectOut
  refine hproject.bind fun projected hprojected => ?_
  have hrecover : KeepsSound (check projected.recoverDefinitions) fun r => r.relation.Plain :=
    keeps_check fun _ => hprojected.recoverDefinitions
  refine hrecover.bind fun recovered hrecovered => (keeps_scope (·.rollback _)).bind fun _ _ => ?_
  split
  · exact keeps_expectMark.bind fun _ _ => keeps_pure hrecovered
  · exact keeps_pure hrecovered

theorem Reliable.quantifier_succ (ih : Reliable depth) (hset : set.Plain) :
    KeepsSound (Grammar.quantifier (depth + 1) set) Relation.Plain := by
  rw [Grammar.quantifier_succ]
  exact keeps_enter.bind fun _ _ => keeps_get.bind fun s _ => keeps_eatIf.bind fun inParens _ =>
    ih.quantifierBody hset _ inParens

theorem Reliable.moreQuantified (ih : Reliable depth) (hset : set.Plain) :
    KeepsSound (moreQuantified depth set) Relation.Plain := by
  refine keeps_eatIf.bind fun b _ => ?_
  split
  · exact ih.quantified hset
  · exact keeps_pure hset

theorem Reliable.quantified_succ (ih : Reliable depth) (hset : set.Plain) :
    KeepsSound (Grammar.quantified (depth + 1) set) Relation.Plain := by
  rw [Grammar.quantified_succ]
  refine keeps_enter.bind fun _ _ => keeps_next.bind fun t ht => ?_
  split
  · refine keeps_position?.bind fun pos _ => ?_
    split
    · exact keeps_stop_bind _ _
    · refine keeps_declare.bind fun pos _ => ?_
      have hadd : KeepsSound (check (set.addDims .output 1)) Relation.Plain :=
        keeps_check fun _ => hset.addDims (.inr rfl)
      refine hadd.bind fun r hr => keeps_eatIf.bind fun b _ => ?_
      split
      · exact (ih.definition hr pos).bind fun _ hr' => ih.moreQuantified hr'
      · exact ih.moreQuantified hr
  · exact (keeps_push ht).bind fun _ _ => keeps_pure hset

theorem Reliable.insideParenthesis (ih : Reliable depth) (hset : set.Plain) (opening : Span) :
    KeepsSound (insideParenthesis depth set opening) fun _ => True := by
  refine keeps_peek.bind fun first _ => ?_
  split
  · exact ih.parenthesisedCondition hset opening
  · refine (ih.expression hset.unnamed.proper).bind fun f hf => keeps_eatIf.bind fun b _ =>
      (keeps_push (t := .made (.expression f) _) hf).bind fun _ _ => ?_
    split
    · exact ih.parenthesisedCondition hset opening
    · exact keeps_pure trivial

theorem Reliable.parenthesis_succ (ih : Reliable depth) (hset : set.Plain) :
    KeepsSound (Grammar.parenthesis (depth + 1) set) fun _ => True := by
  rw [Grammar.parenthesis_succ]
  refine keeps_enter.bind fun _ _ => keeps_expect.bind fun opening _ => keeps_nextIs.bind
    fun b _ => ?_
  split
  · exact (ih.parenthesis hset).bind fun _ _ => ih.insideParenthesis hset opening.span
  · exact ih.insideParenthesis hset opening.span

theorem Reliable.parenthesisedCondition_succ (ih : Reliable depth) (hset : set.Plain)
    (opening : Span) :
    KeepsSound (Grammar.parenthesisedCondition (depth + 1) set opening) fun _ => True := by
  rw [Grammar.parenthesisedCondition]
  exact keeps_enter.bind fun _ _ => (ih.condition hset).bind fun r hr =>
    keeps_expect.bind fun _ _ => keeps_push (t := .made (.condition r) _) hr

theorem Reliable.definition_succ (ih : Reliable depth) (hset : set.Plain) (pos : Nat) :
    KeepsSound (Grammar.definition (depth + 1) set pos) Relation.Plain := by
  rw [Grammar.definition]
  refine keeps_enter.bind fun _ _ => (ih.choice hset.unnamed).bind fun value hvalue => ?_
  have hname : KeepsSound (check (variableAt set.space pos)) Separate :=
    keeps_check fun _ => separate_variableAt hset.unnamed.proper
  refine hname.bind fun name hname => ?_
  have hequal : KeepsSound (check (name.compareSet value .eq)) Relation.WellFormed :=
    keeps_check fun _ => hname.wellFormed_compareSet hvalue
  exact hequal.bind fun r hr => keeps_check fun _ => hset.intersect hr

end Conditions

theorem reliable (depth : Nat) : Reliable depth := by
  induction depth with
  | zero => constructor <;> intros <;> exact keeps_throw _
  | succ depth ih =>
    exact {
      expression := ih.expression_succ
      terms := ih.terms_succ
      moreTerms := ih.moreTerms_succ
      factor := ih.factor_succ
      operand := ih.operand_succ
      quotient := ih.quotient_succ
      arguments := ih.arguments_succ
      expressions := ih.expressions_succ
      choice := ih.choice_succ
      condition := ih.condition_succ
      moreAlternatives := ih.moreAlternatives_succ
      conjunction := ih.conjunction_succ
      moreConjuncts := ih.moreConjuncts_succ
      conjunct := ih.conjunct_succ
      comparisons := ih.comparisons_succ
      moreComparisons := ih.moreComparisons_succ
      quantifier := ih.quantifier_succ
      quantified := ih.quantified_succ
      parenthesis := ih.parenthesis_succ
      parenthesisedCondition := ih.parenthesisedCondition_succ
      definition := ih.definition_succ }

section Tuples

variable {kind : DimKind}

theorem keeps_startsTuple : KeepsSound startsTuple fun _ => True := by
  refine keeps_tokens (TokenStream.keeps_lookingAhead (TokenStream.keeps_next.bind fun t _ => ?_))
  split
  · exact keeps_pure trivial
  · split
    · exact TokenStream.keeps_nextIs
    · exact keeps_pure trivial

theorem keeps_arrowBehind (depth nesting : Nat) :
    Keeps TokenStream.Sound (arrowBehind depth nesting) fun _ => True := by
  induction depth generalizing nesting with
  | zero => exact keeps_pure trivial
  | succ depth ih =>
    refine TokenStream.keeps_next.bind fun t _ => ?_
    split
    · exact ih _
    · split
      · exact TokenStream.keeps_nextIs.bind fun _ _ => keeps_pure trivial
      · exact ih _
    · exact keeps_pure trivial
    · exact ih _

theorem keeps_startsRelation (depth : Nat) : KeepsSound (startsRelation depth) fun _ => True := by
  refine keeps_startsTuple.bind fun b _ => ?_
  split
  · refine (keeps_tokens (TokenStream.keeps_lookingAhead (keeps_arrowBehind depth 0))).bind
      fun found _ => ?_
    split
    · exact keeps_pure trivial
    · exact keeps_throw _
  · exact keeps_pure trivial

theorem keeps_freshName? (t : Token) : KeepsSound (freshName? t) fun _ => True := by
  rw [freshName?]
  split
  · exact keeps_position?.bind fun _ _ => keeps_pure trivial
  · exact keeps_pure trivial

theorem keeps_item (depth : Nat) (hk : kind = .param ∨ kind = .output) {read : Items}
    (hr : read.set.Plain) {t : Token} (ht : t.lexeme.Sound) :
    KeepsSound (item depth kind read t) fun read => read.set.Plain := by
  have hadd : KeepsSound (check (read.set.addDims kind 1)) Relation.Plain :=
    keeps_check fun _ => hr.addDims hk
  rw [item]
  refine (keeps_freshName? t).bind fun name _ => ?_
  split
  · refine keeps_declare.bind fun pos _ => hadd.bind fun set hset => keeps_eatIf.bind fun b _ => ?_
    split
    · exact ((reliable depth).definition hset pos).bind fun _ h => keeps_pure h
    · exact keeps_pure hset
  · split
    · split
      · exact keeps_stop _
      · exact keeps_stop _
    · exact (keeps_push ht).bind fun _ _ => keeps_declare.bind fun pos _ => hadd.bind
        fun set hset => ((reliable depth).definition hset pos).bind fun _ h => keeps_pure h

theorem keeps_items (depth : Nat) (hk : kind = .param ∨ kind = .output) {read : Items}
    (hr : read.set.Plain) : KeepsSound (items depth kind read) fun read => read.set.Plain := by
  induction depth generalizing read with
  | zero => exact keeps_throw _
  | succ depth ih =>
    rw [items]
    refine keeps_enter.bind fun _ _ => keeps_next.bind fun t ht =>
      (keeps_item depth hk hr ht).bind fun read' hr' => keeps_next.bind fun behind hb => ?_
    split
    · exact ih hr'
    · split
      · exact (keeps_push hb).bind fun _ _ => keeps_pure hr'
      · refine keeps_nextIs.bind fun b _ => ?_
        split
        · exact keeps_next.bind fun _ _ => ih hr'
        · exact (keeps_push hb).bind fun _ _ => keeps_pure hr'

variable {depth : Nat} {set : Relation} {name : Label}

theorem keeps_closeTuple {shaped : Shaped} (h : shaped.set.Plain) :
    KeepsSound (closeTuple name shaped) fun shaped => shaped.set.Plain :=
  keeps_expectMark.bind fun _ _ => keeps_pure h

theorem keeps_insideTuple (hk : kind = .param ∨ kind = .output)
    (htuple : ∀ {set : Relation}, set.Plain →
      KeepsSound (tuple depth kind set) fun shaped => shaped.set.Plain)
    (hset : set.Plain) (wraps : Bool) :
    KeepsSound (insideTuple depth kind set name wraps) fun shaped => shaped.set.Plain := by
  refine keeps_nextIs.bind fun closes _ => ?_
  split
  · exact (htuple hset).bind fun domain hdomain => keeps_expectMark.bind fun _ _ =>
      (htuple hdomain).bind fun range hrange => keeps_closeTuple hrange
  · split
    · exact keeps_closeTuple hset
    · have hitems : KeepsSound (items depth kind ⟨set, []⟩) fun read => read.set.Plain :=
        keeps_items depth hk hset
      exact hitems.bind fun read hread => keeps_closeTuple hread

theorem keeps_openTuple (hk : kind = .param ∨ kind = .output)
    (htuple : ∀ {set : Relation}, set.Plain →
      KeepsSound (tuple depth kind set) fun shaped => shaped.set.Plain)
    (hset : set.Plain) (opening : Token) :
    KeepsSound (openTuple depth kind set name opening) fun shaped => shaped.set.Plain := by
  rw [openTuple]
  split
  · exact keeps_stop _
  · split
    · exact keeps_insideTuple hk htuple hset false
    · exact (keeps_startsRelation depth).bind fun wraps _ => keeps_insideTuple hk htuple hset wraps

theorem keeps_tuple (depth : Nat) (hk : kind = .param ∨ kind = .output) {set : Relation}
    (hset : set.Plain) : KeepsSound (tuple depth kind set) fun shaped => shaped.set.Plain := by
  induction depth generalizing set with
  | zero => exact keeps_throw _
  | succ depth ih =>
    rw [tuple_succ]
    refine keeps_enter.bind fun _ _ => keeps_next.bind fun t ht => ?_
    split
    · exact keeps_next.bind fun opening _ => keeps_openTuple hk ih hset opening
    · exact keeps_openTuple hk ih hset t

end Tuples

section Bodies

theorem keeps_optionalCondition (depth : Nat) (hset : set.Plain) :
    KeepsSound (optionalCondition depth set) Relation.Plain := by
  refine keeps_next.bind fun t ht => ?_
  split
  · exact (reliable depth).condition hset
  · exact (keeps_push ht).bind fun _ _ => keeps_pure hset

theorem keeps_expectEnd : KeepsSound expectEnd fun _ => True := by
  refine keeps_next.bind fun t _ => ?_
  split
  · exact keeps_stop _
  · exact keeps_pure trivial

theorem keeps_parameters (depth : Nat) : KeepsSound (parameters depth) Relation.Plain := by
  have hfull : (Relation.full (.ofParams [])).Plain := .full ⟨0, 0, rfl⟩
  refine keeps_nextIs.bind fun b _ => ?_
  split
  · exact (keeps_tuple depth (.inl rfl) hfull).bind fun shaped hshaped =>
      keeps_expectMark.bind fun _ _ => keeps_pure hshaped
  · exact keeps_pure hfull

theorem keeps_parameterNames (params : Relation) :
    KeepsSound (parameterNames params) fun _ => True :=
  keeps_get.bind fun _ _ => keeps_pure trivial

theorem keeps_located (depth : Nat) {params : Relation} (hp : params.Plain) :
    KeepsSound (located depth params) fun read => read.set.Plain ∧ read.space.Proper := by
  refine (keeps_parameterNames params).bind fun names _ => keeps_nextIs.bind fun b _ => ?_
  split
  · exact (keeps_optionalCondition depth hp).bind fun r hr =>
      keeps_pure ⟨hr, Space.proper_ofSet names .unit⟩
  · refine (keeps_tuple depth (.inr rfl) hp).bind fun first hfirst => keeps_eatIf.bind fun b _ => ?_
    split
    · exact (keeps_tuple depth (.inr rfl) hfirst).bind fun second hsecond =>
        (keeps_optionalCondition depth hsecond).bind fun r hr =>
          keeps_pure ⟨hr, Space.proper_ofRelation names _ _⟩
    · exact (keeps_optionalCondition depth hfirst).bind fun r hr =>
        keeps_pure ⟨hr, Space.proper_ofSet names _⟩

theorem keeps_startsDomain : KeepsSound startsDomain fun _ => True := by
  refine keeps_get.bind fun s hs => keeps_next.bind fun _ _ => keeps_startsTuple.bind fun b _ =>
    keeps_nextIs.bind fun b' _ => ?_
  have hback : ∀ found : Bool, KeepsSound (do
      tokens (TokenStream.restore s.stream)
      return found) fun _ => True := fun _ =>
    (keeps_tokens (TokenStream.keeps_restore hs)).bind fun _ _ => keeps_pure trivial
  split
  · exact hback true
  · split
    · exact hback true
    · exact keeps_peek.bind fun t _ => (keeps_freshName? t).bind fun name _ => hback name.isSome

theorem keeps_pieceDomain? (depth : Nat) {params : Relation} (hp : params.Plain) :
    KeepsSound (pieceDomain? depth params) fun domain => ∀ d ∈ domain, d.set.Plain := by
  have htuple : KeepsSound (do return some (← tuple depth .output params)) fun domain =>
      ∀ d ∈ domain, d.set.Plain :=
    (keeps_tuple depth (.inr rfl) hp).bind fun shaped hshaped => keeps_pure (by simpa using hshaped)
  refine keeps_peek.bind fun t _ => ?_
  split
  · exact htuple
  · split
    · exact keeps_stop_bind _ _
    · refine keeps_startsDomain.bind fun b _ => ?_
      split
      · exact htuple
      · exact keeps_pure (by simp)

theorem keeps_pieceValue (depth : Nat) (hset : set.Plain) :
    KeepsSound (pieceValue depth set) Separate := by
  refine keeps_expectMark.bind fun _ _ => ((reliable depth).choice hset.unnamed).bind fun f hf =>
    keeps_expectMark.bind fun _ _ => (keeps_optionalCondition depth hset).bind fun r hr => ?_
  exact keeps_check fun g hok => (hf.intersectDomain hr.wellFormed hok).1

theorem keeps_locatedPiece (depth : Nat) {params : Relation} (hp : params.Plain) :
    KeepsSound (locatedPiece depth params) fun read => read.function.Separate ∧ read.space.Proper := by
  refine (keeps_parameterNames params).bind fun names _ =>
    (keeps_pieceDomain? depth hp).bind fun domain hdomain => ?_
  split
  · exact keeps_expectMark.bind fun _ _ =>
      (keeps_pieceValue depth (hdomain _ (Option.mem_some_self _))).bind fun f hf =>
        keeps_pure ⟨hf, Space.proper_ofSet _ _⟩
  · exact (keeps_pieceValue depth hp).bind fun f hf => keeps_pure ⟨hf, Space.proper_ofSet names .unit⟩

theorem keeps_piece (depth : Nat) {params : Relation} (hp : params.Plain) :
    KeepsSound (piece depth params) Separate :=
  (keeps_inScope (keeps_locatedPiece depth hp)).bind fun _ h => keeps_check fun _ =>
    h.1.resetSpace h.2

theorem keeps_morePieces (depth : Nat) {params : Relation} (hp : params.Plain) {whole : Piecewise}
    (hw : whole.Separate) : KeepsSound (morePieces params depth whole) Separate := by
  induction depth generalizing whole with
  | zero => exact keeps_throw _
  | succ depth ih =>
    rw [morePieces]
    refine keeps_enter.bind fun _ _ => keeps_eatIf.bind fun b _ => ?_
    split
    · refine keeps_nextIs.bind fun b _ => ?_
      split
      · exact keeps_pure hw
      · refine keeps_peek.bind fun start _ => (keeps_piece depth hp).bind fun part hpart => ?_
        split
        · exact keeps_stop_bind _ _
        · have hsum : KeepsSound (check (whole.unionAdd part)) Separate :=
            keeps_check fun _ => hw.unionAdd hpart
          exact hsum.bind fun _ h => ih h
    · exact keeps_pure hw

theorem keeps_piecewise (depth : Nat) : KeepsSound (piecewise depth) Separate :=
  (keeps_parameters depth).bind fun _ hp => keeps_expectMark.bind fun _ _ =>
    (keeps_piece depth hp).bind fun _ hf => (keeps_morePieces depth hp hf).bind fun _ hw =>
      keeps_expectMark.bind fun _ _ => keeps_expectEnd.bind fun _ _ => keeps_pure hw

end Bodies

end Grammar

/-- The pieces of a function that is read lie apart. -/
theorem Reader.separate_piecewise {source : String} {f : Piecewise}
    (h : (piecewise source).result = .ok f) : f.Separate :=
  (Grammar.keeps_piecewise (depthFor source) (initial source) (by simp [initial,
    TokenStream.ofText, TokenStream.Sound]) f h).2

end Quasiaffine
