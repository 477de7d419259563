import Quasiaffine.Proofs.Parse.Expressions

set_option autoImplicit false

namespace Quasiaffine

namespace Lexeme

@[simp] theorem startsCondition_symbol (l : Lexeme) :
    l.symbol.startsCondition = Grammar.startsCondition l := by
  cases l with
  | keyword w => cases w <;> rfl
  | mark m => cases m <;> rfl
  | _ => rfl

theorem kind_eq_identifier_iff {l : Lexeme} : l.kind = .identifier ↔ ∃ x, l = .identifier x := by
  cases l <;> simp [kind]

theorem startsConjunct_symbol_eq_false {l : Lexeme} (hc : ∀ r, l ≠ .condition r)
    (hw : ∀ s, l ≠ .keyword .exist s ∧ l ≠ .keyword .always s ∧ l ≠ .keyword .never s) :
    l.symbol.startsConjunct = false := by
  cases l with
  | condition r => exact absurd rfl (hc r)
  | keyword w s => cases w <;> first | rfl | simp at hw
  | _ => rfl

end Lexeme

namespace Parse

open Reading Grammar

variable {F : Frame} {b : Symbols} {depth : Nat} {set result : Relation}

/-- What all productions of conditions take when calls may nest `depth` deep. Variables come into
scope only while no symbol ahead stands for something read before. -/
structure DerivesConditions (depth : Nat) : Prop where
  choice {F : Frame} {b : Symbols} (hb : Clear b.tail) :
    Follows F b (choice depth F.space) (Yields F (Derives (.choice F.scope) b))
  condition {F : Frame} {b : Symbols} (hb : Clear b.tail) {set : Relation} (hset : set.LiesOver F) :
    Follows F b (condition depth set) (Covers F (Derives (.condition F.scope set.points) b))
  moreAlternatives {F : Frame} {b : Symbols} (hb : Clear b) {set result : Relation}
    (hset : set.LiesOver F) (hr : result.LiesOver F) :
    Follows F b (moreAlternatives depth set result)
      (Covers F (Derives (.alternatives F.scope set.points result.points) b))
  conjunction {F : Frame} {b : Symbols} (hb : Clear b.tail) {set : Relation}
    (hset : set.LiesOver F) :
    Follows F b (conjunction depth set) (Covers F (Derives (.conjunction F.scope set.points) b))
  moreConjuncts {F : Frame} {b : Symbols} (hb : Clear b) {set result : Relation}
    (hset : set.LiesOver F) (hr : result.LiesOver F) :
    Follows F b (moreConjuncts depth set result)
      (Covers F (Derives (.conjuncts F.scope set.points result.points) b))
  conjunct {F : Frame} {b : Symbols} (hb : Clear b.tail) {set : Relation} (hset : set.LiesOver F) :
    Follows F b (conjunct depth set) (Covers F (Derives (.conjunct F.scope set.points) b))
  comparisons {F : Frame} {b : Symbols} (hb : Clear b.tail) {set : Relation}
    (hset : set.LiesOver F) (hstarts : b.head.startsConjunct = false) :
    Follows F b (comparisons depth set) (Covers F (Derives (.bare F.scope set.points) b))
  moreComparisons {F : Frame} {b : Symbols} (hb : Clear b) {left : List Piecewise}
    (hne : left ≠ []) (hleft : ∀ f ∈ left, f.Regular) (op : Comparison) {set : Relation}
    (hset : set.LiesOver F) : Follows F b (moreComparisons depth F.space left op set)
      (Covers F (Derives (.chain F.scope (left.map Piecewise.valueAt) op set.points) b))
  quantifier {F : Frame} {b : Symbols} (hb : Clear b) {set : Relation} (hset : set.LiesOver F) :
    Follows F b (quantifier depth set)
      (Covers F (Derives (.bare F.scope set.points) (.cons (.word .exist) b)))
  quantified {F : Frame} {b : Symbols} (hb : Clear b) {set : Relation} (hset : set.LiesOver F) :
    Follows F b (quantified depth set) fun r G c => F.Extends G ∧ Clear c ∧ r.LiesOver G ∧
      Derives (.binders F.scope set.points) b (G.scope, r.points) c
  parenthesis {F : Frame} {b : Symbols} (hb : Clear b.tail) {set : Relation}
    (hset : set.LiesOver F) : Follows F b (parenthesis depth set) fun _ G c => G = F ∧
      ∃ l d, c = .cons l d ∧ Clear d ∧ Derives (.parenthesis F.scope set.points) b l d
  parenthesisedCondition {F : Frame} {b : Symbols} (hb : Clear b.tail) {set : Relation}
    (hset : set.LiesOver F) (opening : Span) :
    Follows F b (parenthesisedCondition depth set opening) fun _ G c => G = F ∧ ∃ Q d e,
      c = .cons (.points Q) e ∧ Clear e ∧ Derives (.condition F.scope set.points) b Q d ∧
        d.head = .mark .rightParen ∧ e = d.tail
  definition {F : Frame} {b : Symbols} (hb : Clear b.tail) {set : Relation} (hset : set.LiesOver F)
    {pos : Nat} (hpos : pos < F.size) :
    Follows F b (definition depth set pos) (Covers F fun Q c => ∃ v,
      Q = set.points ∩ Value.equals pos v ∧ Derives (.choice F.scope) b v c)

namespace DerivesConditions

variable (ih : DerivesConditions depth)
include ih

theorem choice_succ (hb : Clear b.tail) : Follows F b (Grammar.choice (depth + 1) F.space)
    (Yields F (Derives (.choice F.scope) b)) := by
  obtain ⟨hfull, hpoints⟩ := Relation.liesOver_full F
  rw [Grammar.choice]
  refine .enter_bind (.peek_bind fun first _ =>
    ((derivesExpressions depth).expression hb).bind ?_)
  rintro f F c ⟨rfl, hc, hf, hd⟩
  refine .peek_bind fun t hs => ?_
  have hcomparison : t.lexeme.comparison? = c.head.comparison? := by
    rw [← hs, Lexeme.comparison?_symbol]
  split
  · rename_i hop
    rw [hcomparison, Option.isSome_iff_ne_none] at hop
    refine .push_bind hf ((ih.condition (b := .cons (.value f.valueAt) c) hc hfull).bind ?_)
    rintro set F d ⟨rfl, hclear, hset, hQ⟩
    rw [hpoints] at hQ
    refine .expectMark_bind fun hquestion => (ih.choice hclear.tail.tail).bind ?_
    rintro g F e ⟨rfl, he, hg, hv⟩
    refine .expectMark_bind fun hcolon => (ih.choice he.tail.tail).bind ?_
    rintro h F e' ⟨rfl, he', hh, hw⟩
    refine .warn_bind (follows_check fun r hok => ?_)
    obtain ⟨hr, hvalue⟩ := Piecewise.Regular.select hset.wellFormed hset.tidy hg hh hok
    exact ⟨rfl, he', hr, hvalue ▸ .select hd hop hQ hquestion hv hcolon hw⟩
  · rename_i hop
    rw [hcomparison, Option.not_isSome_iff_eq_none] at hop
    exact follows_pure ⟨rfl, hc, hf, .only hd hop⟩

theorem condition_succ (hb : Clear b.tail) (hset : set.LiesOver F) :
    Follows F b (Grammar.condition (depth + 1) set)
      (Covers F (Derives (.condition F.scope set.points) b)) := by
  rw [Grammar.condition]
  refine .enter_bind (.peek_bind fun t hs => ?_)
  have hkind : t.kind = b.head.kind := by rw [← hs, Lexeme.kind_symbol]; rfl
  have hstop : t.kind = .mark .rightBrace ∨ t.kind = .mark .semicolon ↔ b.head.isStop = true := by
    rw [hkind, Symbol.kind_eq_mark_iff, Symbol.kind_eq_mark_iff, Symbol.isStop_iff]
  split
  · rename_i h
    refine follows_pure ⟨rfl, ?_, hset, .empty (hstop.1 h)⟩
    -- What ends a body stands for nothing read before.
    rintro (_ | n)
    · rcases Symbol.isStop_iff.1 (hstop.1 h) with h | h <;>
      · change ¬b.head.IsPlaceholder ∧ ∀ x, b.head = .name x → IsName x
        rw [h]
        simp [Symbol.IsPlaceholder, Symbol.kind]
    · exact hb n
  · rename_i h
    rw [hstop, Bool.not_eq_true] at h
    refine (ih.conjunction hb hset).bind ?_
    rintro r F c ⟨rfl, hc, hr, hd⟩
    refine (ih.moreAlternatives hc hset hr).mono ?_
    rintro r' F e ⟨rfl, he, hr', hd'⟩
    exact ⟨rfl, he, hr', .disjunction h hd hd'⟩

theorem moreAlternatives_succ (hb : Clear b) (hset : set.LiesOver F) (hr : result.LiesOver F) :
    Follows F b (Grammar.moreAlternatives (depth + 1) set result)
      (Covers F (Derives (.alternatives F.scope set.points result.points) b)) := by
  rw [Grammar.moreAlternatives]
  refine .enter_bind (.eatKeyword_bind (fun h => (ih.conjunction hb.tail.tail hset).bind ?_) fun h =>
    follows_pure ⟨rfl, hb, hr, .noOr h⟩)
  rintro r F c ⟨rfl, hc, hr', hd⟩
  refine .check_bind fun r' hok => ?_
  obtain ⟨hunion, hpoints⟩ := hr.union hr' hok
  refine (ih.moreAlternatives hc hset hunion).mono ?_
  rintro r'' F e ⟨rfl, he, hr'', hd'⟩
  rw [hpoints] at hd'
  exact ⟨rfl, he, hr'', .or h hd hd'⟩

theorem conjunction_succ (hb : Clear b.tail) (hset : set.LiesOver F) :
    Follows F b (Grammar.conjunction (depth + 1) set)
      (Covers F (Derives (.conjunction F.scope set.points) b)) := by
  rw [Grammar.conjunction]
  refine .enter_bind (.eatKeyword_bind (fun h => ?_) fun h => ?_)
  · refine (ih.conjunct hb.tail hset).bind ?_
    rintro r F c ⟨rfl, hc, hr, hd⟩
    refine .check_bind fun r' hok => ?_
    obtain ⟨hsub, hpoints⟩ := hset.subtract hr hok
    refine (ih.moreConjuncts hc hset hsub).mono ?_
    rintro r'' F e ⟨rfl, he, hr'', hd'⟩
    rw [hpoints] at hd'
    exact ⟨rfl, he, hr'', .negated h hd hd'⟩
  · refine (ih.conjunct hb hset).bind ?_
    rintro r F c ⟨rfl, hc, hr, hd⟩
    refine (ih.moreConjuncts hc hset hr).mono ?_
    rintro r' F e ⟨rfl, he, hr', hd'⟩
    exact ⟨rfl, he, hr', .positive h hd hd'⟩

theorem moreConjuncts_succ (hb : Clear b) (hset : set.LiesOver F) (hr : result.LiesOver F) :
    Follows F b (Grammar.moreConjuncts (depth + 1) set result)
      (Covers F (Derives (.conjuncts F.scope set.points result.points) b)) := by
  rw [Grammar.moreConjuncts]
  refine .enter_bind (.eatKeyword_bind (fun h => ?_) fun h =>
    follows_pure ⟨rfl, hb, hr, .noAnd h⟩)
  refine .eatKeyword_bind (fun hn => ?_) fun hn => ?_
  · refine (ih.conjunct hb.tail.tail.tail hset).bind ?_
    rintro r F c ⟨rfl, hc, hr', hd⟩
    refine .check_bind fun r' hok => ?_
    obtain ⟨hsub, hpoints⟩ := hr.subtract hr' hok
    refine (ih.moreConjuncts hc hset hsub).mono ?_
    rintro r'' F e ⟨rfl, he, hr'', hd'⟩
    rw [hpoints] at hd'
    exact ⟨rfl, he, hr'', .andNot h hn hd hd'⟩
  · refine (ih.conjunct hb.tail.tail hset).bind ?_
    rintro r F c ⟨rfl, hc, hr', hd⟩
    refine .check_bind fun r' hok => ?_
    obtain ⟨hboth, hpoints⟩ := hr.intersect hr'.wellFormed hok
    refine (ih.moreConjuncts hc hset hboth).mono ?_
    rintro r'' F e ⟨rfl, he, hr'', hd'⟩
    rw [hpoints] at hd'
    exact ⟨rfl, he, hr'', .and h hn hd hd'⟩

theorem bareConjunct (hb : Clear b.tail) (hset : set.LiesOver F) :
    Follows F b (bareConjunct depth set) (Covers F (Derives (.bare F.scope set.points) b)) := by
  refine .next_bind fun t hs ht => ?_
  split
  · rename_i r hl
    rw [hl] at ht
    exact follows_pure ⟨rfl, hb, ht, .points (Symbol.eq_of_lexeme hs hl)⟩
  · rename_i hl
    refine (ih.quantifier hb hset).mono ?_
    rintro r G c ⟨rfl, hc, hr, hd⟩
    have hword : b.head = .word .exist := Symbol.eq_of_lexeme hs hl
    rw [← hword, Stream'.eta] at hd
    exact ⟨rfl, hc, hr, hd⟩
  · rename_i hl
    exact follows_pure ⟨rfl, hb, hset, .always (Symbol.eq_of_lexeme hs hl)⟩
  · rename_i hl
    obtain ⟨hempty, hpoints⟩ := Relation.liesOver_empty F
    rw [hset.space]
    exact follows_pure ⟨rfl, hb, hempty, hpoints ▸ .never (Symbol.eq_of_lexeme hs hl)⟩
  · rename_i hc he ha hn
    refine .back_bind hs ht (ih.comparisons hb hset ?_)
    rw [← hs]
    exact Lexeme.startsConjunct_symbol_eq_false hc fun s => ⟨he s, ha s, hn s⟩

theorem conjunct_succ (hb : Clear b.tail) (hset : set.LiesOver F) :
    Follows F b (Grammar.conjunct (depth + 1) set)
      (Covers F (Derives (.conjunct F.scope set.points) b)) := by
  rw [Grammar.conjunct_succ]
  refine .enter_bind ((follows_tokens TokenStream.follows_nextIs).bind ?_)
  rintro opens F b ⟨⟨rfl, rfl⟩, rfl⟩
  split
  · rename_i hopens
    have hhead := Symbol.kind_eq_mark_iff.1 (beq_iff_eq.1 hopens)
    refine (ih.parenthesis hb hset).bind ?_
    rintro _ F _ ⟨rfl, l, c, rfl, hc, hp⟩
    refine (ih.bareConjunct (b := .cons l c) hc hset).mono ?_
    rintro r F e ⟨rfl, he, hr, hd⟩
    exact ⟨rfl, he, hr, .front hhead hp hd⟩
  · rename_i hopens
    refine (ih.bareConjunct hb hset).mono ?_
    rintro r F e ⟨rfl, he, hr, hd⟩
    exact ⟨rfl, he, hr, .plain (fun h => hopens (beq_iff_eq.2 (Symbol.kind_eq_mark_iff.2 h))) hd⟩

theorem comparisons_succ (hb : Clear b.tail) (hset : set.LiesOver F)
    (hstarts : b.head.startsConjunct = false) : Follows F b (Grammar.comparisons (depth + 1) set)
      (Covers F (Derives (.bare F.scope set.points) b)) := by
  rw [Grammar.comparisons, hset.space]
  refine .enter_bind (((derivesExpressions depth).expressions hb).bind ?_)
  rintro fs F c ⟨rfl, hc, hne, hfs, hd⟩
  refine .next_bind fun t hs _ => ?_
  split
  · rename_i op hop
    refine (ih.moreComparisons hc.tail hne hfs op hset).mono ?_
    rintro r F e ⟨rfl, he, hr, hd'⟩
    rw [← Lexeme.comparison?_symbol, hs] at hop
    exact ⟨rfl, he, hr, .comparisons hstarts hd hop hd'⟩
  · exact follows_stop _

theorem moreComparisons_succ (hb : Clear b) {left : List Piecewise} (hne : left ≠ [])
    (hleft : ∀ f ∈ left, f.Regular) (op : Comparison) (hset : set.LiesOver F) :
    Follows F b (Grammar.moreComparisons (depth + 1) F.space left op set)
      (Covers F (Derives (.chain F.scope (left.map Piecewise.valueAt) op set.points) b)) := by
  rw [Grammar.moreComparisons]
  refine .enter_bind (((derivesExpressions depth).expressions hb.tail).bind ?_)
  rintro fs F c ⟨rfl, hc, hne', hfs, hd⟩
  refine .check_bind fun holds hok => .check_bind fun both hok' => ?_
  obtain ⟨hwf, hholds⟩ := Piecewise.points_of_compareListSet hleft hfs hne hne' hok
  obtain ⟨hboth, hpoints⟩ := hset.intersect hwf hok'
  rw [hholds] at hpoints
  refine .next_bind fun t hs ht => ?_
  split
  · rename_i op' hop
    refine (ih.moreComparisons hc.tail hne' hfs op' hboth).mono ?_
    rintro r F e ⟨rfl, he, hr, hd'⟩
    rw [← Lexeme.comparison?_symbol, hs] at hop
    rw [hpoints] at hd'
    exact ⟨rfl, he, hr, .moreComparisons hd hop hd'⟩
  · rename_i hop
    rw [← Lexeme.comparison?_symbol, hs] at hop
    exact .back_bind hs ht (follows_pure ⟨rfl, hc, hboth, hpoints ▸ .lastComparison hd hop⟩)

/-- From the variables of a quantifier on. What the rules give for the whole is left to `hgive`,
which depends on whether parentheses stand around the variables and the condition. -/
theorem quantifierBody {P : Set Row → Symbols → Prop} (hb : Clear b) (hset : set.LiesOver F)
    (inParens : Bool) (hgive : ∀ {G : Frame} {Q R : Set Row} {c d : Symbols},
      Derives (.binders F.scope set.points) b (G.scope, Q) c → c.head = .mark .colon →
      Derives (.condition G.scope Q) c.tail R d → (inParens = true → d.head = .mark .rightParen) →
      P (project F.scope.size R) (if inParens then d.tail else d)) :
    Follows F b (quantifierBody depth set F.scope.size inParens) (Covers F P) := by
  have hfirst : set.dim .output = F.size - F.params := by
    rw [Relation.dim, hset.space, Frame.space, Relation.dim_anonymousSet_output]
  refine (ih.quantified hb hset).bind ?_
  rintro inner G c ⟨hext, hc, hinner, hbinders⟩
  refine .expectMark_bind fun hcolon => (ih.condition hc.tail.tail hinner).bind ?_
  rintro r G d ⟨rfl, hd, hr, hR⟩
  have hdim : r.dim .output = F.size - F.params + (G.size - F.size) := by
    rw [Relation.dim, hr.space, hext.space, Relation.dim_anonymousSet_output]
  rw [hfirst, hdim, Nat.add_sub_cancel_left]
  refine .check_bind fun projected hok => .check_bind fun recovered hok' => ?_
  obtain ⟨hprojected, hpoints⟩ := hr.projectOut hext hok
  obtain ⟨hrecovered, hpoints'⟩ := hprojected.recoverDefinitions hok'
  refine .scope_bind (f := (·.rollback F.scope.size)) hd hext.rollback ?_
  have hgive := hgive hbinders hcolon hR
  rw [show F.scope.size = F.size from rfl, ← hpoints, ← hpoints'] at hgive
  cases inParens with
  | true => exact .expectMark_bind fun hclose =>
      follows_pure ⟨rfl, hd.tail, hrecovered, hgive fun _ => hclose⟩
  | false => exact follows_pure ⟨rfl, hd, hrecovered, hgive fun h => absurd h Bool.false_ne_true⟩

theorem quantifier_succ (hb : Clear b) (hset : set.LiesOver F) :
    Follows F b (Grammar.quantifier (depth + 1) set)
      (Covers F (Derives (.bare F.scope set.points) (.cons (.word .exist) b))) := by
  rw [Grammar.quantifier_succ]
  refine .enter_bind (.get_bind fun s hsc _ _ => ?_)
  rw [hsc]
  refine .eatMark_bind (fun hopen => ?_) fun hopen => ?_
  · exact ih.quantifierBody hb.tail hset true fun hv hc hR hd =>
      .existParen (b := .cons (.word .exist) b) rfl hopen hv hc hR (hd rfl)
  · exact ih.quantifierBody hb hset false fun hv hc hR _ =>
      .exist (b := .cons (.word .exist) b) rfl hopen hv hc hR

theorem moreQuantified {G : Frame} {c : Symbols} (hext : F.Extends G) (hc : Clear c)
    {r : Relation} (hr : r.LiesOver G) (hx : b.head.kind = .identifier)
    (hd : Derives (.binder F.scope set.points) b (G.scope, r.points) c) :
    Follows G c (moreQuantified depth r) fun r H d => F.Extends H ∧ Clear d ∧ r.LiesOver H ∧
      Derives (.binders F.scope set.points) b (H.scope, r.points) d := by
  refine .eatMark_bind (fun h => (ih.quantified hc.tail hr).mono ?_) fun h =>
    follows_pure ⟨hext, hc, hr, .lastBinder hx hd h⟩
  rintro r' H d ⟨hext', hclear, hr', hd'⟩
  exact ⟨hext.trans hext', hclear, hr', .moreBinders hx hd h hd'⟩

theorem quantified_succ (hb : Clear b) (hset : set.LiesOver F) :
    Follows F b (Grammar.quantified (depth + 1) set) fun r G c => F.Extends G ∧ Clear c ∧
      r.LiesOver G ∧ Derives (.binders F.scope set.points) b (G.scope, r.points) c := by
  rw [Grammar.quantified_succ]
  refine .enter_bind (.next_bind fun t hs ht => ?_)
  split
  · rename_i x hl
    have hx : b.head = .name x := Symbol.eq_of_lexeme hs hl
    have hkind : b.head.kind = .identifier := by rw [hx]; rfl
    refine .position?_bind ?_
    split
    · exact follows_stop_bind _ _
    · rename_i hfresh
      rw [Option.not_isSome_iff_eq_none] at hfresh
      refine .declare_bind (G := F.declare (some x)) hb.tail rfl (.check_bind fun r hok => ?_)
      obtain ⟨hr, hpoints⟩ := hset.addOutput (some x) hok
      have hext := F.extends_declare (some x)
      refine .eatMark_bind (fun heq => (ih.definition hb.tail.tail.tail hr ?_).bind ?_) fun heq => ?_
      · rw [Frame.size_declare]
        exact Nat.lt_succ_self _
      · rintro r' G c ⟨rfl, hc, hr', v, hv, hd⟩
        refine ih.moreQuantified hext hc hr' hkind ?_
        rw [hv, hpoints]
        exact .defined hx hfresh heq hd
      · refine ih.moreQuantified hext hb.tail hr hkind ?_
        rw [hpoints]
        exact .free hx hfresh heq
  · rename_i hl
    refine .back_bind hs ht (follows_pure ⟨⟨rfl, List.prefix_refl _⟩, hb, hset, .noBinders ?_⟩)
    rw [← hs, Lexeme.kind_symbol]
    intro hk
    rw [Lexeme.kind_eq_identifier_iff] at hk
    exact hk.elim hl

theorem insideParenthesis (hb : Clear b.tail) (hset : set.LiesOver F) (opening : Span) :
    Follows F b (insideParenthesis depth set opening) fun _ G c => G = F ∧
      ∃ l d, c = .cons l d ∧ Clear d ∧ Derives (.inner F.scope set.points) b l d := by
  refine .peek_bind fun t hs => ?_
  rw [← Lexeme.startsCondition_symbol, hs]
  split
  · rename_i hstarts
    refine (ih.parenthesisedCondition hb hset opening).mono ?_
    rintro _ G _ ⟨rfl, Q, d, d', rfl, he, hQ, hclose, rfl⟩
    exact ⟨rfl, _, _, rfl, he, .innerCondition hstarts hQ hclose⟩
  · rename_i hstarts
    rw [Bool.not_eq_true] at hstarts
    rw [hset.space]
    refine ((derivesExpressions depth).expression hb).bind ?_
    rintro f F c ⟨rfl, hc, hf, hd⟩
    refine .eatMark_bind (fun hclose => ?_) fun hclose => ?_
    · exact .push_bind hf (follows_pure ⟨rfl, _, _, rfl, hc.tail, .innerSum hstarts hd hclose⟩)
    · refine .push_bind hf
        ((ih.parenthesisedCondition (b := .cons (.value f.valueAt) c) hc hset opening).mono ?_)
      rintro _ G _ ⟨rfl, Q, d, d', rfl, he, hQ, hclose', rfl⟩
      exact ⟨rfl, _, _, rfl, he, .innerComparison hstarts hd hclose hQ hclose'⟩

theorem parenthesis_succ (hb : Clear b.tail) (hset : set.LiesOver F) :
    Follows F b (Grammar.parenthesis (depth + 1) set) fun _ G c => G = F ∧
      ∃ l d, c = .cons l d ∧ Clear d ∧ Derives (.parenthesis F.scope set.points) b l d := by
  rw [Grammar.parenthesis_succ]
  refine .enter_bind (.expect_bind fun opening hopen => .nextIs_bind (fun hn => ?_) fun hn => ?_)
  · refine (ih.parenthesis hb.tail hset).bind ?_
    rintro _ F _ ⟨rfl, l, c, rfl, hc, hp⟩
    refine (ih.insideParenthesis (b := .cons l c) hc hset opening.span).mono ?_
    rintro _ G _ ⟨rfl, l', d, rfl, hd, hi⟩
    exact ⟨rfl, _, _, rfl, hd, .nested hopen hn hp hi⟩
  · refine (ih.insideParenthesis hb.tail hset opening.span).mono ?_
    rintro _ G _ ⟨rfl, l, d, rfl, hd, hi⟩
    exact ⟨rfl, _, _, rfl, hd, .opened hopen hn hi⟩

theorem parenthesisedCondition_succ (hb : Clear b.tail) (hset : set.LiesOver F) (opening : Span) :
    Follows F b (Grammar.parenthesisedCondition (depth + 1) set opening) fun _ G c => G = F ∧
      ∃ Q d e, c = .cons (.points Q) e ∧ Clear e ∧ Derives (.condition F.scope set.points) b Q d ∧
        d.head = .mark .rightParen ∧ e = d.tail := by
  rw [Grammar.parenthesisedCondition]
  refine .enter_bind ((ih.condition hb hset).bind ?_)
  rintro r F c ⟨rfl, hc, hr, hd⟩
  refine .expect_bind fun closing hclose => (follows_push (t := .made (.condition r) _) hr).mono ?_
  rintro _ G _ ⟨rfl, rfl⟩
  exact ⟨rfl, _, _, _, rfl, hc.tail, hd, hclose, rfl⟩

theorem definition_succ (hb : Clear b.tail) (hset : set.LiesOver F) {pos : Nat}
    (hpos : pos < F.size) : Follows F b (Grammar.definition (depth + 1) set pos)
      (Covers F fun Q c => ∃ v,
        Q = set.points ∩ Value.equals pos v ∧ Derives (.choice F.scope) b v c) := by
  rw [Grammar.definition, hset.space]
  refine .enter_bind ((ih.choice hb).bind ?_)
  rintro f F c ⟨rfl, hc, hf, hd⟩
  refine .check_bind fun name hname => .check_bind fun equal hequal => follows_check fun r hok => ?_
  obtain ⟨hreg, hvalue⟩ := F.regular_variableAt hpos hname
  obtain ⟨hwf, hspace, hmem⟩ := hreg.compareSet hf hequal
  obtain ⟨hr, hpoints⟩ := hset.intersect hwf hok
  refine ⟨rfl, hc, hr, f.valueAt, ?_, hd⟩
  rw [hpoints]
  refine Set.ext fun x => and_congr_right fun hx => ?_
  refine (hmem x).trans ?_
  rw [hvalue, Value.coordinate, if_pos (hset.length_of_mem hx)]
  constructor
  · rintro ⟨p, hp, q, hq, hop⟩
    obtain rfl := Option.some.inj hp
    exact hq.trans (congrArg some (decide_eq_true_eq.mp hop).symm)
  · intro hq
    exact ⟨_, rfl, _, hq, decide_eq_true rfl⟩

end DerivesConditions

theorem derivesConditions : ∀ depth, DerivesConditions depth
  | 0 => by constructor <;> intros <;> exact follows_throw _
  | depth + 1 =>
    have ih := derivesConditions depth
    { choice := ih.choice_succ
      condition := fun hb _ hset => ih.condition_succ hb hset
      moreAlternatives := fun hb _ _ hset hr => ih.moreAlternatives_succ hb hset hr
      conjunction := fun hb _ hset => ih.conjunction_succ hb hset
      moreConjuncts := fun hb _ _ hset hr => ih.moreConjuncts_succ hb hset hr
      conjunct := fun hb _ hset => ih.conjunct_succ hb hset
      comparisons := fun hb _ hset hstarts => ih.comparisons_succ hb hset hstarts
      moreComparisons := fun hb _ hne hleft op _ hset =>
        ih.moreComparisons_succ hb hne hleft op hset
      quantifier := fun hb _ hset => ih.quantifier_succ hb hset
      quantified := fun hb _ hset => ih.quantified_succ hb hset
      parenthesis := fun hb _ hset => ih.parenthesis_succ hb hset
      parenthesisedCondition := fun hb _ hset opening =>
        ih.parenthesisedCondition_succ hb hset opening
      definition := fun hb _ hset _ hpos => ih.definition_succ hb hset hpos }

end Parse

end Quasiaffine
