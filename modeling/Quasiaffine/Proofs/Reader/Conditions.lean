import Quasiaffine.Proofs.Reader.Clause
import Quasiaffine.Proofs.Reader.Expressions
import Quasiaffine.Proofs.Reader.FormulaParts

set_option autoImplicit false

namespace Quasiaffine

open Reading Phrase

namespace Frame.Means

variable {F : Frame} {quantifiers : Prop} {a b : Relation} {P P' : Row → Prop}

theorem congr (h : F.Means quantifiers a P)
    (hP : ∀ x : Row, x.length = F.size → (P x ↔ P' x)) : F.Means quantifiers a P' where
  describes := h.describes.congr fun x hx => hP x (by rwa [F.total_space] at hx)
  known := h.known

theorem mono {q : Prop} (h : F.Means quantifiers a P) (hq : quantifiers → q) : F.Means q a P where
  describes := h.describes
  known := h.known.imp_left hq

theorem intersect_eq_ok (ha : F.Means quantifiers a P) (hb : F.Means quantifiers b P') :
    ∃ r, a.intersect b = .ok r ∧ F.Means quantifiers r fun x => P x ∧ P' x := by
  obtain ⟨r, hok, hr, hk⟩ := ha.describes.intersect_eq_ok hb.describes
  exact ⟨r, hok, hr, ha.known.elim .inl fun hka => hb.known.imp_right fun hkb => hk hka hkb⟩

theorem union_eq_ok (ha : F.Means quantifiers a P) (hb : F.Means quantifiers b P') :
    ∃ r, a.union b = .ok r ∧ F.Means quantifiers r fun x => P x ∨ P' x := by
  obtain ⟨r, hok, hr, hk⟩ := ha.describes.union_eq_ok hb.describes
  exact ⟨r, hok, hr, ha.known.elim .inl fun hka => hb.known.imp_right fun hkb => hk hka hkb⟩

theorem subtract_spec {q : Prop} (ha : F.Means quantifiers a P) (hb : F.Means q b P') :
    (∃ r, a.subtract b = .ok r ∧ F.Means quantifiers r fun x => P x ∧ ¬P' x) ∨
      q ∧ a.subtract b = .error (.unsupported .subtractingQuantified) := by
  rcases ha.describes.subtract_spec hb.describes with ⟨r, hok, hr, hk⟩ | ⟨herr, hb'⟩
  · exact .inl ⟨r, hok, hr, ha.known.imp_right hk⟩
  · exact .inr ⟨hb.known.resolve_right hb', herr⟩

theorem addOutput_eq_ok (ha : F.Means quantifiers a P) (label : Label) :
    ∃ r, a.addDims .output 1 = .ok r ∧
      (F.declare label).Means quantifiers r fun x => P (x.take F.size) := by
  obtain ⟨r, hok, hr, hk⟩ := ha.describes.addOutput_eq_ok
  have hwithin := F.within
  have hsize : F.size = F.scope.size := rfl
  have hspace : (F.declare label).space = .anonymousSet F.params (F.size - F.params + 1) := by
    rw [space, size_declare]
    congr 1
    change F.size + 1 - F.params = _
    omega
  have htake : F.params + (F.size - F.params) = F.size := Nat.add_sub_of_le F.within
  rw [htake] at hr
  exact ⟨r, hok, hspace ▸ hr, ha.known.imp_right hk⟩

end Frame.Means

namespace Grammar

variable {F G : Frame} {fails quantifiers : Prop} {P C D : Row → Prop} {ls : List Lexeme}
  {set : Relation}

section Definitions

theorem reads_choice {v : Row → ℚ} (h : Sum F ls v) {depth : Nat}
    (hd : 32 * ls.length + 6 ≤ depth) {r : Lexeme} (hr : r.reach ≤ 4) (hc : r.comparison? = none)
    (rest : List Lexeme) :
    Reads fails F.scope (ls ++ r :: rest) (choice depth F.space)
      (Gives (·.Denotes F.space v) F.scope (r :: rest)) := by
  obtain ⟨depth, rfl⟩ := Nat.exists_eq_succ_of_ne_zero (n := depth) (by omega)
  obtain ⟨l, ls', rfl, -⟩ := h.starts
  rw [choice]
  refine Reads.enter_bind (reads_peek.step fun first _ => ?_)
  refine ((readsExpressions F fails depth).sum h.wording (by omega) hr rest).step fun f hf => ?_
  refine reads_peek.step fun t ht => ?_
  rw [ht, hc]
  exact reads_pure (gives hf)

theorem reads_definition {v : Row → ℚ} (h : Sum F ls v) (hset : F.Means False set P)
    {pos : Nat} (hpos : pos < F.size) {depth : Nat} (hd : 32 * ls.length + 7 ≤ depth) {r : Lexeme}
    (hr : r.reach ≤ 4) (hc : r.comparison? = none) (rest : List Lexeme) :
    Reads fails F.scope (ls ++ r :: rest) (definition depth set pos)
      (Gives (F.Means False · fun x => P x ∧ (x.entry pos : ℚ) = v x) F.scope
        (r :: rest)) := by
  obtain ⟨depth, rfl⟩ := Nat.exists_eq_succ_of_ne_zero (n := depth) (by omega)
  rw [definition, hset.describes.space]
  refine Reads.enter_bind ((reads_choice h (by omega) hr hc rest).step fun value hvalue => ?_)
  obtain ⟨name, hname, hn⟩ := F.variableAt_eq_ok hpos
  refine (reads_check (P := (· = name)) hname rfl).step fun name' hname' => ?_
  subst hname'
  obtain ⟨c, hcok, hk, hc⟩ := hn.compareSet_eq_ok hvalue .eq
  refine (reads_check (P := (· = c)) hcok rfl).step fun c' hc' => ?_
  subst hc'
  obtain ⟨r', hok, hr'⟩ := hset.intersect_eq_ok ⟨hc, .inr hk⟩
  refine reads_check hok (hr'.congr fun x _ => ?_)
  simp [Comparison.holds]

end Definitions

section Ends

variable {sc : Scope} {r : Lexeme} {rest : List Lexeme} {result : Relation} {post : Relation → Prop}
  {depth : Nat}

theorem reads_moreAlternatives_end (hd : 0 < depth) (hr : r.reach ≤ 0) (h : post result) :
    Reads fails sc (r :: rest) (moreAlternatives depth set result)
      (Gives post sc (r :: rest)) := by
  obtain ⟨depth, rfl⟩ := Nat.exists_eq_succ_of_ne_zero (n := depth) (by omega)
  rw [moreAlternatives]
  refine Reads.enter_bind ((reads_eatIf_not (r.kind_ne_of_reach_le hr (by decide))).step
    fun b hb => ?_)
  subst hb
  exact reads_pure (gives h)

theorem reads_moreConjuncts_end (hd : 0 < depth) (hr : r.reach ≤ 1) (h : post result) :
    Reads fails sc (r :: rest) (moreConjuncts depth set result)
      (Gives post sc (r :: rest)) := by
  obtain ⟨depth, rfl⟩ := Nat.exists_eq_succ_of_ne_zero (n := depth) (by omega)
  rw [moreConjuncts]
  refine Reads.enter_bind ((reads_eatIf_not (r.kind_ne_of_reach_le hr (by decide))).step
    fun b hb => ?_)
  subst hb
  exact reads_pure (gives h)

end Ends

/-- With `not` in front of it or without, a conjunct says that `C` holds. Its set is `other`, which
may have quantifiers where `not` may fail. -/
def MeansSigned (fails quantifiers : Prop) (F : Frame) (P C : Row → Prop) (negated : Bool)
    (other : Relation) : Prop :=
  ∃ (q : Prop) (C₀ : Row → Prop), F.Means q other (fun x => P x ∧ C₀ x) ∧
    (q → if negated then fails else quantifiers) ∧ ∀ x, C x ↔ if negated then ¬C₀ x else C₀ x

namespace MeansSigned

variable {other result : Relation}

theorem of_plain (h : MeansSigned fails quantifiers F P C false other) :
    F.Means quantifiers other fun x => P x ∧ C x := by
  obtain ⟨q, C₀, hother, hq, hC⟩ := h
  exact (hother.congr fun x _ => and_congr_right fun _ => (hC x).symm).mono hq

theorem reads_subtract {P' : Row → Prop} {q : Prop} {sc : Scope}
    (h : MeansSigned fails quantifiers F P C true other)
    (hresult : F.Means q result P') (hP : ∀ x, P' x → P x) :
    Reads fails sc ls (check (result.subtract other))
      (Gives (F.Means q · fun x => P' x ∧ C x) sc ls) := by
  obtain ⟨q', C₀, hother, hq', hC⟩ := h
  refine reads_check_or ?_
  rcases hresult.subtract_spec hother with ⟨r, hok, hr⟩ | ⟨hfail, herr⟩
  · refine .inl ⟨r, hok, hr.congr fun x _ => and_congr_right fun hx => ?_⟩
    rw [hC x, if_pos rfl]
    exact not_congr (and_iff_right (hP x hx))
  · exact .inr ⟨hq' hfail, herr⟩

end MeansSigned

/-- What the productions of conditions do with phrases when calls may nest `depth` deep. -/
structure ReadsConditions (fails : Prop) (depth : Nat) : Prop where
  condition {quantifiers : Prop} {F : Frame} {P C : Row → Prop} {ls : List Lexeme} {set : Relation}
    (h : Condition fails quantifiers F P ls C) (hset : F.Means False set P)
    (hd : 32 * ls.length + 11 ≤ depth) {r : Lexeme} (hr : r.reach = 0) (rest : List Lexeme) :
    Reads fails F.scope (ls ++ r :: rest) (condition depth set)
      (Gives (F.Means quantifiers · fun x => P x ∧ C x) F.scope (r :: rest))
  moreAlternatives {quantifiers : Prop} {F : Frame} {P C C' : Row → Prop} {ls : List Lexeme}
    {set result : Relation}
    (h : Condition fails quantifiers F P ls C') (hset : F.Means False set P)
    (hresult : F.Means quantifiers result fun x => P x ∧ C x) (hd : 32 * ls.length + 12 ≤ depth)
    {r : Lexeme} (hr : r.reach = 0) (rest : List Lexeme) :
    Reads fails F.scope (.keyword .or true :: (ls ++ r :: rest))
      (moreAlternatives depth set result)
      (Gives (F.Means quantifiers · fun x => P x ∧ (C x ∨ C' x)) F.scope (r :: rest))
  conjunction {quantifiers : Prop} {F : Frame} {P C : Row → Prop} {last : Bool} {ls : List Lexeme}
    {set : Relation}
    (h : Conjunction fails quantifiers F P last ls C) (hset : F.Means False set P)
    (hd : 32 * ls.length + 10 ≤ depth) {r : Lexeme} (hr : r.reach ≤ if last then 0 else 1)
    (rest : List Lexeme) :
    Reads fails F.scope (ls ++ r :: rest) (conjunction depth set)
      (Gives (F.Means quantifiers · fun x => P x ∧ C x) F.scope (r :: rest))
  moreConjuncts {quantifiers : Prop} {F : Frame} {P C C' : Row → Prop} {last : Bool}
    {ls : List Lexeme}
    {set result : Relation} (h : Conjunction fails quantifiers F P last ls C')
    (hset : F.Means False set P) (hresult : F.Means quantifiers result fun x => P x ∧ C x)
    (hd : 32 * ls.length + 11 ≤ depth) {r : Lexeme} (hr : r.reach ≤ if last then 0 else 1)
    (rest : List Lexeme) :
    Reads fails F.scope (.keyword .and true :: (ls ++ r :: rest))
      (moreConjuncts depth set result)
      (Gives (F.Means quantifiers · fun x => P x ∧ (C x ∧ C' x)) F.scope (r :: rest))
  conjunct {quantifiers : Prop} {F : Frame} {P C : Row → Prop} {last : Bool} {ls : List Lexeme}
    {set : Relation}
    (h : Conjunct fails quantifiers F P last ls C) (hset : F.Means False set P)
    (hd : 32 * ls.length + 9 ≤ depth) {r : Lexeme} (hr : r.reach ≤ if last then 0 else 2)
    (rest : List Lexeme) :
    Reads fails F.scope (ls ++ r :: rest) (conjunct depth set)
      (Gives (F.Means quantifiers · fun x => P x ∧ C x) F.scope (r :: rest))
  comparisons {F : Frame} {P C : Row → Prop} {ls : List Lexeme} {set : Relation}
    (h : Comparisons F ls C) (hset : F.Means False set P) (hd : 32 * ls.length + 8 ≤ depth)
    {r : Lexeme} (hr : r.reach ≤ 2) (rest : List Lexeme) :
    Reads fails F.scope (ls ++ r :: rest) (comparisons depth set)
      (Gives (F.Means False · fun x => P x ∧ C x) F.scope (r :: rest))
  moreComparisons {F : Frame} {P C : Row → Prop} {l : Lexeme} {ls : List Lexeme} {set : Relation}
    {left : List Piecewise} {us : List (Row → ℚ)} {op : Comparison}
    (hleft : Piecewise.DenoteAll F.space left us) (hne : left ≠ []) (hl : l.comparison? = some op)
    (h : Chain F us (l :: ls) C) (hset : F.Means False set P)
    (hd : 32 * ls.length + 7 ≤ depth) {r : Lexeme} (hr : r.reach ≤ 2) (rest : List Lexeme) :
    Reads fails F.scope (ls ++ r :: rest) (moreComparisons depth F.space left op set)
      (Gives (F.Means False · fun x => P x ∧ C x) F.scope (r :: rest))
  quantified {F G : Frame} {P D : Row → Prop} {ls : List Lexeme} {set : Relation}
    (h : Variables F ls G D) (hset : F.Means False set P) (hd : 32 * ls.length + 1 ≤ depth)
    (rest : List Lexeme) :
    Reads fails F.scope (ls ++ .mark .colon :: rest) (quantified depth set)
      (Gives (G.Means False · fun x => P (x.take F.size) ∧ D x) G.scope
        (.mark .colon :: rest))
  quantifier {quantifiers : Prop} {F G : Frame} {P D C : Row → Prop} {ls ls' : List Lexeme}
    {set : Relation}
    (hq : quantifiers) (hv : Variables F ls G D)
    (h : Condition fails quantifiers G (fun x => P (x.take F.size) ∧ D x) ls' C)
    (hset : F.Means False set P) (hd : 32 * (ls.length + ls'.length) + 12 ≤ depth)
    {r : Lexeme} (hr : r.reach = 0) (rest : List Lexeme) :
    Reads fails F.scope (ls ++ .mark .colon :: (ls' ++ r :: rest)) (quantifier depth set)
      (Gives (F.Means quantifiers · fun x => P x ∧
        ∃ y : Row, y.length = G.size - F.size ∧ D (x ++ y) ∧ C (x ++ y)) F.scope (r :: rest))
  quantifierParen {quantifiers : Prop} {F G : Frame} {P D C : Row → Prop} {ls ls' : List Lexeme}
    {set : Relation}
    (hq : quantifiers) (hv : Variables F ls G D)
    (h : Condition fails quantifiers G (fun x => P (x.take F.size) ∧ D x) ls' C)
    (hset : F.Means False set P) (hd : 32 * (ls.length + ls'.length) + 12 ≤ depth)
    (rest : List Lexeme) :
    Reads fails F.scope
      (.mark .leftParen :: (ls ++ .mark .colon :: (ls' ++ .mark .rightParen :: rest)))
      (Grammar.quantifier depth set)
      (Gives (F.Means quantifiers · fun x => P x ∧
        ∃ y : Row, y.length = G.size - F.size ∧ D (x ++ y) ∧ C (x ++ y)) F.scope rest)
  parenthesisSum {F : Frame} {P : Row → Prop} {v : Row → ℚ} {ls : List Lexeme} {set : Relation}
    (h : Sum F ls v) (hset : F.Means False set P) (hd : 32 * ls.length + 13 ≤ depth)
    (rest : List Lexeme) :
    Reads fails F.scope (.mark .leftParen :: (ls ++ .mark .rightParen :: rest))
      (parenthesis depth set) fun _ sc ls => sc = F.scope ∧
        ∃ f : Piecewise, f.Denotes F.space v ∧ ls = .expression f :: rest
  parenthesisCondition {quantifiers : Prop} {F : Frame} {P C : Row → Prop} {ls : List Lexeme}
    {set : Relation}
    (h : Condition fails quantifiers F P ls C) (hset : F.Means False set P)
    (hd : 32 * ls.length + 13 ≤ depth) (rest : List Lexeme) :
    Reads fails F.scope (.mark .leftParen :: (ls ++ .mark .rightParen :: rest))
      (parenthesis depth set) fun _ sc ls => sc = F.scope ∧
        ∃ r, F.Means quantifiers r (fun x => P x ∧ C x) ∧ ls = .condition r :: rest
  parenthesisedCondition {quantifiers : Prop} {F : Frame} {P C : Row → Prop} {ls : List Lexeme}
    {set : Relation}
    (h : Condition fails quantifiers F P ls C) (hset : F.Means False set P)
    (hd : 32 * ls.length + 12 ≤ depth) (opening : Span) (rest : List Lexeme) :
    Reads fails F.scope (ls ++ .mark .rightParen :: rest)
      (parenthesisedCondition depth set opening) fun _ sc ls => sc = F.scope ∧
        ∃ r, F.Means quantifiers r (fun x => P x ∧ C x) ∧ ls = .condition r :: rest

namespace ReadsConditions

variable {depth : Nat} (ih : ReadsConditions fails depth)

include ih

theorem condition_succ {ls : List Lexeme} (h : Condition fails quantifiers F P ls C)
    (hset : F.Means False set P) (hd : 32 * ls.length + 11 ≤ depth + 1) {r : Lexeme}
    (hr : r.reach = 0) (rest : List Lexeme) :
    Reads fails F.scope (ls ++ r :: rest) (Grammar.condition (depth + 1) set)
      (Gives (F.Means quantifiers · fun x => P x ∧ C x) F.scope (r :: rest)) := by
  obtain ⟨l, ls₀, hls, hl⟩ := h.starts
  have hpeek : Reads fails F.scope (ls ++ r :: rest) peek
      (Gives (·.lexeme = l) F.scope (ls ++ r :: rest)) := by
    rw [hls]
    exact reads_peek
  rw [Grammar.condition]
  refine Reads.enter_bind (hpeek.step fun t ht => ?_)
  rw [Token.kind, ht, if_neg (not_or.2 ⟨hl.kind_ne (by decide), hl.kind_ne (by decide)⟩)]
  cases h with
  | single h =>
    refine (ih.conjunction h hset (by omega) (by simp [hr]) rest).step fun result hresult => ?_
    exact reads_moreAlternatives_end (by omega) (by omega) hresult
  | cons h hs =>
    rw [List.length_append, List.length_cons] at hd
    rw [List.append_assoc]
    refine (ih.conjunction h hset (by omega) (by decide) _).step fun result hresult => ?_
    exact ih.moreAlternatives hs hset hresult (by omega) hr rest

theorem moreAlternatives_succ {C' : Row → Prop} {result : Relation}
    (h : Condition fails quantifiers F P ls C') (hset : F.Means False set P)
    (hresult : F.Means quantifiers result fun x => P x ∧ C x)
    (hd : 32 * ls.length + 12 ≤ depth + 1) {r : Lexeme} (hr : r.reach = 0) (rest : List Lexeme) :
    Reads fails F.scope (.keyword .or true :: (ls ++ r :: rest))
      (Grammar.moreAlternatives (depth + 1) set result)
      (Gives (F.Means quantifiers · fun x => P x ∧ (C x ∨ C' x)) F.scope (r :: rest)) := by
  rw [Grammar.moreAlternatives]
  refine Reads.enter_bind ((reads_eatIf rfl).step fun b hb => ?_)
  subst hb
  cases h with
  | single h =>
    refine (ih.conjunction h hset (by omega) (by simp [hr]) rest).step fun other hother => ?_
    obtain ⟨both, hok, hboth⟩ := hresult.union_eq_ok hother
    refine (reads_check (P := (· = both)) hok rfl).step fun both' hb => ?_
    subst hb
    refine reads_moreAlternatives_end (by omega) (by omega) (hboth.congr fun x _ => ?_)
    exact and_or_left.symm
  | cons h hs =>
    rw [List.length_append, List.length_cons] at hd
    rw [List.append_assoc]
    refine (ih.conjunction h hset (by omega) (by decide) _).step fun other hother => ?_
    obtain ⟨both, hok, hboth⟩ := hresult.union_eq_ok hother
    refine (reads_check (P := (· = both)) hok rfl).step fun both' hb => ?_
    subst hb
    refine (ih.moreAlternatives hs hset (hboth.congr fun x _ => and_or_left.symm) (by omega) hr
      rest).congr fun r hr => hr.congr fun x _ => ?_
    rw [or_assoc]

theorem signed {last : Bool} (h : Signed fails quantifiers F P last ls C)
    (hset : F.Means False set P) (hd : 32 * ls.length + 9 ≤ depth) {r : Lexeme}
    (hr : r.reach ≤ if last then 0 else 2) (rest : List Lexeme)
    {k : Bool → Relation → Reading Relation} {post : Relation → Scope → List Lexeme → Prop}
    (hk : ∀ (negated : Bool) (other : Relation), MeansSigned fails quantifiers F P C negated other →
      Reads fails F.scope (r :: rest) (k negated other) post) :
    Reads fails F.scope (ls ++ r :: rest)
      (eatKeyword .not >>= fun negated => Grammar.conjunct depth set >>= k negated) post := by
  cases h with
  | plain h =>
    obtain ⟨l, ls₀, rfl, hl⟩ := h.starts_conjunct
    refine (reads_eatIf_not hl).step fun b hb => ?_
    subst hb
    exact (ih.conjunct h hset hd hr rest).step fun other hother =>
      hk _ _ ⟨_, C, hother, id, fun x => by simp⟩
  | negated hq h =>
    rw [List.length_cons] at hd
    refine (reads_eatIf rfl).step fun b hb => ?_
    subst hb
    exact (ih.conjunct h hset (by omega) hr rest).step fun other hother =>
      hk _ _ ⟨_, _, hother, hq, fun x => by simp⟩

theorem firstConjunct {last : Bool} (h : Signed fails quantifiers F P last ls C)
    (hset : F.Means False set P) (hd : 32 * ls.length + 9 ≤ depth) {r : Lexeme}
    (hr : r.reach ≤ if last then 0 else 2) (rest : List Lexeme)
    {post : Relation → Scope → List Lexeme → Prop}
    (hk : ∀ result, F.Means quantifiers result (fun x => P x ∧ C x) →
      Reads fails F.scope (r :: rest) (Grammar.moreConjuncts depth set result) post) :
    Reads fails F.scope (ls ++ r :: rest)
      (eatKeyword .not >>= Grammar.firstConjunct depth set) post := by
  refine ih.signed h hset hd hr rest fun negated first hfirst => ?_
  cases negated with
  | false => exact hk first hfirst.of_plain
  | true =>
    exact (hfirst.reads_subtract hset fun _ => id).step fun result hresult =>
      hk result (hresult.mono False.elim)

theorem conjunction_succ {last : Bool} (h : Conjunction fails quantifiers F P last ls C)
    (hset : F.Means False set P) (hd : 32 * ls.length + 10 ≤ depth + 1) {r : Lexeme}
    (hr : r.reach ≤ if last then 0 else 1) (rest : List Lexeme) :
    Reads fails F.scope (ls ++ r :: rest) (Grammar.conjunction (depth + 1) set)
      (Gives (F.Means quantifiers · fun x => P x ∧ C x) F.scope (r :: rest)) := by
  have hone : r.reach ≤ 1 := by
    split at hr <;> omega
  rw [Grammar.conjunction_succ]
  refine Reads.enter_bind ?_
  cases h with
  | single h =>
    exact ih.firstConjunct h hset (by omega) (by split at hr <;> simp_all; omega) rest
      fun result hresult => reads_moreConjuncts_end (by omega) hone hresult
  | cons h hs =>
    rw [List.length_append, List.length_cons] at hd
    rw [List.append_assoc]
    exact ih.firstConjunct h hset (by omega) (by decide) _
      fun result hresult => ih.moreConjuncts hs hset hresult (by omega) hr rest

theorem nextConjunct {C' : Row → Prop} {last : Bool} {result : Relation}
    (h : Signed fails quantifiers F P last ls C') (hset : F.Means False set P)
    (hresult : F.Means quantifiers result fun x => P x ∧ C x) (hd : 32 * ls.length + 9 ≤ depth)
    {r : Lexeme} (hr : r.reach ≤ if last then 0 else 2) (rest : List Lexeme)
    {post : Relation → Scope → List Lexeme → Prop}
    (hk : ∀ both, F.Means quantifiers both (fun x => P x ∧ (C x ∧ C' x)) →
      Reads fails F.scope (r :: rest) (Grammar.moreConjuncts depth set both) post) :
    Reads fails F.scope (ls ++ r :: rest)
      (eatKeyword .not >>= Grammar.nextConjunct depth set result) post := by
  refine ih.signed h hset hd hr rest fun negated other hother => Reads.step ?_ hk
  cases negated with
  | false =>
    obtain ⟨both, hok, hboth⟩ := hresult.intersect_eq_ok hother.of_plain
    exact reads_check hok (hboth.congr fun x _ => by tauto)
  | true =>
    exact (hother.reads_subtract hresult fun _ => And.left).congr fun both hboth =>
      hboth.congr fun x _ => and_assoc

theorem moreConjuncts_succ {C' : Row → Prop} {last : Bool} {result : Relation}
    (h : Conjunction fails quantifiers F P last ls C') (hset : F.Means False set P)
    (hresult : F.Means quantifiers result fun x => P x ∧ C x)
    (hd : 32 * ls.length + 11 ≤ depth + 1) {r : Lexeme} (hr : r.reach ≤ if last then 0 else 1)
    (rest : List Lexeme) :
    Reads fails F.scope (.keyword .and true :: (ls ++ r :: rest))
      (Grammar.moreConjuncts (depth + 1) set result)
      (Gives (F.Means quantifiers · fun x => P x ∧ (C x ∧ C' x)) F.scope (r :: rest)) := by
  have hone : r.reach ≤ 1 := by
    split at hr <;> omega
  rw [Grammar.moreConjuncts_succ]
  refine Reads.enter_bind ((reads_eatIf rfl).step fun b hb => ?_)
  subst hb
  cases h with
  | single h =>
    exact ih.nextConjunct h hset hresult (by omega) (by split at hr <;> simp_all; omega) rest
      fun both hboth => reads_moreConjuncts_end (by omega) hone hboth
  | cons h hs =>
    rw [List.length_append, List.length_cons] at hd
    rw [List.append_assoc]
    refine ih.nextConjunct h hset hresult (by omega) (by decide) _ fun both hboth => ?_
    refine (ih.moreConjuncts hs hset hboth (by omega) hr rest).congr fun r hr =>
      hr.congr fun x _ => ?_
    rw [and_assoc]

theorem comparisons_succ (h : Comparisons F ls C) (hset : F.Means False set P)
    (hd : 32 * ls.length + 8 ≤ depth + 1) {r : Lexeme} (hr : r.reach ≤ 2) (rest : List Lexeme) :
    Reads fails F.scope (ls ++ r :: rest) (Grammar.comparisons (depth + 1) set)
      (Gives (F.Means False · fun x => P x ∧ C x) F.scope (r :: rest)) := by
  rw [Grammar.comparisons, hset.describes.space]
  refine Reads.enter_bind ?_
  cases h with
  | chain h hc =>
    obtain ⟨l, ls', rfl, hl⟩ := hc.starts
    simp only [List.length_append, List.length_cons] at hd
    rw [List.append_assoc]
    refine ((readsExpressions F fails depth).sums h.wording (by omega) (by omega) _).step
      fun left hleft => reads_next.step fun t ht => ?_
    rw [ht]
    obtain ⟨op, hop⟩ := hc.comparison?
    rw [hop]
    exact ih.moreComparisons hleft (h.functions_ne_nil hleft) hop hc hset (by omega) hr rest

omit ih in
theorem compared {left right : List Piecewise} {us ws : List (Row → ℚ)} {op : Comparison}
    (hleft : Piecewise.DenoteAll F.space left us) (hne : left ≠ [])
    (hright : Piecewise.DenoteAll F.space right ws) (hset : F.Means False set P)
    {k : Relation → Reading Relation} {post : Relation → Scope → List Lexeme → Prop}
    (hk : ∀ both, F.Means False both (fun x => P x ∧ AllCompare op us ws x) →
      Reads fails F.scope ls (k both) post) :
    Reads fails F.scope ls (do
      let holds ← check (Piecewise.compareListSet left right op)
      let both ← check (set.intersect holds)
      k both) post := by
  obtain ⟨holds, hok, hknown, hholds⟩ := Piecewise.compareListSet_eq_ok hleft hright hne op
  refine (reads_check (P := (· = holds)) hok rfl).step fun holds' h => ?_
  subst h
  obtain ⟨both, hok, hboth⟩ := hset.intersect_eq_ok ⟨hholds, .inr hknown⟩
  exact (reads_check (P := (F.Means False · _)) hok hboth).step hk

theorem moreComparisons_succ {l : Lexeme} {left : List Piecewise} {us : List (Row → ℚ)}
    {op : Comparison} (hleft : Piecewise.DenoteAll F.space left us) (hne : left ≠ [])
    (hl : l.comparison? = some op) (h : Chain F us (l :: ls) C) (hset : F.Means False set P)
    (hd : 32 * ls.length + 7 ≤ depth + 1) {r : Lexeme} (hr : r.reach ≤ 2) (rest : List Lexeme) :
    Reads fails F.scope (ls ++ r :: rest)
      (Grammar.moreComparisons (depth + 1) F.space left op set)
      (Gives (F.Means False · fun x => P x ∧ C x) F.scope (r :: rest)) := by
  rw [Grammar.moreComparisons]
  refine Reads.enter_bind ?_
  cases h with
  | last hl' h =>
    obtain rfl := Option.some.inj (hl.symm.trans hl')
    refine ((readsExpressions F fails depth).sums h.wording (by omega) (by omega) rest).step
      fun right hright => compared hleft hne hright hset fun both hboth => ?_
    refine reads_next.step fun t ht => ?_
    rw [ht, Lexeme.comparison?_eq_none hr, ← ht]
    exact (reads_push t).step fun _ _ => reads_pure (gives hboth)
  | more hl' h hc =>
    obtain rfl := Option.some.inj (hl.symm.trans hl')
    obtain ⟨l', ls', rfl, hreach⟩ := hc.starts
    simp only [List.length_append, List.length_cons] at hd
    rw [List.append_assoc]
    refine ((readsExpressions F fails depth).sums h.wording (by omega) (by omega) _).step
      fun right hright => compared hleft hne hright hset fun both hboth => ?_
    refine reads_next.step fun t ht => ?_
    obtain ⟨op', hop⟩ := hc.comparison?
    rw [ht, hop]
    refine (ih.moreComparisons hright (h.functions_ne_nil hright) hop hc hboth (by omega) hr
      rest).congr fun r hr => hr.congr fun x _ => ?_
    rw [and_assoc]

/-- What an opening parenthesis begins is read first, and one token is put in its place. -/
theorem front {phrase : List Lexeme → Prop} {β : Type} {q : Lexeme → Prop} (h : phrase ls)
    (hs : ∃ l ls', ls = l :: ls' ∧ q l)
    (hopens : Parenthesised ls → Opens fails quantifiers F P phrase ls)
    (hset : F.Means False set P) (hd : 32 * ls.length ≤ depth + 32) {r : Lexeme}
    (rest : List Lexeme) {k : Reading β} {post : β → Scope → List Lexeme → Prop}
    (hk : ∀ ls', phrase ls' → ¬Parenthesised ls' → ls'.length ≤ ls.length →
      Reads fails F.scope (ls' ++ r :: rest) k post) :
    Reads fails F.scope (ls ++ r :: rest) (do
      if ← nextIsMark .leftParen then Grammar.parenthesis depth set
      k) post := by
  by_cases hp : Parenthesised ls
  · rcases hopens hp with ⟨inner, rest', v, rfl, hsum, hread⟩ |
      ⟨inner, rest', C, rfl, hcond, hread⟩
    all_goals
      simp only [List.length_cons, List.length_append] at hd hk
      simp only [List.cons_append, List.append_assoc]
      refine reads_nextIs.step fun b hb => ?_
      rw [hb, if_pos (by rfl)]
    · refine (ih.parenthesisSum hsum hset (by omega) _).bind fun _ sc ls' hput => ?_
      obtain ⟨rfl, f, hf, rfl⟩ := hput
      exact hk _ (hread f hf) (by simp [Parenthesised]) (by simp only [List.length_cons]; omega)
    · refine (ih.parenthesisCondition hcond hset (by omega) _).bind fun _ sc ls' hput => ?_
      obtain ⟨rfl, r, hr, rfl⟩ := hput
      exact hk _ (hread r hr) (by simp [Parenthesised]) (by simp only [List.length_cons]; omega)
  · obtain ⟨l, ls', rfl, -⟩ := hs
    refine (reads_nextIs (l := l)).step fun b hb => ?_
    have hl : (l.kind == .mark .leftParen) = false := by
      rw [beq_eq_false_iff_ne]
      exact fun hl => hp (by rw [Lexeme.eq_mark_of_kind hl]; rfl)
    rw [hb, hl]
    exact hk _ h hp (Nat.le_refl _)

theorem bareConjunct {last : Bool} (h : Conjunct fails quantifiers F P last ls C)
    (hp : ¬Parenthesised ls) (hset : F.Means False set P) (hd : 32 * ls.length + 8 ≤ depth)
    {r : Lexeme} (hr : r.reach ≤ if last then 0 else 2) (rest : List Lexeme) :
    Reads fails F.scope (ls ++ r :: rest) (Grammar.bareConjunct depth set)
      (Gives (F.Means quantifiers · fun x => P x ∧ C x) F.scope (r :: rest)) := by
  have htwo : r.reach ≤ 2 := by
    split at hr <;> omega
  cases h with
  | always =>
    refine reads_next.step fun t ht => ?_
    simp only [ht]
    exact reads_pure (gives ((hset.congr fun x _ => by simp).mono False.elim))
  | never =>
    refine reads_next.step fun t ht => ?_
    simp only [ht]
    refine reads_pure (gives ⟨?_, .inr (Relation.known_empty _)⟩)
    rw [hset.describes.space]
    exact (Relation.describes_empty F.proper_space).congr fun x _ => by simp
  | read h =>
    refine reads_next.step fun t ht => ?_
    simp only [ht]
    exact reads_pure (gives h)
  | paren h => exact absurd rfl hp
  | comparisons h =>
    obtain ⟨l, ls', rfl, hl⟩ := h.starts
    have hrest : Reads fails F.scope (l :: ls' ++ r :: rest) (Grammar.comparisons depth set)
        (Gives (F.Means quantifiers · fun x => P x ∧ C x) F.scope (r :: rest)) :=
      (ih.comparisons h hset hd htwo rest).congr fun r hr => hr.mono False.elim
    refine reads_next.step fun t ht => ?_
    obtain rfl := ht
    split
    case h_5 => exact (reads_push t).step fun _ _ => hrest
    all_goals
      rename_i h
      rw [h] at hl
      cases hl
  | exist hq hv hc =>
    simp only [List.length_cons, List.length_append] at hd
    rw [List.cons_append, List.append_assoc]
    refine reads_next.step fun t ht => ?_
    simp only [ht]
    exact ih.quantifier hq hv hc hset (by omega) (by simpa using hr) rest
  | existParen hq hv hc =>
    simp only [List.length_cons, List.length_append] at hd
    simp only [List.cons_append, List.append_assoc, List.nil_append]
    refine reads_next.step fun t ht => ?_
    simp only [ht]
    exact ih.quantifierParen hq hv hc hset (by omega) (r :: rest)

theorem conjunct_succ {last : Bool} (h : Conjunct fails quantifiers F P last ls C)
    (hset : F.Means False set P) (hd : 32 * ls.length + 9 ≤ depth + 1) {r : Lexeme}
    (hr : r.reach ≤ if last then 0 else 2) (rest : List Lexeme) :
    Reads fails F.scope (ls ++ r :: rest) (Grammar.conjunct (depth + 1) set)
      (Gives (F.Means quantifiers · fun x => P x ∧ C x) F.scope (r :: rest)) := by
  have hopens : Parenthesised ls →
      Opens fails quantifiers F P (Conjunct fails quantifiers F P last · C) ls := h.opens
  rw [Grammar.conjunct_succ]
  exact Reads.enter_bind (ih.front h h.starts hopens hset (by omega) rest
    fun ls h hp hle => ih.bareConjunct h hp hset (by omega) hr rest)

omit ih in
/-- One variable: its declaration, its definition if it has one, and what comes behind it, which is
the colon or a comma. -/
theorem quantified_of (h : Variable F ls G D) (hset : F.Means False set P)
    (hd : 32 * ls.length ≤ depth) {r : Lexeme} (hr : r.reach ≤ 4) (hc : r.comparison? = none)
    (rest : List Lexeme) {post : Relation → Scope → List Lexeme → Prop}
    (hk : ∀ set, G.Means False set (fun x => P (x.take F.size) ∧ D x) →
      Reads fails G.scope (r :: rest) (moreQuantified depth set) post) :
    Reads fails F.scope (ls ++ r :: rest) (Grammar.quantified (depth + 1) set) post := by
  obtain ⟨name, ls', rfl⟩ : ∃ name ls', ls = .identifier name :: ls' := by
    cases h <;> exact ⟨_, _, rfl⟩
  rw [List.cons_append, Grammar.quantified_succ]
  refine Reads.enter_next fun t ht => ?_
  simp only [ht]
  refine (reads_position? name).step fun pos hpos => ?_
  have hfree : F.scope.position? name = none := by
    cases h <;> assumption
  obtain rfl : G = F.declare (some name) := by
    cases h <;> rfl
  rw [hpos, hfree]
  simp only [Option.isSome_none, Bool.false_eq_true, if_false]
  refine (reads_declare _).step fun pos hpos => ?_
  subst hpos
  obtain ⟨set', hok, hset'⟩ := hset.addOutput_eq_ok (some name)
  refine (reads_check (P := (· = set')) hok rfl).step fun set'' hs => ?_
  subst hs
  cases h with
  | free hn =>
    refine (reads_eatIf_not ?_).step fun b hb => ?_
    · intro hk
      rw [Lexeme.eq_mark_of_kind hk] at hc
      cases hc
    subst hb
    exact hk _ (hset'.congr fun x _ => by simp)
  | defined hn h =>
    refine (reads_eatIf rfl).step fun b hb => ?_
    subst hb
    rw [List.length_cons, List.length_cons] at hd
    have hpos : F.scope.size < (F.declare (some name)).size := by
      rw [Frame.size_declare]
      exact Nat.lt_succ_self _
    exact (reads_definition h hset' hpos (by omega) hr hc rest).step fun set hset => hk _ hset

theorem quantified_succ (h : Variables F ls G D) (hset : F.Means False set P)
    (hd : 32 * ls.length + 1 ≤ depth + 1) (rest : List Lexeme) :
    Reads fails F.scope (ls ++ .mark .colon :: rest) (Grammar.quantified (depth + 1) set)
      (Gives (G.Means False · fun x => P (x.take F.size) ∧ D x) G.scope
        (.mark .colon :: rest)) := by
  cases h with
  | last h =>
    refine quantified_of h hset (by omega) (by decide) rfl _ fun set hset => ?_
    refine (reads_eatIf_not (by decide)).step fun b hb => ?_
    subst hb
    exact reads_pure (gives hset)
  | more h hs =>
    rw [List.length_append, List.length_cons] at hd
    rw [List.append_assoc]
    refine quantified_of h hset (by omega) (by decide) rfl _ fun set hset => ?_
    refine (reads_eatIf rfl).step fun b hb => ?_
    subst hb
    refine (ih.quantified hs hset (by omega) rest).congr fun r hr => hr.congr fun x hx => ?_
    have hle := h.extends.size_le
    simp [List.take_take, Nat.min_eq_left hle, and_assoc]

/-- The variables of a quantifier go out of scope once its condition has been read. -/
theorem quantifierBody {C : Row → Prop} {ls' tail : List Lexeme} {r : Lexeme}
    (inParens : Bool) (rest : List Lexeme) (hq : quantifiers) (hv : Variables F ls G D)
    (h : Condition fails quantifiers G (fun x => P (x.take F.size) ∧ D x) ls' C)
    (hset : F.Means False set P) (hd : 32 * (ls.length + ls'.length) + 12 ≤ depth + 1)
    (hr : r.reach = 0)
    (hclose : ∀ a : Relation, Reads fails F.scope (r :: rest) (do
        if inParens then expectMark .rightParen
        return a) (Gives (· = a) F.scope tail)) :
    Reads fails F.scope (ls ++ .mark .colon :: (ls' ++ r :: rest))
      (quantifierBody depth set F.scope.size inParens)
      (Gives (F.Means quantifiers · fun x => P x ∧
        ∃ y : Row, y.length = G.size - F.size ∧ D (x ++ y) ∧ C (x ++ y)) F.scope tail) := by
  have hext := hv.extends
  have hls : 0 < ls.length := by
    obtain ⟨l, ls', rfl, -⟩ := hv.starts
    exact Nat.succ_pos _
  refine (ih.quantified hv hset (by omega) _).step fun extended hextended => ?_
  refine reads_expectMark.step fun _ _ => ?_
  refine (ih.condition h hextended (by omega) hr rest).step fun cond hcond => ?_
  have hdescribes := hcond.describes
  rw [hext.space] at hdescribes
  -- The dimensions that are projected out are those of the variables that the quantifier
  -- declared.
  have hfirst : set.dim .output = F.size - F.params := by
    rw [Relation.dim, hset.describes.space, Frame.space, Relation.dim_anonymousSet_output]
  have hdim : cond.dim .output - set.dim .output = G.size - F.size := by
    rw [hfirst, Relation.dim, hdescribes.space, Relation.dim_anonymousSet_output,
      Nat.add_sub_cancel_left]
  rw [hdim, hfirst]
  obtain ⟨projected, hok, hprojected⟩ := hdescribes.projectOut_eq_ok
  refine (reads_check (P := (· = projected)) hok rfl).step fun projected' hp => ?_
  subst hp
  obtain ⟨recovered, hok, hrecovered, -⟩ := hprojected.recoverDefinitions_eq_ok
  refine (reads_check (P := (· = recovered)) hok rfl).step fun recovered' hr => ?_
  subst hr
  refine (reads_rollback _).step fun _ _ => ?_
  have hroll := hext.rollback
  rw [Frame.size] at hroll
  rw [hroll]
  refine (hclose _).congr fun a ha => ?_
  subst ha
  refine ⟨hrecovered.congr fun x hx => ?_, .inl hq⟩
  rw [Relation.total_anonymousSet] at hx
  have hx : x.length = F.size := hx.trans (Nat.add_sub_of_le F.within)
  have htake : ∀ y : Row, (x ++ y).take F.size = x := fun y => by rw [← hx, List.take_left]
  simp only [htake]
  tauto

theorem quantifier_succ {C : Row → Prop} {ls' : List Lexeme} (hq : quantifiers)
    (hv : Variables F ls G D)
    (h : Condition fails quantifiers G (fun x => P (x.take F.size) ∧ D x) ls' C)
    (hset : F.Means False set P) (hd : 32 * (ls.length + ls'.length) + 12 ≤ depth + 1)
    {r : Lexeme} (hr : r.reach = 0) (rest : List Lexeme) :
    Reads fails F.scope (ls ++ .mark .colon :: (ls' ++ r :: rest))
      (Grammar.quantifier (depth + 1) set)
      (Gives (F.Means quantifiers · fun x => P x ∧
        ∃ y : Row, y.length = G.size - F.size ∧ D (x ++ y) ∧ C (x ++ y)) F.scope (r :: rest)) := by
  obtain ⟨l, ls₀, rfl, hl⟩ := hv.starts
  rw [Grammar.quantifier_succ]
  refine Reads.enter_bind (reads_get fun s hsc _ => ?_)
  rw [hsc]
  refine (reads_eatIf_not (by rw [hl]; decide)).step fun b hb => ?_
  subst hb
  exact ih.quantifierBody false rest hq hv h hset hd hr fun a => reads_pure (gives rfl)

theorem quantifierParen_succ {C : Row → Prop} {ls' : List Lexeme} (hq : quantifiers)
    (hv : Variables F ls G D)
    (h : Condition fails quantifiers G (fun x => P (x.take F.size) ∧ D x) ls' C)
    (hset : F.Means False set P) (hd : 32 * (ls.length + ls'.length) + 12 ≤ depth + 1)
    (rest : List Lexeme) :
    Reads fails F.scope
      (.mark .leftParen :: (ls ++ .mark .colon :: (ls' ++ .mark .rightParen :: rest)))
      (Grammar.quantifier (depth + 1) set)
      (Gives (F.Means quantifiers · fun x => P x ∧
        ∃ y : Row, y.length = G.size - F.size ∧ D (x ++ y) ∧ C (x ++ y)) F.scope rest) := by
  rw [Grammar.quantifier_succ]
  refine Reads.enter_bind (reads_get fun s hsc _ => ?_)
  rw [hsc]
  refine (reads_eatIf rfl).step fun b hb => ?_
  subst hb
  exact ih.quantifierBody true rest hq hv h hset hd rfl fun a =>
    reads_expectMark.step fun _ _ => reads_pure (gives rfl)

omit ih in
theorem insideParenthesis_sum {v : Row → ℚ} (h : Sum F ls v) (hset : F.Means False set P)
    (hd : 32 * ls.length + 5 ≤ depth) (opening : Span) (rest : List Lexeme) :
    Reads fails F.scope (ls ++ .mark .rightParen :: rest) (insideParenthesis depth set opening)
      fun _ sc ls => sc = F.scope ∧
        ∃ f : Piecewise, f.Denotes F.space v ∧ ls = .expression f :: rest := by
  obtain ⟨l, ls₀, hls, hl⟩ := h.starts
  have hpeek : Reads fails F.scope (ls ++ .mark .rightParen :: rest) peek
      (Gives (·.lexeme = l) F.scope (ls ++ .mark .rightParen :: rest)) := by
    rw [hls]
    exact reads_peek
  refine hpeek.step fun t ht => ?_
  rw [ht, startsCondition_of_startsSum hl, hset.describes.space]
  simp only [Bool.false_eq_true, if_false]
  refine ((readsExpressions F fails depth).sum h.wording hd (by decide) rest).step fun f hf => ?_
  refine (reads_eatIf rfl).step fun b hb => ?_
  subst hb
  exact (reads_push _).step fun _ _ => reads_pure ⟨rfl, f, hf, rfl⟩

theorem parenthesisSum_succ {v : Row → ℚ} (h : Sum F ls v) (hset : F.Means False set P)
    (hd : 32 * ls.length + 13 ≤ depth + 1) (rest : List Lexeme) :
    Reads fails F.scope (.mark .leftParen :: (ls ++ .mark .rightParen :: rest))
      (Grammar.parenthesis (depth + 1) set) fun _ sc ls => sc = F.scope ∧
        ∃ f : Piecewise, f.Denotes F.space v ∧ ls = .expression f :: rest := by
  rw [Grammar.parenthesis_succ]
  refine Reads.enter_bind ((reads_expect rfl).step fun opening _ => ?_)
  have hopens (hp : Parenthesised ls) : Opens fails False F P (Sum F · v) ls :=
    .inl (h.opensSum hp)
  exact ih.front h h.starts hopens hset (by omega) rest
    fun ls' h _ hle => insideParenthesis_sum h hset (by omega) _ rest

theorem insideParenthesis_condition (h : Condition fails quantifiers F P ls C)
    (hp : ¬Parenthesised ls) (hset : F.Means False set P) (hd : 32 * ls.length + 12 ≤ depth)
    (opening : Span) (rest : List Lexeme) :
    Reads fails F.scope (ls ++ .mark .rightParen :: rest) (insideParenthesis depth set opening)
      fun _ sc ls => sc = F.scope ∧
        ∃ r, F.Means quantifiers r (fun x => P x ∧ C x) ∧ ls = .condition r :: rest := by
  obtain ⟨l, ls₀, hls, -⟩ := h.starts
  have hpeek : Reads fails F.scope (ls ++ .mark .rightParen :: rest) peek
      (Gives (·.lexeme = l) F.scope (ls ++ .mark .rightParen :: rest)) := by
    rw [hls]
    exact reads_peek
  refine hpeek.step fun t ht => ?_
  rw [ht]
  by_cases hl : startsCondition l = true
  · rw [if_pos hl]
    exact ih.parenthesisedCondition h hset hd opening rest
  · have hbare : Bare ls := by
      simp only [Bare, hls, List.head?_cons, Option.mem_some_iff, forall_eq']
      exact ⟨by simpa using hl, fun h => hp (by simp [Parenthesised, hls, h])⟩
    obtain ⟨inner, l', rest', v, hlead, hreach, hsum, hread⟩ := h.leads hbare
    have hpos : 0 < inner.length := by
      obtain ⟨l, ls', rfl, -⟩ := hsum.starts
      exact Nat.succ_pos _
    rw [if_neg hl, hset.describes.space, hlead, List.append_assoc]
    rw [hlead, List.length_append, List.length_cons] at hd
    refine ((readsExpressions F fails depth).sum hsum.wording (by omega) (by omega) _).step
      fun f hf => ?_
    refine (reads_eatIf_not ?_).step fun b hb => ?_
    · intro hk
      rw [Lexeme.eq_mark_of_kind hk] at hreach
      simp [Lexeme.reach, Lexeme.kind, TokenKind.reach] at hreach
    subst hb
    refine (reads_push _).step fun _ _ => ?_
    refine ih.parenthesisedCondition (hread f hf) hset ?_ opening rest
    simp only [List.length_cons]
    omega

theorem parenthesisCondition_succ (h : Condition fails quantifiers F P ls C)
    (hset : F.Means False set P) (hd : 32 * ls.length + 13 ≤ depth + 1) (rest : List Lexeme) :
    Reads fails F.scope (.mark .leftParen :: (ls ++ .mark .rightParen :: rest))
      (Grammar.parenthesis (depth + 1) set) fun _ sc ls => sc = F.scope ∧
        ∃ r, F.Means quantifiers r (fun x => P x ∧ C x) ∧ ls = .condition r :: rest := by
  rw [Grammar.parenthesis_succ]
  refine Reads.enter_bind ((reads_expect rfl).step fun opening _ => ?_)
  exact ih.front h h.starts h.opens hset (by omega) rest
    fun ls' h hp hle => ih.insideParenthesis_condition h hp hset (by omega) _ rest

theorem parenthesisedCondition_succ (h : Condition fails quantifiers F P ls C)
    (hset : F.Means False set P) (hd : 32 * ls.length + 12 ≤ depth + 1) (opening : Span)
    (rest : List Lexeme) :
    Reads fails F.scope (ls ++ .mark .rightParen :: rest)
      (Grammar.parenthesisedCondition (depth + 1) set opening) fun _ sc ls => sc = F.scope ∧
        ∃ r, F.Means quantifiers r (fun x => P x ∧ C x) ∧ ls = .condition r :: rest := by
  rw [Grammar.parenthesisedCondition]
  refine Reads.enter_bind ?_
  refine (ih.condition h hset (by omega) rfl rest).step fun r hr => ?_
  refine (reads_expect rfl).step fun closing _ => ?_
  exact (reads_push _).mono fun _ _ _ hpush => ⟨hpush.2.1, r, hr, hpush.2.2⟩

end ReadsConditions

/-- Conditions are read as what they say. -/
theorem readsConditions (fails : Prop) : ∀ depth, ReadsConditions fails depth
  | 0 => by constructor <;> intros <;> omega
  | depth + 1 =>
    have ih := readsConditions fails depth
    { condition := ih.condition_succ
      moreAlternatives := ih.moreAlternatives_succ
      conjunction := ih.conjunction_succ
      moreConjuncts := ih.moreConjuncts_succ
      conjunct := ih.conjunct_succ
      comparisons := ih.comparisons_succ
      moreComparisons := ih.moreComparisons_succ
      quantified := ih.quantified_succ
      quantifier := ih.quantifier_succ
      quantifierParen := ih.quantifierParen_succ
      parenthesisSum := ih.parenthesisSum_succ
      parenthesisCondition := ih.parenthesisCondition_succ
      parenthesisedCondition := ih.parenthesisedCondition_succ }

end Grammar

end Quasiaffine
