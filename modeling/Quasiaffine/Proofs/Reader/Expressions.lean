import Quasiaffine.Proofs.Reader.FormulaParts
import Quasiaffine.Proofs.Reader.Reads
import Quasiaffine.Proofs.Reader.Wording

set_option autoImplicit false

namespace Quasiaffine

open Reading Wording

namespace Grammar

section Literals

variable {fails : Prop} {sc : Scope} {l : Lexeme} {ls : List Lexeme} {m : Int}

theorem reads_literal {n : Int} :
    Reads fails sc (.number n :: ls) literal (Gives (· = n) sc ls) := by
  refine reads_next.step fun t ht => ?_
  simp only [ht]
  exact reads_pure (gives rfl)

theorem reads_positiveLiteral (hm : 0 < m) :
    Reads fails sc (.number m :: ls) positiveLiteral (Gives (· = m) sc ls) := by
  refine reads_next.step fun t ht => ?_
  simp only [ht, if_pos hm]
  exact reads_pure (gives rfl)

theorem reads_coefficientFollows_star :
    Reads fails sc (.mark .star :: ls) coefficientFollows (Gives (· = true) sc ls) := by
  refine (reads_eatIf rfl).step fun b hb => ?_
  subst hb
  exact reads_pure (gives rfl)

theorem reads_coefficientFollows (h : l.kind ≠ .mark .star) :
    Reads fails sc (l :: ls) coefficientFollows
      (Gives (· = (l.kind == .identifier)) sc (l :: ls)) := by
  refine (reads_eatIf_not h).step fun b hb => ?_
  subst hb
  exact reads_nextIs

end Literals

variable {F : Frame} {fails : Prop}

section Binding

variable {sc : Scope} {r : Lexeme} {ls rest : List Lexeme} {v : Row → ℚ} {s : Space} {d : Nat}

theorem reads_literalProduct {ns : List Lexeme} {n : Int} (h : Product ns n)
    (hd : ns.length ≤ d) (k : Int) (hr : r.kind ≠ .mark .star) :
    Reads fails sc (ns ++ r :: rest) (literalProduct d k) (Gives (· = k * n) sc (r :: rest)) := by
  induction h generalizing d k with
  | last n =>
    obtain ⟨d, rfl⟩ := Nat.exists_eq_add_of_lt hd
    rw [literalProduct]
    refine Reads.enter_bind (reads_literal.step fun b hb => ?_)
    subst hb
    refine (reads_eatIf_not hr).step fun b hb => ?_
    subst hb
    exact reads_pure (gives rfl)
  | more n _ ih =>
    simp only [List.length_cons] at hd
    obtain ⟨d, rfl⟩ := Nat.exists_eq_add_of_lt hd
    rw [literalProduct]
    refine Reads.enter_bind (reads_literal.step fun b hb => ?_)
    subst hb
    refine (reads_eatIf rfl).step fun b hb => ?_
    subst hb
    rw [← mul_assoc]
    exact ih (by omega) _

theorem reads_factor_of_operand {post : Piecewise → Scope → List Lexeme → Prop}
    (ho : Reads fails sc ls (operand d s) (Gives (·.Denotes s v) sc (r :: rest)))
    (hr : ¬r.IsRemainder)
    (hrest : ∀ f : Piecewise, f.Denotes s v → Reads fails sc (r :: rest) (do
      if ← eatMark .star then
        let n ← literalProduct d 1
        divided (f.scale n)
      else divided f) post) :
    Reads fails sc ls (factor (d + 1) s) post := by
  rw [factor_succ]
  refine Reads.enter_bind (ho.step fun f hf => ?_)
  refine (reads_eatIf_not fun h => hr (.inl h)).step fun b hb => ?_
  subst hb
  refine (reads_eatIf_not fun h => hr (.inr h)).step fun b hb => ?_
  subst hb
  exact hrest f hf

theorem reads_factor_of_remainder {m : Int} (hr : r.IsRemainder) (hm : 0 < m)
    (ho : Reads fails sc ls (operand d s)
      (Gives (·.Denotes s v) sc (r :: .number m :: rest))) :
    Reads fails sc ls (factor (d + 1) s)
      (Gives (·.Denotes s fun x => v x - m * ⌊v x / m⌋) sc rest) := by
  have hmod : ∀ f : Piecewise, f.Denotes s v → Reads fails sc (.number m :: rest)
      (positiveLiteral >>= fun m => check (f.mod m))
      (Gives (·.Denotes s fun x => v x - m * ⌊v x / m⌋) sc rest) := by
    intro f hf
    refine (reads_positiveLiteral hm).step fun b hb => ?_
    subst hb
    obtain ⟨g, hok, hg⟩ := hf.mod_eq_ok hm
    exact reads_check hok hg
  rw [factor_succ]
  refine Reads.enter_bind (ho.step fun f hf => ?_)
  rcases hr with hr | hr
  · refine (reads_eatIf hr).step fun b hb => ?_
    subst hb
    exact hmod f hf
  · refine (reads_eatIf_not (by simp [hr])).step fun b hb => ?_
    subst hb
    refine (reads_eatIf hr).step fun b hb => ?_
    subst hb
    exact hmod f hf

theorem reads_divided {m : Int} {f : Piecewise} (hm : 0 < m) (hf : f.Denotes s v) :
    Reads fails sc (.mark .slash :: .number m :: rest) (divided f)
      (Gives (·.Denotes s fun x => v x / m) sc rest) := by
  refine (reads_eatIf rfl).step fun b hb => ?_
  subst hb
  refine (reads_positiveLiteral hm).step fun b hb => ?_
  subst hb
  obtain ⟨g, hok, hg⟩ := hf.scaleDown_eq_ok hm
  exact reads_check hok hg

theorem reads_divided_not {f : Piecewise} (hr : r.kind ≠ .mark .slash) (hf : f.Denotes s v) :
    Reads fails sc (r :: rest) (divided f) (Gives (·.Denotes s v) sc (r :: rest)) := by
  refine (reads_eatIf_not hr).step fun b hb => ?_
  subst hb
  exact reads_pure (gives hf)

section Terms

variable {l : Lexeme} {ls' ls'' : List Lexeme} {sum : Piecewise} {a w : Row → ℚ}
  {negated : Bool} {c : Int} {post : Piecewise → Scope → List Lexeme → Prop}

theorem reads_add (hsum : sum.Denotes s a) {f : Piecewise} (hf : f.Denotes s w)
    (hmore : ∀ g : Piecewise, g.Denotes s (fun x => a x + w x) →
      Reads fails sc ls (moreTerms d s g) post) :
    Reads fails sc ls (check (sum.add f) >>= moreTerms d s) post := by
  obtain ⟨g, hok, hg⟩ := hsum.add_eq_ok hf
  have hcheck : Reads fails sc ls (check (sum.add f))
      (Gives (·.Denotes s fun x => a x + w x) sc ls) := reads_check hok hg
  exact hcheck.step hmore

/-- A literal that is not the coefficient of what follows is put back with its sign. -/
theorem reads_terms_literal (hsum : sum.Denotes s a) (hl : l.kind ≠ .mark .star)
    (hk : l.kind ≠ .identifier)
    (hf : Reads fails sc (.number (if negated then -c else c) :: l :: ls) (factor d s)
      (Gives (·.Denotes s w) sc ls'))
    (hmore : ∀ g : Piecewise, g.Denotes s (fun x => a x + w x) →
      Reads fails sc ls' (moreTerms d s g) post) :
    Reads fails sc (.number c :: l :: ls) (terms (d + 1) s negated sum) post := by
  rw [terms]
  refine Reads.enter_next fun t ht => ?_
  simp only [ht]
  refine .again_bind ((reads_coefficientFollows hl).step fun b hb => ?_)
  rw [beq_false_of_ne hk] at hb
  subst hb
  exact (reads_push _).step fun _ _ => hf.step fun f hf => reads_add hsum hf hmore

theorem reads_terms_multiple (hsum : sum.Denotes s a)
    (hc : Reads fails sc ls coefficientFollows (Gives (· = true) sc ls''))
    (hf : Reads fails sc ls'' (factor d s) (Gives (·.Denotes s w) sc ls'))
    (hmore : ∀ g : Piecewise,
      g.Denotes s (fun x => a x + (if negated then -c else c : Int) * w x) →
      Reads fails sc ls' (moreTerms d s g) post) :
    Reads fails sc (.number c :: ls) (terms (d + 1) s negated sum) post := by
  rw [terms]
  refine Reads.enter_next fun t ht => ?_
  simp only [ht]
  refine .again_bind (hc.step fun b hb => ?_)
  subst hb
  exact hf.step fun f hf => reads_add hsum (hf.scale _) hmore

/-- Anything else that may begin a factor is put back. -/
theorem reads_terms_factor (hsum : sum.Denotes s a) (hl : startsFactor l = true)
    (hf : Reads fails sc (l :: ls) (factor d s) (Gives (·.Denotes s w) sc ls'))
    (hmore : ∀ g : Piecewise, g.Denotes s (fun x => a x + if negated then -w x else w x) →
      Reads fails sc ls' (moreTerms d s g) post) :
    Reads fails sc (l :: ls) (terms (d + 1) s negated sum) post := by
  have hrest : Reads fails sc (l :: ls) (do
      let f ← factor d s
      moreTerms d s (← check (if negated then sum.sub f else sum.add f))) post := by
    refine hf.step fun f hf => ?_
    cases negated with
    | false => exact reads_add hsum hf hmore
    | true =>
      obtain ⟨g, hok, hg⟩ := hsum.sub_eq_ok hf
      have hcheck : Reads fails sc ls' (check (sum.sub f)) (Gives (·.Denotes s _) sc ls') :=
        reads_check hok hg
      exact hcheck.step fun g hg => hmore g (by simpa [sub_eq_add_neg] using hg)
  rw [terms]
  refine Reads.enter_next fun t ht => ?_
  obtain rfl := ht
  split
  · rename_i h
    rw [h] at hl
    cases hl
  · rename_i h
    rw [h] at hl
    cases hl
  · rename_i h
    rw [h] at hl
    cases hl
  · rw [if_pos hl]
    exact (reads_push t).step fun _ _ => hrest

end Terms

end Binding

/-- What the productions of expressions do with phrases when calls may nest `depth` deep. A phrase
of `n` tokens needs about `32 n` nested calls. -/
structure ReadsExpressions (F : Frame) (fails : Prop) (depth : Nat) : Prop where
  operand {taken : List TokenKind} {ls : List Lexeme} {v : Row → ℚ} (h : Operand F taken ls v)
    (hd : 32 * ls.length + 2 ≤ depth) {r : Lexeme} (hr : r.kind ∉ taken) (rest : List Lexeme) :
    Reads fails F.scope (ls ++ r :: rest) (operand depth F.space)
      (Gives (·.Denotes F.space v) F.scope (r :: rest))
  quotient {ls : List Lexeme} {v : Row → ℚ} {m : Int} (hm : 0 < m) (h : Sum F ls v)
    (hd : 32 * ls.length + 6 ≤ depth) (rest : List Lexeme) : Reads fails F.scope
      (.mark .leftParen :: (ls ++ .mark .comma :: .number m :: .mark .rightParen :: rest))
      (quotient depth F.space) (Gives (·.Denotes F.space fun x => v x / m) F.scope rest)
  arguments {ls : List Lexeme} {vs : List (Row → ℚ)} (h : Sums F ls vs)
    (hd : 32 * ls.length + 7 ≤ depth) (rest : List Lexeme) :
    Reads fails F.scope (.mark .leftParen :: (ls ++ .mark .rightParen :: rest))
      (arguments depth F.space) (Gives (Piecewise.DenoteAll F.space · vs) F.scope rest)
  factor {taken : List TokenKind} {ls : List Lexeme} {v : Row → ℚ} (h : Factor F taken ls v)
    (hd : 32 * ls.length + 3 ≤ depth) {r : Lexeme} (hr : r.kind ∉ taken) (rest : List Lexeme) :
    Reads fails F.scope (ls ++ r :: rest) (factor depth F.space)
      (Gives (·.Denotes F.space v) F.scope (r :: rest))
  terms {negated : Bool} {ls : List Lexeme} {v : Row → ℚ} (h : Terms F negated ls v)
    {sum : Piecewise} {a : Row → ℚ} (hsum : sum.Denotes F.space a)
    (hd : 32 * ls.length + 4 ≤ depth) {r : Lexeme} (hr : r.reach ≤ 4) (rest : List Lexeme) :
    Reads fails F.scope (ls ++ r :: rest) (terms depth F.space negated sum)
      (Gives (·.Denotes F.space fun x => a x + v x) F.scope (r :: rest))
  more {ls : List Lexeme} {w : Row → ℚ} (h : More F ls w) {sum : Piecewise} {a : Row → ℚ}
    (hsum : sum.Denotes F.space a) (hd : 32 * ls.length + 5 ≤ depth) {r : Lexeme}
    (hr : r.reach ≤ 4) (rest : List Lexeme) :
    Reads fails F.scope (ls ++ r :: rest) (moreTerms depth F.space sum)
      (Gives (·.Denotes F.space fun x => a x + w x) F.scope (r :: rest))
  sum {ls : List Lexeme} {v : Row → ℚ} (h : Sum F ls v) (hd : 32 * ls.length + 5 ≤ depth)
    {r : Lexeme} (hr : r.reach ≤ 4) (rest : List Lexeme) :
    Reads fails F.scope (ls ++ r :: rest) (expression depth F.space)
      (Gives (·.Denotes F.space v) F.scope (r :: rest))
  sums {ls : List Lexeme} {vs : List (Row → ℚ)} (h : Sums F ls vs)
    (hd : 32 * ls.length + 6 ≤ depth) {r : Lexeme} (hr : r.reach ≤ 3) (rest : List Lexeme) :
    Reads fails F.scope (ls ++ r :: rest) (expressions depth F.space)
      (Gives (Piecewise.DenoteAll F.space · vs) F.scope (r :: rest))

namespace ReadsExpressions

variable {depth : Nat} (ih : ReadsExpressions F fails depth)

include ih

theorem rounded {op : Piecewise → Except Error Piecewise} {round : ℚ → ℤ}
    (hop : ∀ f u, f.Denotes F.space u →
      ∃ g, op f = .ok g ∧ g.Denotes F.space fun x => round (u x))
    {ls : List Lexeme} {v : Row → ℚ} {m : Int} (hm : 0 < m) (h : Sum F ls v)
    (hd : 32 * ls.length + 6 ≤ depth) (rest : List Lexeme) :
    Reads fails F.scope
      (.mark .leftParen :: (ls ++ .mark .comma :: .number m :: .mark .rightParen :: rest))
      (do check (op (← Grammar.quotient depth F.space)))
      (Gives (·.Denotes F.space fun x => (round (v x / m) : ℚ)) F.scope rest) := by
  refine (ih.quotient hm h hd _).step fun f hf => ?_
  obtain ⟨g, hok, hg⟩ := hop f _ hf
  exact reads_check hok hg

theorem extremum {op : List Piecewise → Except Error Piecewise} {ls : List Lexeme} {v w : Row → ℚ}
    {vs : List (Row → ℚ)}
    (hop : ∀ f fs, Piecewise.DenoteAll F.space (f :: fs) (v :: vs) →
      ∃ g, op (f :: fs) = .ok g ∧ g.Denotes F.space w)
    (h : Sums F ls (v :: vs)) (hd : 32 * ls.length + 7 ≤ depth) (rest : List Lexeme) :
    Reads fails F.scope (.mark .leftParen :: (ls ++ .mark .rightParen :: rest))
      (do check (op (← Grammar.arguments depth F.space)))
      (Gives (·.Denotes F.space w) F.scope rest) := by
  refine (ih.arguments h hd _).step fun fs hfs => ?_
  cases hfs with
  | cons hf hfs =>
    obtain ⟨g, hok, hg⟩ := hop _ _ (.cons hf hfs)
    exact reads_check hok hg

theorem operand_succ {taken : List TokenKind} {ls : List Lexeme} {v : Row → ℚ}
    (h : Operand F taken ls v) (hd : 32 * ls.length + 2 ≤ depth + 1) {r : Lexeme}
    (hr : r.kind ∉ taken) (rest : List Lexeme) :
    Reads fails F.scope (ls ++ r :: rest) (Grammar.operand (depth + 1) F.space)
      (Gives (·.Denotes F.space v) F.scope (r :: rest)) := by
  rw [Grammar.operand]
  cases h with
  | read h =>
    refine Reads.enter_next fun t ht => ?_
    simp only [ht]
    exact reads_pure (gives h)
  | name h =>
    refine Reads.enter_next fun t ht => ?_
    simp only [ht]
    refine (reads_position? _).step fun pos hpos => ?_
    subst hpos
    simp only [h]
    obtain ⟨f, hok, hf⟩ := F.variableAt_eq_ok (Scope.lt_size_of_position? h)
    exact reads_check hok hf
  | literal c =>
    refine Reads.enter_next fun t ht => ?_
    simp only [ht]
    refine .again_bind ((reads_eatIf_not fun h => hr (by simp [h])).step fun b hb => ?_)
    subst hb
    exact reads_pure (gives (Piecewise.denotes_const F.proper_space c))
  | multiple c h =>
    simp only [List.length_cons] at hd
    refine Reads.enter_next fun t ht => ?_
    simp only [ht]
    refine .again_bind ((reads_eatIf rfl).step fun b hb => ?_)
    subst hb
    exact (ih.factor h (by omega) hr rest).step fun f hf => reads_pure (gives (hf.scale c))
  | paren h =>
    simp only [List.length_cons, List.length_append, List.length_nil] at hd
    simp only [List.cons_append, List.append_assoc, List.nil_append]
    refine Reads.enter_next fun t ht => ?_
    simp only [ht]
    refine (ih.sum h (by omega) (by decide) _).step fun f hf => ?_
    exact reads_expectMark.step fun _ _ => reads_pure (gives hf)
  | floor h =>
    simp only [List.length_cons, List.length_append, List.length_nil] at hd
    simp only [List.cons_append, List.append_assoc, List.nil_append]
    refine Reads.enter_next fun t ht => ?_
    simp only [ht]
    refine .again_bind ((ih.sum h (by omega) (by decide) _).step fun f hf => ?_)
    refine reads_expectMark.step fun _ _ => ?_
    obtain ⟨g, hok, hg⟩ := hf.floor_eq_ok
    exact reads_check hok hg
  | floord hm h =>
    simp only [List.length_cons, List.length_append, List.length_nil] at hd
    simp only [List.cons_append, List.append_assoc, List.nil_append]
    refine Reads.enter_next fun t ht => ?_
    simp only [ht]
    exact .again_bind <| ih.rounded (fun f u hf => hf.floor_eq_ok) hm h (by omega) _
  | ceild hm h =>
    simp only [List.length_cons, List.length_append, List.length_nil] at hd
    simp only [List.cons_append, List.append_assoc, List.nil_append]
    refine Reads.enter_next fun t ht => ?_
    simp only [ht]
    exact .again_bind <| ih.rounded (fun f u hf => hf.ceil_eq_ok) hm h (by omega) _
  | least h =>
    simp only [List.length_cons, List.length_append, List.length_nil] at hd
    simp only [List.cons_append, List.append_assoc, List.nil_append]
    refine Reads.enter_next fun t ht => ?_
    simp only [ht]
    exact .again_bind <| ih.extremum (fun f fs hfs => Piecewise.minList_eq_ok hfs) h (by omega) _
  | greatest h =>
    simp only [List.length_cons, List.length_append, List.length_nil] at hd
    simp only [List.cons_append, List.append_assoc, List.nil_append]
    refine Reads.enter_next fun t ht => ?_
    simp only [ht]
    exact .again_bind <| ih.extremum (fun f fs hfs => Piecewise.maxList_eq_ok hfs) h (by omega) _

theorem quotient_succ {ls : List Lexeme} {v : Row → ℚ} {m : Int} (hm : 0 < m) (h : Sum F ls v)
    (hd : 32 * ls.length + 6 ≤ depth + 1) (rest : List Lexeme) : Reads fails F.scope
      (.mark .leftParen :: (ls ++ .mark .comma :: .number m :: .mark .rightParen :: rest))
      (Grammar.quotient (depth + 1) F.space)
      (Gives (·.Denotes F.space fun x => v x / m) F.scope rest) := by
  rw [Grammar.quotient]
  refine Reads.enter_bind (reads_expectMark.step fun _ _ => ?_)
  refine (ih.sum h (by omega) (by decide) _).step fun f hf => ?_
  refine reads_expectMark.step fun _ _ => ?_
  refine (reads_positiveLiteral hm).step fun b hb => ?_
  subst hb
  refine reads_expectMark.step fun _ _ => ?_
  obtain ⟨g, hok, hg⟩ := hf.scaleDown_eq_ok hm
  exact reads_check hok hg

theorem arguments_succ {ls : List Lexeme} {vs : List (Row → ℚ)} (h : Sums F ls vs)
    (hd : 32 * ls.length + 7 ≤ depth + 1) (rest : List Lexeme) :
    Reads fails F.scope (.mark .leftParen :: (ls ++ .mark .rightParen :: rest))
      (Grammar.arguments (depth + 1) F.space)
      (Gives (Piecewise.DenoteAll F.space · vs) F.scope rest) := by
  rw [Grammar.arguments]
  refine Reads.enter_bind (reads_expectMark.step fun _ _ => ?_)
  refine (ih.sums h (by omega) (by decide) _).step fun fs hfs => ?_
  exact reads_expectMark.step fun _ _ => reads_pure (gives hfs)

theorem factor_succ {taken : List TokenKind} {ls : List Lexeme} {v : Row → ℚ}
    (h : Factor F taken ls v) (hd : 32 * ls.length + 3 ≤ depth + 1) {r : Lexeme}
    (hr : r.kind ∉ taken) (rest : List Lexeme) :
    Reads fails F.scope (ls ++ r :: rest) (Grammar.factor (depth + 1) F.space)
      (Gives (·.Denotes F.space v) F.scope (r :: rest)) := by
  cases h with
  | operand h =>
    have ho := ih.operand h (by omega) fun hmem => hr (h.taken_subset hmem)
    refine reads_factor_of_operand (ho _) ?_ fun f hf => ?_
    · rintro (h | h) <;> simp [h, operators] at hr
    · refine (reads_eatIf_not fun h => hr (by simp [h, operators])).step fun b hb => ?_
      subst hb
      exact reads_divided_not (fun h => hr (by simp [h, operators])) hf
  | remainder h hl ht hm =>
    rw [List.length_append] at hd
    rw [List.append_assoc]
    exact reads_factor_of_remainder hl hm (ih.operand h (by omega) ht _)
  | product h ht hn =>
    rw [List.length_append, List.length_cons] at hd
    rw [List.append_assoc]
    have ho := ih.operand h (by omega) (r := .mark .star) ht
    refine reads_factor_of_operand (ho _) (by decide) fun f hf => ?_
    refine (reads_eatIf rfl).step fun b hb => ?_
    subst hb
    refine (reads_literalProduct hn (by omega) 1 fun h => hr (by simp [h])).step fun b hb => ?_
    rw [one_mul] at hb
    subst hb
    exact reads_divided_not (fun h => hr (by simp [h])) (hf.scale _)
  | quotient h ht hm =>
    rw [List.length_append] at hd
    rw [List.append_assoc]
    have ho := ih.operand h (by omega) (r := .mark .slash) ht
    refine reads_factor_of_operand (ho _) (by decide) fun f hf => ?_
    refine (reads_eatIf_not (by decide)).step fun b hb => ?_
    subst hb
    exact reads_divided hm hf
  | productQuotient h ht hn hm =>
    simp only [List.length_append, List.length_cons] at hd
    simp only [List.append_assoc, List.cons_append]
    have ho := ih.operand h (by omega) (r := .mark .star) ht
    refine reads_factor_of_operand (ho _) (by decide) fun f hf => ?_
    refine (reads_eatIf rfl).step fun b hb => ?_
    subst hb
    refine (reads_literalProduct hn (by omega) 1 (by decide)).step fun b hb => ?_
    rw [one_mul] at hb
    subst hb
    exact reads_divided hm (hf.scale _)

theorem term_succ {negated : Bool} {ls : List Lexeme} {v a : Row → ℚ} (h : Term F negated ls v)
    {sum : Piecewise} (hsum : sum.Denotes F.space a) (hd : 32 * ls.length + 4 ≤ depth + 1)
    {r : Lexeme} (hr : r.reach ≤ 5) (rest : List Lexeme)
    {post : Piecewise → Scope → List Lexeme → Prop}
    (hmore : ∀ g : Piecewise, g.Denotes F.space (fun x => a x + v x) →
      Reads fails F.scope (r :: rest) (Grammar.moreTerms depth F.space g) post) :
    Reads fails F.scope (ls ++ r :: rest) (Grammar.terms (depth + 1) F.space negated sum) post := by
  have hkind : ∀ kind : TokenKind, 5 < kind.reach → r.kind ≠ kind :=
    fun kind => r.kind_ne_of_reach_le hr
  cases h with
  | literal c =>
    have hf : Factor F operators [.number (if negated then -c else c)] _ := .operand (.literal _)
    exact reads_terms_literal hsum (hkind _ (by decide)) (hkind _ (by decide))
      (ih.factor hf (by simpa using hd) (hf.kind_notMem hr) rest) hmore
  | literalOver c hm =>
    exact reads_terms_literal hsum (by decide) (by decide)
      (ih.factor (.quotient (.literal _) (by decide) hm) (by simpa using hd) (by simp) rest) hmore
  | literalRemainder c hl hm =>
    have hstar : Lexeme.kind _ ≠ .mark .star := hl.kind_ne (by decide) (by decide)
    have hf : Factor F [] [.number (if negated then -c else c), _, .number _] _ :=
      .remainder (.literal _) hl (by simpa using hstar) hm
    exact reads_terms_literal hsum hstar (hl.kind_ne (by decide) (by decide))
      (ih.factor hf (by simpa using hd) (by simp) rest) hmore
  | multiple c h =>
    simp only [List.length_cons] at hd
    exact reads_terms_multiple hsum reads_coefficientFollows_star
      (ih.factor h (by omega) (h.kind_notMem hr) rest) hmore
  | juxtaposed c h =>
    simp only [List.length_cons] at hd
    exact reads_terms_multiple hsum (reads_coefficientFollows nofun)
      (ih.factor h (by simp only [List.length_cons]; omega) (h.kind_notMem hr) rest) hmore
  | factor hl h =>
    exact reads_terms_factor hsum hl (ih.factor h (by omega) (h.kind_notMem hr) rest) hmore

theorem terms_succ {negated : Bool} {ls : List Lexeme} {v : Row → ℚ} (h : Terms F negated ls v)
    {sum : Piecewise} {a : Row → ℚ} (hsum : sum.Denotes F.space a)
    (hd : 32 * ls.length + 4 ≤ depth + 1) {r : Lexeme} (hr : r.reach ≤ 4) (rest : List Lexeme) :
    Reads fails F.scope (ls ++ r :: rest) (Grammar.terms (depth + 1) F.space negated sum)
      (Gives (·.Denotes F.space fun x => a x + v x) F.scope (r :: rest)) := by
  cases h with
  | sign h =>
    rw [List.length_cons] at hd
    rw [List.cons_append, Grammar.terms]
    refine Reads.enter_next fun t ht => ?_
    simp only [ht]
    exact ih.terms h hsum (by omega) hr rest
  | term ht hm =>
    have hlen := ht.length_pos
    rw [List.length_append] at hd
    rw [List.append_assoc]
    obtain ⟨r', rest', hnext, hr'⟩ := hm.next hr rest
    rw [hnext]
    refine ih.term_succ ht hsum (by omega) hr' rest' fun g hg => ?_
    rw [← hnext]
    exact (ih.more hm hg (by omega) hr rest).congr fun f hf => by simpa [add_assoc] using hf

theorem more_succ {ls : List Lexeme} {w : Row → ℚ} (h : More F ls w) {sum : Piecewise} {a : Row → ℚ}
    (hsum : sum.Denotes F.space a) (hd : 32 * ls.length + 5 ≤ depth + 1) {r : Lexeme}
    (hr : r.reach ≤ 4) (rest : List Lexeme) :
    Reads fails F.scope (ls ++ r :: rest) (Grammar.moreTerms (depth + 1) F.space sum)
      (Gives (·.Denotes F.space fun x => a x + w x) F.scope (r :: rest)) := by
  rw [Grammar.moreTerms]
  cases h with
  | done =>
    have hend : sum.Denotes F.space fun x => a x + 0 := by simpa using hsum
    refine Reads.enter_next fun t ht => ?_
    obtain rfl := ht
    split
    · rename_i h
      exact absurd (h ▸ hr) (by decide)
    · rename_i h
      exact absurd (h ▸ hr) (by decide)
    · rename_i h
      exact absurd hr (by rw [h, Lexeme.reach, Lexeme.kind]; decide)
    · exact (reads_push t).step fun _ _ => reads_pure (gives hend)
  | plus h =>
    rw [List.length_cons] at hd
    refine Reads.enter_next fun t ht => ?_
    simp only [ht]
    exact ih.terms h hsum (by omega) hr rest
  | minus h =>
    rw [List.length_cons] at hd
    refine Reads.enter_next fun t ht => ?_
    simp only [ht]
    exact ih.terms h hsum (by omega) hr rest
  | negative hc h =>
    refine Reads.enter_next fun t ht => ?_
    simp only [ht]
    refine (reads_push t).step fun _ _ => ?_
    rw [if_pos hc, ht]
    exact ih.terms h hsum (by omega) hr rest

theorem sum_succ {ls : List Lexeme} {v : Row → ℚ} (h : Sum F ls v)
    (hd : 32 * ls.length + 5 ≤ depth + 1) {r : Lexeme} (hr : r.reach ≤ 4) (rest : List Lexeme) :
    Reads fails F.scope (ls ++ r :: rest) (Grammar.expression (depth + 1) F.space)
      (Gives (·.Denotes F.space v) F.scope (r :: rest)) := by
  rw [Grammar.expression]
  refine Reads.enter_bind ?_
  refine (ih.terms h (Piecewise.denotes_const F.proper_space 0) (by omega) hr rest).congr
    fun f hf => ?_
  simpa using hf

theorem sums_succ {ls : List Lexeme} {vs : List (Row → ℚ)} (h : Sums F ls vs)
    (hd : 32 * ls.length + 6 ≤ depth + 1) {r : Lexeme} (hr : r.reach ≤ 3) (rest : List Lexeme) :
    Reads fails F.scope (ls ++ r :: rest) (Grammar.expressions (depth + 1) F.space)
      (Gives (Piecewise.DenoteAll F.space · vs) F.scope (r :: rest)) := by
  rw [Grammar.expressions]
  refine Reads.enter_bind ?_
  cases h with
  | last h =>
    refine (ih.sum h (by omega) (by omega) rest).step fun f hf => ?_
    refine (reads_eatIf_not (r.kind_ne_of_reach_le hr (by decide))).step fun b hb => ?_
    subst hb
    exact reads_pure (gives (.cons hf .nil))
  | more h hs =>
    rw [List.length_append, List.length_cons] at hd
    rw [List.append_assoc]
    refine (ih.sum h (by omega) (by decide) _).step fun f hf => ?_
    refine (reads_eatIf rfl).step fun b hb => ?_
    subst hb
    refine (ih.sums hs (by omega) hr rest).step fun fs hfs => ?_
    exact reads_pure (gives (.cons hf hfs))

end ReadsExpressions

theorem readsExpressions (F : Frame) (fails : Prop) (depth : Nat) :
    ReadsExpressions F fails depth := by
  induction depth with
  | zero => constructor <;> intros <;> omega
  | succ depth ih =>
    exact {
      operand := ih.operand_succ
      quotient := ih.quotient_succ
      arguments := ih.arguments_succ
      factor := ih.factor_succ
      terms := ih.terms_succ
      more := ih.more_succ
      sum := ih.sum_succ
      sums := ih.sums_succ }

end Grammar

end Quasiaffine
