import Quasiaffine.Proofs.Parse.Follows
import Quasiaffine.Proofs.Parse.Sets
import Quasiaffine.Proofs.Reader.FormulaParts

set_option autoImplicit false

namespace Quasiaffine

namespace Symbol

variable {l : Lexeme}

theorem eq_of_lexeme {b : Symbols} {t : Token} (hs : t.lexeme.symbol = b.head) (hl : t.lexeme = l) :
    b.head = l.symbol := by rw [← hs, hl]

theorem isRemainder_eq_false {l : Symbol} (hp : l ≠ .mark .percent) (hm : l ≠ .word .mod) :
    l.isRemainder = false := by
  unfold isRemainder
  split <;> simp_all

end Symbol

namespace Lexeme

variable {l : Lexeme}

@[simp] theorem symbol_eq_mark_iff {m : Mark} : l.symbol = .mark m ↔ l = .mark m := by
  cases l <;> simp [symbol]

@[simp] theorem symbol_eq_number_iff {n : Int} : l.symbol = .number n ↔ l = .number n := by
  cases l <;> simp [symbol]

@[simp] theorem startsFactor_symbol (l : Lexeme) :
    l.symbol.startsFactor = Grammar.startsFactor l := by
  cases l with
  | mark m => cases m <;> rfl
  | keyword w => cases w <;> rfl
  | _ => rfl

end Lexeme

namespace Value

theorem map_map (o o' : ℚ → ℚ) (v : Value) : map o (map o' v) = map (fun q => o (o' q)) v :=
  funext fun x => Option.map_map o o' (v x)

theorem map_eq_self {o : ℚ → ℚ} (h : ∀ q, o q = q) (v : Value) : map o v = v :=
  funext fun x => (congrArg (fun o => (v x).map o) (funext h)).trans Option.map_id'

end Value

namespace Parse

open Reading Grammar

/-- The variables in scope are those before, and no symbol ahead stands for something read before. A
function has been read whose values are as `P` says. -/
def Yields (F : Frame) (P : Value → Symbols → Prop) (f : Piecewise) (G : Frame) (c : Symbols) :
    Prop := G = F ∧ Clear c ∧ f.Regular ∧ P f.valueAt c

def Covers (F : Frame) (P : Set Row → Symbols → Prop) (r : Relation) (G : Frame) (c : Symbols) :
    Prop := G = F ∧ Clear c ∧ r.LiesOver F ∧ P r.points c

variable {F : Frame} {b : Symbols} {depth : Nat} {sum : Piecewise} {negated : Bool}

section Literals

theorem follows_literal :
    Follows F b literal fun n G c => G = F ∧ b.head = .number n ∧ c = b.tail := by
  refine .next_bind fun t hs _ => ?_
  split
  · rename_i hl
    exact follows_pure ⟨rfl, Symbol.eq_of_lexeme hs hl, rfl⟩
  · exact follows_stop _

theorem follows_positiveLiteral : Follows F b positiveLiteral fun n G c =>
    G = F ∧ b.head = .number n ∧ 0 < n ∧ c = b.tail := by
  refine .next_bind fun t hs _ => ?_
  split
  · rename_i hl
    split
    · exact follows_pure ⟨rfl, Symbol.eq_of_lexeme hs hl, ‹_›, rfl⟩
    · exact follows_stop _
  · exact follows_stop _

theorem follows_coefficientFollows : Follows F b coefficientFollows fun r G c => G = F ∧
    (r = true ∧ b.head = .mark .star ∧ c = b.tail ∨
      r = true ∧ b.head.kind = .identifier ∧ c = b ∨
      r = false ∧ b.head ≠ .mark .star ∧ b.head.kind ≠ .identifier ∧ c = b) := by
  refine .eatMark_bind (fun h => follows_pure ⟨rfl, .inl ⟨rfl, h, rfl⟩⟩) fun h => ?_
  refine (follows_tokens TokenStream.follows_nextIs).mono ?_
  rintro r G c ⟨⟨rfl, rfl⟩, rfl⟩
  by_cases hk : c.head.kind = .identifier
  · exact ⟨rfl, .inr (.inl ⟨beq_iff_eq.2 hk, hk, rfl⟩)⟩
  · exact ⟨rfl, .inr (.inr ⟨beq_eq_false_iff_ne.2 hk, h, hk, rfl⟩)⟩

theorem follows_literalProduct (hb : Clear b) (product : Int) :
    Follows F b (literalProduct depth product) fun n G c => G = F ∧ Clear c ∧
      ∃ k, n = product * k ∧ Derives .product b k c := by
  induction depth generalizing b product with
  | zero => exact follows_throw _
  | succ depth ih =>
    refine .enter_bind (follows_literal.bind ?_)
    rintro n G c ⟨rfl, hn, rfl⟩
    refine .eatMark_bind (fun hs => (ih hb.tail.tail _).mono ?_) fun hs => ?_
    · rintro m G c ⟨rfl, hc, k, rfl, hk⟩
      exact ⟨rfl, hc, _, Int.mul_assoc .., .moreNumbers hn hs hk⟩
    · exact follows_pure ⟨rfl, hb.tail, n, rfl, .lastNumber hn hs⟩

end Literals

/-- What all productions of expressions take when calls may nest `depth` deep. Only the first symbol
may stand for something read before. -/
structure DerivesExpressions (depth : Nat) : Prop where
  expression {F : Frame} {b : Symbols} (hb : Clear b.tail) :
    Follows F b (expression depth F.space) (Yields F (Derives (.sum F.scope) b))
  terms {F : Frame} {b : Symbols} (hb : Clear b.tail) (negated : Bool) {sum : Piecewise}
    (hsum : sum.Regular) : Follows F b (terms depth F.space negated sum)
      (Yields F (Derives (.terms F.scope negated sum.valueAt) b))
  moreTerms {F : Frame} {b : Symbols} (hb : Clear b) {sum : Piecewise} (hsum : sum.Regular) :
    Follows F b (moreTerms depth F.space sum) (Yields F (Derives (.more F.scope sum.valueAt) b))
  factor {F : Frame} {b : Symbols} (hb : Clear b.tail) :
    Follows F b (factor depth F.space) (Yields F (Derives (.factor F.scope) b))
  operand {F : Frame} {b : Symbols} (hb : Clear b.tail) :
    Follows F b (operand depth F.space) (Yields F (Derives (.operand F.scope) b))
  quotient {F : Frame} {b : Symbols} (hb : Clear b) {w : Keyword} {round : ℚ → ℤ}
    (hw : w.rounding? = some round) : Follows F b (quotient depth F.space)
      (Yields F fun v c => Derives (.operand F.scope) (.cons (.word w) b)
        (Value.map (fun q => round q) v) c)
  arguments {F : Frame} {b : Symbols} (hb : Clear b) {w : Keyword} {o : ℚ → ℚ → ℚ}
    (hw : w.extremum? = some o) : Follows F b (arguments depth F.space) fun fs G c =>
      G = F ∧ Clear c ∧ ∃ f fs', fs = f :: fs' ∧ (∀ f ∈ fs, f.Regular) ∧
        Derives (.operand F.scope) (.cons (.word w) b)
          ((fs'.map Piecewise.valueAt).foldl (Value.combine o) f.valueAt) c
  expressions {F : Frame} {b : Symbols} (hb : Clear b.tail) :
    Follows F b (expressions depth F.space) fun fs G c => G = F ∧ Clear c ∧
      fs ≠ [] ∧ (∀ f ∈ fs, f.Regular) ∧ Derives (.sums F.scope) b (fs.map Piecewise.valueAt) c

namespace DerivesExpressions

variable (ih : DerivesExpressions depth)
include ih

theorem expression_succ (hb : Clear b.tail) : Follows F b (Grammar.expression (depth + 1) F.space)
    (Yields F (Derives (.sum F.scope) b)) := by
  obtain ⟨hzero, hvalue⟩ := Piecewise.regular_const F.proper_space 0
  rw [Grammar.expression]
  refine .enter_bind ((ih.terms hb false hzero).mono ?_)
  rintro f G c ⟨rfl, hc, hf, hd⟩
  rw [hvalue, G.total_space, Int.cast_zero] at hd
  exact ⟨rfl, hc, hf, hd⟩

theorem addTerm {P Q : Value → Symbols → Prop} {d : Symbols} {m : Reading Piecewise}
    (op : Piecewise → Except Error Piecewise) (o : Value → Value)
    (hm : Follows F d m (Yields F P))
    (hop : ∀ f g, f.Regular → op f = .ok g → g.Regular ∧ g.valueAt = o f.valueAt)
    (hQ : ∀ v w c e, P v c → Derives (.more F.scope (o v)) c w e → Q w e) :
    Follows F d (m >>= fun f => check (op f) >>= Grammar.moreTerms depth F.space) (Yields F Q) := by
  refine hm.bind ?_
  rintro f G c ⟨rfl, hc, hf, hd⟩
  refine .check_bind fun g hok => ?_
  obtain ⟨hg, hgv⟩ := hop f g hf hok
  refine (ih.moreTerms hc hg).mono ?_
  rintro h H e ⟨rfl, he, hh, hm⟩
  exact ⟨rfl, he, hh, hQ _ _ _ _ hd (hgv ▸ hm)⟩

theorem terms_succ (hb : Clear b.tail) (negated : Bool) (hsum : sum.Regular) :
    Follows F b (Grammar.terms (depth + 1) F.space negated sum)
      (Yields F (Derives (.terms F.scope negated sum.valueAt) b)) := by
  have hadd : ∀ f g : Piecewise, f.Regular → sum.add f = .ok g →
      g.Regular ∧ g.valueAt = Value.combine (· + ·) sum.valueAt f.valueAt :=
    fun _ _ hf hok => hsum.add hf hok
  rw [Grammar.terms]
  refine .enter_bind (.next_bind fun t hs ht => ?_)
  split
  · rename_i hl
    refine (ih.terms hb.tail _ hsum).mono ?_
    rintro f G c ⟨rfl, hc, hf, hd⟩
    exact ⟨rfl, hc, hf, .sign (Symbol.eq_of_lexeme hs hl) hd⟩
  · rename_i n hl
    have hn : b.head = .number n := Symbol.eq_of_lexeme hs hl
    -- The coefficient of a factor.
    have hscaled : ∀ {d : Symbols} {Q : Value → Symbols → Prop}, Clear d.tail →
        (∀ v w c e, Derives (.factor F.scope) d v c → Derives (.more F.scope (Value.combine (· + ·)
          sum.valueAt (Value.map (fun q => signed negated n * q) v))) c w e → Q w e) →
        Follows F d (do
          let f ← Grammar.factor depth F.space
          let f ← check (sum.add (f.scale (signed negated n)))
          Grammar.moreTerms depth F.space f) (Yields F Q) :=
      fun hd hQ => ih.addTerm (fun f => sum.add (f.scale (signed negated n)))
        (fun v => Value.combine (· + ·) sum.valueAt
          (Value.map (fun q => signed negated n * q) v)) (ih.factor hd)
        (fun f g hf hok => by
          obtain ⟨hreg, hv⟩ := hf.scale (signed negated n)
          rw [← hv]
          exact hadd _ _ hreg hok) hQ
    refine .again_bind ht (follows_coefficientFollows.bind ?_)
    rintro r G c ⟨rfl, ⟨rfl, hstar, rfl⟩ | ⟨rfl, hx, rfl⟩ | ⟨rfl, hstar, hx, rfl⟩⟩
    · exact hscaled hb.tail.tail fun v w c e hv hm => .coefficient hn hstar hv hm
    · exact hscaled hb.tail fun v w c e hv hm => .juxtaposed hn hx hv hm
    · refine .push_bind trivial ?_
      exact ih.addTerm sum.add _ (ih.factor (b := .cons (.number (signed negated n)) b.tail) hb)
        hadd fun v w c e hv hm => .number hn hstar hx hv hm
  · exact follows_stop _
  · split
    · rename_i hstarts
      have hstarts : b.head.startsFactor = true := by rw [← hs, Lexeme.startsFactor_symbol, hstarts]
      refine .back_bind hs ht ?_
      refine ih.addTerm (fun f => if negated then sum.sub f else sum.add f)
        (accumulate negated sum.valueAt) (ih.factor hb) (fun f g hf hok => ?_)
        fun v w c e hv hm => .term hstarts hv hm
      cases negated with
      | true => exact hsum.sub hf hok
      | false => exact hadd f g hf hok
    · exact follows_stop _

theorem moreTerms_succ (hb : Clear b) (hsum : sum.Regular) :
    Follows F b (Grammar.moreTerms (depth + 1) F.space sum)
      (Yields F (Derives (.more F.scope sum.valueAt) b)) := by
  rw [Grammar.moreTerms]
  refine .enter_bind (.next_bind fun t hs ht => ?_)
  split
  · rename_i hl
    refine (ih.terms hb.tail.tail _ hsum).mono ?_
    rintro f G c ⟨rfl, hc, hf, hd⟩
    exact ⟨rfl, hc, hf, .minus (Symbol.eq_of_lexeme hs hl) hd⟩
  · rename_i hl
    refine (ih.terms hb.tail.tail _ hsum).mono ?_
    rintro f G c ⟨rfl, hc, hf, hd⟩
    exact ⟨rfl, hc, hf, .plus (Symbol.eq_of_lexeme hs hl) hd⟩
  · rename_i n hl
    have hn : b.head = .number n := Symbol.eq_of_lexeme hs hl
    refine .back_bind hs ht ?_
    split
    · refine (ih.terms hb.tail _ hsum).mono ?_
      rintro f G c ⟨rfl, hc, hf, hd⟩
      exact ⟨rfl, hc, hf, .negative hn ‹n < 0› hd⟩
    · refine follows_pure ⟨rfl, hb, hsum, .noMore (by simp [hn]) (by simp [hn]) ?_⟩
      intro m hm
      obtain rfl := Symbol.number.inj (hn.symm.trans hm)
      exact ‹¬n < 0›
  · rename_i hminus hplus hnumber
    refine .back_bind hs ht (follows_pure ⟨rfl, hb, hsum, .noMore ?_ ?_ ?_⟩)
    · rw [← hs, Ne, Lexeme.symbol_eq_mark_iff]
      exact hminus
    · rw [← hs, Ne, Lexeme.symbol_eq_mark_iff]
      exact hplus
    · intro n hn
      rw [← hs, Lexeme.symbol_eq_number_iff] at hn
      exact (hnumber n hn).elim

section Factors

variable {c d : Symbols} {f g : Piecewise}

omit ih

theorem divided {n : Int} (hf : Derives (.operand F.scope) b f.valueAt c)
    (hmod : c.head.isRemainder = false) (hd : Clear d) (hg : g.Regular)
    (hv : g.valueAt = Value.map (fun q => n * q) f.valueAt) (hn : Derives .scaling c n d) :
    Follows F d (Grammar.divided g) (Yields F (Derives (.factor F.scope) b)) := by
  refine .eatMark_bind (fun hslash => ?_) fun hslash => ?_
  · refine follows_positiveLiteral.bind ?_
    rintro m F e ⟨rfl, hm, hpos, rfl⟩
    refine follows_check fun h hok => ?_
    obtain ⟨hh, hv'⟩ := hg.scaleDown hpos hok
    refine ⟨rfl, hd.tail.tail, hh, ?_⟩
    rw [hv', hv, Value.map_map]
    exact .quotient hf hmod hn hslash hm hpos
  · exact follows_pure ⟨rfl, hd, hg, hv ▸ .scaled hf hmod hn hslash⟩

theorem remainder (hd : Derives (.operand F.scope) b f.valueAt c) (hc : Clear c) (hf : f.Regular)
    (hmod : c.head.isRemainder = true) :
    Follows F c.tail (do check (f.mod (← positiveLiteral)))
      (Yields F (Derives (.factor F.scope) b)) := by
  refine follows_positiveLiteral.bind ?_
  rintro m F d ⟨rfl, hm, hpos, rfl⟩
  refine follows_check fun g hok => ?_
  obtain ⟨hg, hv⟩ := hf.mod hpos hok
  exact ⟨rfl, hc.tail.tail, hg, hv ▸ .remainder hd hmod hm hpos⟩

end Factors

theorem factor_succ (hb : Clear b.tail) : Follows F b (Grammar.factor (depth + 1) F.space)
    (Yields F (Derives (.factor F.scope) b)) := by
  rw [Grammar.factor_succ]
  refine .enter_bind ((ih.operand hb).bind ?_)
  rintro f F c ⟨rfl, hc, hf, hd⟩
  refine .eatMark_bind (fun hp => remainder hd hc hf (by rw [hp]; rfl)) fun hp => ?_
  refine .eatKeyword_bind (fun hm => remainder hd hc hf (by rw [hm]; rfl)) fun hm => ?_
  have hmod := Symbol.isRemainder_eq_false hp hm
  refine .eatMark_bind (fun hstar => ?_) fun hstar => ?_
  · refine (follows_literalProduct hc.tail 1).bind ?_
    rintro n F d ⟨rfl, hclear, k, rfl, hk⟩
    obtain ⟨hg, hv⟩ := hf.scale (1 * k)
    exact divided hd hmod hclear hg (by simpa using hv) (.star hstar hk)
  · exact divided hd hmod hc hf (Value.map_eq_self (by simp) _).symm (.unscaled hstar)

omit ih in
theorem derives_of_word {w : Keyword} {v : Value} {c : Symbols} (hw : b.head = .word w)
    (h : Derives (.operand F.scope) (.cons (.word w) b.tail) v c) :
    Derives (.operand F.scope) b v c := by
  rwa [← hw, Stream'.eta] at h

theorem rounded (hb : Clear b.tail) {w : Keyword} {round : ℚ → ℤ}
    {op : Piecewise → Except Error Piecewise} (hw : w.rounding? = some round)
    (hword : b.head = .word w)
    (hop : ∀ f g : Piecewise, f.Regular → op f = .ok g →
      g.Regular ∧ g.valueAt = Value.map (fun q => round q) f.valueAt) :
    Follows F b.tail (do check (op (← Grammar.quotient depth F.space)))
      (Yields F (Derives (.operand F.scope) b)) := by
  refine (ih.quotient hb hw).bind ?_
  rintro f F c ⟨rfl, hc, hf, hd⟩
  refine follows_check fun g hok => ?_
  obtain ⟨hg, hv⟩ := hop f g hf hok
  exact ⟨rfl, hc, hg, hv ▸ derives_of_word hword hd⟩

theorem extremum (hb : Clear b.tail) {w : Keyword} {o : ℚ → ℚ → ℚ}
    {op : Piecewise → Piecewise → Except Error Piecewise} (hw : w.extremum? = some o)
    (hword : b.head = .word w)
    (hop : ∀ f g h : Piecewise, f.Regular → g.Regular → op f g = .ok h →
      h.Regular ∧ h.valueAt = Value.combine o f.valueAt g.valueAt) :
    Follows F b.tail (do check (Piecewise.foldList op (← Grammar.arguments depth F.space)))
      (Yields F (Derives (.operand F.scope) b)) := by
  refine (ih.arguments hb hw).bind ?_
  rintro _ F c ⟨rfl, hc, f, fs, rfl, hfs, hd⟩
  rw [List.forall_mem_cons] at hfs
  refine follows_check fun g hok => ?_
  obtain ⟨hg, hv⟩ := Piecewise.regular_of_foldList hop hfs.1 hfs.2 hok
  exact ⟨rfl, hc, hg, hv ▸ derives_of_word hword hd⟩

theorem operand_succ (hb : Clear b.tail) : Follows F b (Grammar.operand (depth + 1) F.space)
    (Yields F (Derives (.operand F.scope) b)) := by
  rw [Grammar.operand]
  refine .enter_bind (.next_bind fun t hs ht => ?_)
  split
  · rename_i f hl
    rw [hl] at ht
    exact follows_pure ⟨rfl, hb, ht, .value (Symbol.eq_of_lexeme hs hl)⟩
  · rename_i x hl
    refine .position?_bind ?_
    split
    · rename_i pos hpos
      refine follows_check fun f hok => ?_
      obtain ⟨hf, hv⟩ := F.regular_variableAt (Scope.lt_size_of_position? hpos) hok
      exact ⟨rfl, hb, hf, hv ▸ .name (Symbol.eq_of_lexeme hs hl) hpos⟩
    · exact follows_stop _
  · rename_i n hl
    have hn : b.head = .number n := Symbol.eq_of_lexeme hs hl
    refine .again_bind ht
      (.eatMark_bind (fun hstar => (ih.factor hb.tail.tail).bind ?_) fun hstar => ?_)
    · rintro f F c ⟨rfl, hc, hf, hd⟩
      obtain ⟨hg, hv⟩ := hf.scale n
      exact follows_pure ⟨rfl, hc, hg, hv ▸ .multiple hn hstar hd⟩
    · obtain ⟨hg, hv⟩ := Piecewise.regular_const F.proper_space n
      rw [F.total_space] at hv
      exact follows_pure ⟨rfl, hb, hg, hv ▸ .literal hn hstar⟩
  · rename_i hl
    refine (ih.expression hb.tail).bind ?_
    rintro f F c ⟨rfl, hc, hf, hd⟩
    exact .expectMark_bind fun hclose =>
      follows_pure ⟨rfl, hc.tail, hf, .paren (Symbol.eq_of_lexeme hs hl) hd hclose⟩
  · rename_i hl
    refine .again_bind ht ((ih.expression hb.tail).bind ?_)
    rintro f F c ⟨rfl, hc, hf, hd⟩
    refine .expectMark_bind fun hclose => follows_check fun g hok => ?_
    obtain ⟨hg, hv⟩ := hf.floor hok
    exact ⟨rfl, hc.tail, hg, hv ▸ .floor (Symbol.eq_of_lexeme hs hl) hd hclose⟩
  · rename_i hl
    exact .again_bind ht (ih.rounded hb (w := .floord) rfl (Symbol.eq_of_lexeme hs hl)
      fun f g hf hok => hf.floor hok)
  · rename_i hl
    exact .again_bind ht (ih.rounded hb (w := .ceild) rfl (Symbol.eq_of_lexeme hs hl)
      fun f g hf hok => hf.ceil hok)
  · rename_i hl
    exact .again_bind ht (ih.extremum hb (w := .min) rfl (Symbol.eq_of_lexeme hs hl)
      fun f g h hf hg hok => hf.min hg hok)
  · rename_i hl
    exact .again_bind ht (ih.extremum hb (w := .max) rfl (Symbol.eq_of_lexeme hs hl)
      fun f g h hf hg hok => hf.max hg hok)
  · exact follows_stop _

theorem quotient_succ (hb : Clear b) {w : Keyword} {round : ℚ → ℤ} (hw : w.rounding? = some round) :
    Follows F b (Grammar.quotient (depth + 1) F.space)
      (Yields F fun v c => Derives (.operand F.scope) (.cons (.word w) b)
        (Value.map (fun q => round q) v) c) := by
  rw [Grammar.quotient]
  refine .enter_bind (.expectMark_bind fun hopen => (ih.expression hb.tail.tail).bind ?_)
  rintro f F c ⟨rfl, hc, hf, hd⟩
  refine .expectMark_bind fun hcomma => follows_positiveLiteral.bind ?_
  rintro m F _ ⟨rfl, hm, hpos, rfl⟩
  refine .expectMark_bind fun hclose => follows_check fun g hok => ?_
  obtain ⟨hg, hv⟩ := hf.scaleDown hpos hok
  refine ⟨rfl, hc.tail.tail.tail, hg, ?_⟩
  beta_reduce
  rw [hv, Value.map_map]
  exact .rounded (b := .cons (.word w) b) rfl hw hopen hd hcomma hm hpos hclose

theorem arguments_succ (hb : Clear b) {w : Keyword} {o : ℚ → ℚ → ℚ} (hw : w.extremum? = some o) :
    Follows F b (Grammar.arguments (depth + 1) F.space) fun fs G c =>
      G = F ∧ Clear c ∧ ∃ f fs', fs = f :: fs' ∧ (∀ f ∈ fs, f.Regular) ∧
        Derives (.operand F.scope) (.cons (.word w) b)
          ((fs'.map Piecewise.valueAt).foldl (Value.combine o) f.valueAt) c := by
  rw [Grammar.arguments]
  refine .enter_bind (.expectMark_bind fun hopen => (ih.expressions hb.tail.tail).bind ?_)
  rintro fs F c ⟨rfl, hc, hne, hfs, hd⟩
  refine .expectMark_bind fun hclose => follows_pure ⟨rfl, hc.tail, ?_⟩
  obtain ⟨f, fs, rfl⟩ := List.exists_cons_of_ne_nil hne
  exact ⟨f, fs, rfl, hfs, .extremum (b := .cons (.word w) b) rfl hw hopen hd hclose⟩

theorem expressions_succ (hb : Clear b.tail) :
    Follows F b (Grammar.expressions (depth + 1) F.space) fun fs G c => G = F ∧ Clear c ∧
      fs ≠ [] ∧ (∀ f ∈ fs, f.Regular) ∧
        Derives (.sums F.scope) b (fs.map Piecewise.valueAt) c := by
  rw [Grammar.expressions]
  refine .enter_bind ((ih.expression hb).bind ?_)
  rintro f F c ⟨rfl, hc, hf, hd⟩
  refine .eatMark_bind (fun hcomma => (ih.expressions hc.tail.tail).bind ?_) fun hcomma => ?_
  · rintro fs F e ⟨rfl, he, -, hfs, hd'⟩
    exact follows_pure ⟨rfl, he, List.cons_ne_nil _ _, List.forall_mem_cons.2 ⟨hf, hfs⟩,
      .moreSums hd hcomma hd'⟩
  · exact follows_pure ⟨rfl, hc, List.cons_ne_nil _ _, List.forall_mem_singleton.2 hf,
      .lastSum hd hcomma⟩

end DerivesExpressions

theorem derivesExpressions : ∀ depth, DerivesExpressions depth
  | 0 => by constructor <;> intros <;> exact follows_throw _
  | depth + 1 =>
    have ih := derivesExpressions depth
    { expression := ih.expression_succ
      terms := fun hb negated _ hsum => ih.terms_succ hb negated hsum
      moreTerms := fun hb _ hsum => ih.moreTerms_succ hb hsum
      factor := ih.factor_succ
      operand := ih.operand_succ
      quotient := ih.quotient_succ
      arguments := ih.arguments_succ
      expressions := ih.expressions_succ }

end Parse

end Quasiaffine
