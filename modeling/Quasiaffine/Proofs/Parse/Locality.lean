import Quasiaffine.Proofs.Parse.Derivation

/-!
The symbols that a part takes, and the kind of the one behind them, determine what it means. In what
a part takes brackets match, and nothing in it ends a body.
-/

set_option autoImplicit false

namespace Quasiaffine

namespace Symbol

/-- Two symbols such that a part which ends in front of the one ends in front of the other. -/
def Alike (l l' : Symbol) : Prop := l = l' ∨ l.isStop = true ∧ l'.isStop = true

variable {l l' : Symbol}

theorem Alike.congr {β : Type} (f : Symbol → β)
    (hf : f (.mark .rightBrace) = f (.mark .semicolon)) (h : Alike l l') : f l' = f l := by
  rcases h with rfl | ⟨hl, hl'⟩
  · rfl
  · rw [isStop_iff] at hl hl'
    rcases hl with rfl | rfl <;> rcases hl' with rfl | rfl <;> simp [hf]

theorem Alike.ne (h : Alike l l') {s : Symbol} (hs : s.isStop = false) (hl : l ≠ s) : l' ≠ s := by
  rcases h with rfl | ⟨-, hl'⟩
  · exact hl
  · rintro rfl
    rw [hs] at hl'
    cases hl'

theorem Alike.eq (h : Alike l l') {s : Symbol} (hs : s.isStop = false) (hl : l = s) : l' = s := by
  rcases h with rfl | ⟨hstop, -⟩
  · exact hl
  · rw [hl, hs] at hstop
    cases hstop

theorem Alike.isIdentifier_iff (h : Alike l l') : l'.kind = .identifier ↔ l.kind = .identifier :=
  iff_of_eq (h.congr (fun l => l.kind = .identifier) (by simp [Symbol.kind]))

/-- How many brackets are open behind a symbol, if `n` are in front of it. None may be closed that
was not opened, and nothing may end the body. -/
def nest : Nat → Symbol → Option Nat
  | n, mark .leftBracket => some (n + 1)
  | 0, mark .rightBracket => none
  | n + 1, mark .rightBracket => some n
  | _, mark .leftBrace | _, mark .rightBrace | _, mark .semicolon | _, finish => none
  | n, _ => some n

def IsPlain (l : Symbol) : Prop := ∀ n, l.nest n = some n

end Symbol

namespace Parse

def nesting (n : Nat) (u : List Symbol) : Option Nat := u.foldlM (fun n l => l.nest n) n

def Balanced (u : List Symbol) : Prop := ∀ n, nesting n u = some n

section Balanced

variable {l : Symbol} {u v : List Symbol}

theorem balanced_nil : Balanced [] := fun _ => rfl

theorem Balanced.append (hu : Balanced u) (hv : Balanced v) : Balanced (u ++ v) := fun n => by
  rw [nesting, List.foldlM_append, ← nesting, hu, Option.bind_eq_bind, Option.bind_some]
  exact hv n

theorem nesting_cons (hl : l.IsPlain) (n : Nat) : nesting n (l :: u) = nesting n u := by
  rw [nesting, List.foldlM_cons, hl, Option.bind_eq_bind, Option.bind_some]
  rfl

theorem Balanced.cons (hl : l.IsPlain) (hu : Balanced u) : Balanced (l :: u) := fun n => by
  rw [nesting_cons hl, hu]

theorem Balanced.of_cons (hl : l.IsPlain) (h : Balanced (l :: u)) : Balanced u := fun n => by
  rw [← nesting_cons hl, h]

theorem Balanced.brackets (hu : Balanced u) :
    Balanced (.mark .leftBracket :: (u ++ [.mark .rightBracket])) := fun n => by
  have hn : nesting (n + 1) u = some (n + 1) := hu _
  rw [nesting, List.foldlM_cons, Symbol.nest, Option.bind_eq_bind, Option.bind_some,
    List.foldlM_append, ← nesting, hn]
  rfl

end Balanced

structure Leads (b c : Symbols) (u : List Symbol) : Prop where
  eq : b = u ++ₛ c
  balanced : Balanced u

section Leads

variable {b c d : Symbols} {l : Symbol} {u v : List Symbol}

theorem leads_nil : Leads b b [] := ⟨rfl, balanced_nil⟩

theorem Leads.cons (hl : b.head = l) (hp : l.IsPlain) (h : Leads b.tail c u) :
    Leads b c (l :: u) where
  eq := by rw [Stream'.cons_append_stream, ← h.eq, ← hl, Stream'.eta]
  balanced := h.balanced.cons hp

theorem Leads.append (h : Leads b c u) (h' : Leads c d v) : Leads b d (u ++ v) where
  eq := by rw [Stream'.append_append_stream, ← h'.eq, h.eq]
  balanced := h.balanced.append h'.balanced

theorem Leads.concat (h : Leads b c u) (hl : c.head = l) (hp : l.IsPlain) :
    Leads b c.tail (u ++ [l]) := h.append (.cons hl hp leads_nil)

theorem Leads.brackets (ho : b.head = .mark .leftBracket) (h : Leads b.tail c u)
    (hc : c.head = .mark .rightBracket) :
    Leads b c.tail (.mark .leftBracket :: (u ++ [.mark .rightBracket])) where
  eq := by
    rw [Stream'.cons_append_stream, Stream'.append_append_stream, Stream'.append_eq_cons, ← hc,
      Stream'.eta, ← h.eq, ← ho, Stream'.eta]
  balanced := h.balanced.brackets

theorem Leads.of_cons (h : Leads (.cons l c) d u) (hl : l.IsPlain) (hne : u ≠ []) :
    ∃ v, u = l :: v ∧ Leads c d v := by
  obtain ⟨l', v, rfl⟩ := List.exists_cons_of_ne_nil hne
  obtain ⟨rfl, hc⟩ := Stream'.cons_injective2 h.eq
  exact ⟨v, rfl, hc, h.balanced.of_cons hl⟩

theorem Leads.alike (h : Leads b c u) (hd : c.head.Alike d.head) : b.head.Alike (u ++ₛ d).head := by
  rw [h.eq]
  cases u with
  | nil => exact hd
  | cons l u => exact .inl rfl

theorem Leads.ne_nil (h : Leads (.cons l c) d u) (hd : d.head ≠ l) : u ≠ [] := by
  rintro rfl
  exact hd (by rw [show d = .cons l c from h.eq.symm]; rfl)

end Leads

def Part.consumes : Part → Bool
  | scaling | more _ _ | condition _ _ | alternatives _ _ _ | conjuncts _ _ _ | binders _ _ => false
  | _ => true

/-- The symbols `u` from `b` to `c` form a part, whatever comes behind them, as long as it ends
the part as `c` does. -/
structure Local (k : Part) (b : Symbols) (m : k.Meaning) (c : Symbols) (u : List Symbol) : Prop where
  leads : Leads b c u
  ne_nil : k.consumes = true → u ≠ []
  again : ∀ d : Symbols, c.head.Alike d.head → Derives k (u ++ₛ d) m d

/-- Some symbols lead from `b` to `c`, at least one if so said, and `R` relates what begins with
them to what comes behind them, as long as this is alike `c`. -/
def Fits (consumes : Bool) (b c : Symbols) (R : Symbols → Symbols → Prop) : Prop :=
  ∃ u, Leads b c u ∧ (consumes = true → u ≠ []) ∧ ∀ d : Symbols, c.head.Alike d.head → R (u ++ₛ d) d

section Fits

variable {b c d : Symbols} {l : Symbol} {p q : Bool} {R S : Symbols → Symbols → Prop}

theorem fits_nil (h : ∀ y : Symbols, b.head.Alike y.head → R y y) : Fits false b b R :=
  ⟨[], leads_nil, nofun, h⟩

theorem fits_symbol (hl : b.head = l) (hp : l.IsPlain)
    (h : ∀ y : Symbols, b.tail.head.Alike y.head → R (.cons l y) y) : Fits true b b.tail R :=
  ⟨[l], leads_nil.cons hl hp, by simp, h⟩

theorem fits_next (hl : b.head = l) (hp : l.IsPlain) :
    Fits true b b.tail fun x y => x = .cons l y :=
  fits_symbol hl hp fun _ _ => rfl

theorem Fits.cons (h : Fits p b.tail c R) (hl : b.head = l) (hp : l.IsPlain)
    (hS : ∀ x y : Symbols, b.tail.head.Alike x.head → c.head.Alike y.head → R x y → S (.cons l x) y) :
    Fits q b c S := by
  obtain ⟨u, hu, -, hR⟩ := h
  exact ⟨_, hu.cons hl hp, by simp, fun d hd => hS _ _ (hu.alike hd) hd (hR d hd)⟩

/-- What fits goes on fitting behind what fits. -/
theorem Fits.seq (h : Fits p b c R) (h' : Fits q c d S) :
    Fits (p || q) b d fun x z => ∃ y, R x y ∧ c.head.Alike y.head ∧ S y z := by
  obtain ⟨u, hu, hp, hR⟩ := h
  obtain ⟨v, hv, hq, hS⟩ := h'
  refine ⟨u ++ v, hu.append hv, fun hpq => ?_, fun e he => ?_⟩
  · rcases Bool.or_eq_true_iff.1 hpq with h | h
    · exact List.append_ne_nil_of_left_ne_nil (hp h) v
    · exact List.append_ne_nil_of_right_ne_nil u (hq h)
  · have ha := hv.alike he
    rw [Stream'.append_append_stream]
    exact ⟨_, hR _ ha, ha, hS e he⟩

/-- A part that brackets enclose. They match only together. -/
theorem Fits.brackets (ho : b.head = .mark .leftBracket) (h : Fits p b.tail c R)
    (hc : c.head = .mark .rightBracket) :
    Fits true b c.tail fun x z => ∃ x', x = .cons (.mark .leftBracket) x' ∧
      R x' (.cons (.mark .rightBracket) z) := by
  obtain ⟨u, hu, -, hR⟩ := h
  refine ⟨_, hu.brackets ho hc, by simp, fun d _ => ?_⟩
  rw [Stream'.cons_append_stream, Stream'.append_append_stream]
  exact ⟨_, rfl, hR _ (.inl hc)⟩

/-- Where a symbol was put in front for what had been read, what begins with it takes it. -/
theorem Fits.of_cons (h : Fits p (.cons l c) d R) (hl : l.IsPlain)
    (hne : p = true ∨ d.head ≠ l) : Fits false c d fun x y => R (.cons l x) y := by
  obtain ⟨u, hu, hp, hR⟩ := h
  obtain ⟨v, rfl, hv⟩ := hu.of_cons hl (hne.elim hp hu.ne_nil)
  exact ⟨v, hv, nofun, hR⟩

theorem Fits.mono (h : Fits p b c R) (hq : q = true → p = true)
    (hS : ∀ x y, b.head.Alike x.head → c.head.Alike y.head → R x y → S x y) : Fits q b c S := by
  obtain ⟨u, hu, hp, hR⟩ := h
  exact ⟨u, hu, fun h => hp (hq h), fun d hd => hS _ _ (hu.alike hd) hd (hR d hd)⟩

end Fits

section Placeholders

variable {sc : Scope} {P : Set Row} {b c : Symbols} {l : Symbol}

theorem isPlain_of_inner (h : Derives (.inner sc P) b l c) : l.IsPlain := by
  cases h <;> exact fun _ => rfl

theorem isPlain_of_parenthesis (h : Derives (.parenthesis sc P) b l c) : l.IsPlain := by
  cases h with
  | nested _ _ _ hi => exact isPlain_of_inner hi
  | opened _ _ hi => exact isPlain_of_inner hi

end Placeholders

theorem isPlain_of_isRemainder {l : Symbol} (h : l.isRemainder = true) : l.IsPlain := by
  unfold Symbol.isRemainder at h
  split at h <;> first | exact fun _ => rfl | cases h

theorem isPlain_of_comparison? {l : Symbol} {op : Comparison} (h : l.comparison? = some op) :
    l.IsPlain := by
  unfold Symbol.comparison? at h
  split at h <;> first | exact fun _ => rfl | cases h

/-- What a part takes has its meaning in front of all symbols that end the part as `c` does. -/
def Movable (k : Part) (b : Symbols) (m : k.Meaning) (c : Symbols) : Prop :=
  Fits k.consumes b c fun x y => Derives k x m y

namespace Movable

-- One lemma for each rule with a premise or a look behind what it takes, under the name of the rule.
-- It puts the symbols of the rule and the parts between them in a row, and says what the rule looks
-- at once more of the symbols that stand there now.

variable {sc sc' sc'' : Scope} {b c d e f : Symbols} {u v w sum : Value} {vs ws : List Value}
  {P Q R S : Set Row} {l l' : Symbol} {n m : Int} {op op' : Comparison} {word : Keyword}
  {x : String}

section Operands

theorem multiple (h : b.head = .number n) (hs : b.tail.head = .mark .star)
    (hf : Movable (.factor sc) b.tail.tail v c) :
    Movable (.operand sc) b (Value.map (fun q => n * q) v) c := by
  refine ((fits_next h fun _ => rfl).seq ((fits_next hs fun _ => rfl).seq hf)).mono id ?_
  rintro _ y - - ⟨_, rfl, -, _, rfl, -, hf⟩
  exact .multiple (b := .cons _ (.cons _ _)) rfl rfl hf

theorem paren (h : b.head = .mark .leftParen) (hv : Movable (.sum sc) b.tail v c)
    (hc : c.head = .mark .rightParen) : Movable (.operand sc) b v c.tail := by
  refine ((fits_next h fun _ => rfl).seq (hv.seq (fits_next hc fun _ => rfl))).mono id ?_
  rintro _ y - - ⟨_, rfl, -, _, hv, -, rfl⟩
  exact .paren (b := .cons _ _) (c := .cons _ y) rfl hv rfl

theorem floor (h : b.head = .mark .leftBracket) (hv : Movable (.sum sc) b.tail v c)
    (hc : c.head = .mark .rightBracket) :
    Movable (.operand sc) b (Value.map (fun q => ⌊q⌋) v) c.tail := by
  refine (hv.brackets h hc).mono id ?_
  rintro _ y - - ⟨_, rfl, hv⟩
  exact .floor (b := .cons _ _) (c := .cons _ y) rfl hv rfl

theorem rounded {round : ℚ → ℤ} (h : b.head = .word word) (hw : word.rounding? = some round)
    (ho : b.tail.head = .mark .leftParen) (hv : Movable (.sum sc) b.tail.tail v c)
    (hc : c.head = .mark .comma) (hm : c.tail.head = .number m) (hpos : 0 < m)
    (he : c.tail.tail.head = .mark .rightParen) :
    Movable (.operand sc) b (Value.map (fun q => round (q / m)) v) c.tail.tail.tail := by
  refine ((fits_next h fun _ => rfl).seq ((fits_next ho fun _ => rfl).seq
    (hv.seq ((fits_next hc fun _ => rfl).seq ((fits_next hm fun _ => rfl).seq
      (fits_next he fun _ => rfl)))))).mono id ?_
  rintro _ y - - ⟨_, rfl, -, _, rfl, -, _, hv, -, _, rfl, -, _, rfl, -, rfl⟩
  exact .rounded (b := .cons _ (.cons _ _)) (c := .cons _ (.cons _ (.cons _ y))) rfl hw rfl hv rfl
    rfl hpos rfl

theorem extremum {o : ℚ → ℚ → ℚ} (h : b.head = .word word) (hw : word.extremum? = some o)
    (ho : b.tail.head = .mark .leftParen) (hv : Movable (.sums sc) b.tail.tail (v :: vs) c)
    (he : c.head = .mark .rightParen) :
    Movable (.operand sc) b (vs.foldl (Value.combine o) v) c.tail := by
  refine ((fits_next h fun _ => rfl).seq ((fits_next ho fun _ => rfl).seq
    (hv.seq (fits_next he fun _ => rfl)))).mono id ?_
  rintro _ y - - ⟨_, rfl, -, _, rfl, -, _, hv, -, rfl⟩
  exact .extremum (b := .cons _ (.cons _ _)) (c := .cons _ y) rfl hw rfl hv rfl

end Operands

section Factors

theorem remainder (hv : Movable (.operand sc) b v c) (hc : c.head.isRemainder = true)
    (hm : c.tail.head = .number m) (hpos : 0 < m) :
    Movable (.factor sc) b (Value.map (fun q => q - m * ⌊q / m⌋) v) c.tail.tail := by
  refine (hv.seq ((fits_next rfl (isPlain_of_isRemainder hc)).seq
    (fits_next hm fun _ => rfl))).mono id ?_
  rintro x y - - ⟨_, hv, -, _, rfl, -, rfl⟩
  exact .remainder (c := .cons _ (.cons _ y)) hv hc rfl hpos

theorem scaled (hv : Movable (.operand sc) b v c) (hc : c.head.isRemainder = false)
    (hn : Movable .scaling c n d) (hd : d.head ≠ .mark .slash) :
    Movable (.factor sc) b (Value.map (fun q => n * q) v) d := by
  refine (hv.seq hn).mono id ?_
  rintro x y - hy ⟨_, hv, ha, hn⟩
  exact .scaled hv ((ha.congr _ rfl).trans hc) hn (hy.ne rfl hd)

theorem quotient (hv : Movable (.operand sc) b v c) (hc : c.head.isRemainder = false)
    (hn : Movable .scaling c n d) (hd : d.head = .mark .slash) (hm : d.tail.head = .number m)
    (hpos : 0 < m) : Movable (.factor sc) b (Value.map (fun q => n * q / m) v) d.tail.tail := by
  refine (hv.seq (hn.seq ((fits_next hd fun _ => rfl).seq (fits_next hm fun _ => rfl)))).mono id ?_
  rintro x y - - ⟨_, hv, ha, _, hn, -, _, rfl, -, rfl⟩
  exact .quotient (d := .cons _ (.cons _ y)) hv ((ha.congr _ rfl).trans hc) hn rfl rfl hpos

theorem star (h : b.head = .mark .star) (hn : Movable .product b.tail n c) :
    Movable .scaling b n c :=
  hn.cons h (fun _ => rfl) fun _ _ _ _ hn => .star (b := .cons _ _) rfl hn

theorem moreNumbers (h : b.head = .number n) (hs : b.tail.head = .mark .star)
    (hm : Movable .product b.tail.tail m c) : Movable .product b (n * m : Int) c := by
  refine ((fits_next h fun _ => rfl).seq ((fits_next hs fun _ => rfl).seq hm)).mono id ?_
  rintro _ y - - ⟨_, rfl, -, _, rfl, -, hm⟩
  exact .moreNumbers (b := .cons _ (.cons _ _)) rfl rfl hm

end Factors

section Sums

variable {negated : Bool}

theorem sign (h : b.head = .mark .minus) (ht : Movable (.terms sc (!negated) sum) b.tail v c) :
    Movable (.terms sc negated sum) b v c :=
  ht.cons h (fun _ => rfl) fun _ _ _ _ ht => .sign (b := .cons _ _) rfl ht

theorem coefficient (h : b.head = .number n) (hs : b.tail.head = .mark .star)
    (hf : Movable (.factor sc) b.tail.tail v c)
    (hm : Movable (.more sc (.combine (· + ·) sum (.map (fun q => signed negated n * q) v))) c w
      d) : Movable (.terms sc negated sum) b w d := by
  refine ((fits_next h fun _ => rfl).seq ((fits_next hs fun _ => rfl).seq
    (hf.seq hm))).mono id ?_
  rintro _ y - - ⟨_, rfl, -, _, rfl, -, _, hf, -, hm⟩
  exact .coefficient (b := .cons _ (.cons _ _)) rfl rfl hf hm

theorem juxtaposed (h : b.head = .number n) (hx : b.tail.head.kind = .identifier)
    (hf : Movable (.factor sc) b.tail v c)
    (hm : Movable (.more sc (.combine (· + ·) sum (.map (fun q => signed negated n * q) v))) c w
      d) : Movable (.terms sc negated sum) b w d := by
  refine ((fits_next h fun _ => rfl).seq (hf.seq hm)).mono id ?_
  rintro _ y - - ⟨_, rfl, ha, _, hf, -, hm⟩
  exact .juxtaposed (b := .cons _ _) rfl (ha.isIdentifier_iff.2 hx) hf hm

theorem number (h : b.head = .number n) (hs : b.tail.head ≠ .mark .star)
    (hx : b.tail.head.kind ≠ .identifier)
    (hf : Movable (.factor sc) (.cons (.number (signed negated n)) b.tail) v c)
    (hm : Movable (.more sc (.combine (· + ·) sum v)) c w d) :
    Movable (.terms sc negated sum) b w d := by
  -- The literal that is put back with its sign is taken by the factor.
  have hf' := hf.of_cons (fun _ => rfl) (.inl rfl)
  refine ((fits_next h fun _ => rfl).seq (hf'.seq hm)).mono id ?_
  rintro _ y - - ⟨_, rfl, ha, _, hf, -, hm⟩
  exact .number (b := .cons _ _) rfl (ha.ne rfl hs) (ha.isIdentifier_iff.not.2 hx) hf hm

theorem term (h : b.head.startsFactor = true) (hf : Movable (.factor sc) b v c)
    (hm : Movable (.more sc (accumulate negated sum v)) c w d) :
    Movable (.terms sc negated sum) b w d := by
  refine (hf.seq hm).mono id ?_
  rintro x y hx - ⟨_, hf, -, hm⟩
  exact .term ((hx.congr _ rfl).trans h) hf hm

theorem minus (h : b.head = .mark .minus) (ht : Movable (.terms sc true sum) b.tail v c) :
    Movable (.more sc sum) b v c :=
  ht.cons h (fun _ => rfl) fun _ _ _ _ ht => .minus (b := .cons _ _) rfl ht

theorem plus (h : b.head = .mark .plus) (ht : Movable (.terms sc false sum) b.tail v c) :
    Movable (.more sc sum) b v c :=
  ht.cons h (fun _ => rfl) fun _ _ _ _ ht => .plus (b := .cons _ _) rfl ht

theorem negative (h : b.head = .number n) (hn : n < 0) (ht : Movable (.terms sc false sum) b v c) :
    Movable (.more sc sum) b v c :=
  ht.mono nofun fun _ _ hx _ ht => .negative (n := n) (hx.eq rfl h) hn ht

theorem noMore (hm : b.head ≠ .mark .minus) (hp : b.head ≠ .mark .plus)
    (hn : ∀ n, b.head = .number n → ¬n < 0) : Movable (.more sc sum) b sum b := by
  refine fits_nil fun y hy => .noMore (hy.ne rfl hm) (hy.ne rfl hp) ?_
  exact (hy.congr (fun l => ∀ n, l = .number n → ¬n < 0) (by simp)).mpr hn

theorem moreSums (hv : Movable (.sum sc) b v c) (hc : c.head = .mark .comma)
    (hs : Movable (.sums sc) c.tail vs d) : Movable (.sums sc) b (v :: vs) d := by
  refine (hv.seq ((fits_next hc fun _ => rfl).seq hs)).mono id ?_
  rintro x y - - ⟨_, hv, -, _, rfl, -, hs⟩
  exact .moreSums (c := .cons _ _) hv rfl hs

theorem select (hu : Movable (.sum sc) b u c) (hc : c.head.comparison? ≠ none)
    (hQ : Movable (.condition sc (everywhere sc.size)) (.cons (.value u) c) Q d)
    (hd : d.head = .mark .question) (hv : Movable (.choice sc) d.tail v e)
    (he : e.head = .mark .colon) (hw : Movable (.choice sc) e.tail w f) :
    Movable (.choice sc) b (Value.select Q v w) f := by
  -- The value that is put back is taken by the condition, as what comes behind it cannot
  -- be one.
  have hQ' := hQ.of_cons (fun _ => rfl) (.inr (by simp [hd]))
  refine (hu.seq (hQ'.seq ((fits_next hd fun _ => rfl).seq (hv.seq
    ((fits_next he fun _ => rfl).seq hw))))).mono id ?_
  rintro x y - - ⟨_, hu, ha, _, hQ, -, _, rfl, -, _, hv, -, _, rfl, -, hw⟩
  refine .select (d := .cons _ _) (e := .cons _ _) hu ?_ hQ rfl hv rfl hw
  rwa [ha.congr Symbol.comparison? rfl]

end Sums

section Conditions

theorem disjunction (h : b.head.isStop = false) (hc : Movable (.conjunction sc P) b Q c)
    (ha : Movable (.alternatives sc P Q) c R d) : Movable (.condition sc P) b R d := by
  refine (hc.seq ha).mono nofun ?_
  rintro x y hx - ⟨_, hc, -, ha⟩
  exact .disjunction ((hx.congr _ rfl).trans h) hc ha

theorem or (h : b.head = .word .or) (hc : Movable (.conjunction sc P) b.tail R c)
    (ha : Movable (.alternatives sc P (Q ∪ R)) c S d) : Movable (.alternatives sc P Q) b S d := by
  refine ((fits_next h fun _ => rfl).seq (hc.seq ha)).mono nofun ?_
  rintro _ y - - ⟨_, rfl, -, _, hc, -, ha⟩
  exact .or (b := .cons _ _) rfl hc ha

theorem positive (h : b.head ≠ .word .not) (hc : Movable (.conjunct sc P) b Q c)
    (hs : Movable (.conjuncts sc P Q) c R d) : Movable (.conjunction sc P) b R d := by
  refine (hc.seq hs).mono id ?_
  rintro x y hx - ⟨_, hc, -, hs⟩
  exact .positive (hx.ne rfl h) hc hs

theorem negated (h : b.head = .word .not) (hc : Movable (.conjunct sc P) b.tail Q c)
    (hs : Movable (.conjuncts sc P (P \ Q)) c R d) : Movable (.conjunction sc P) b R d := by
  refine ((fits_next h fun _ => rfl).seq (hc.seq hs)).mono id ?_
  rintro _ y - - ⟨_, rfl, -, _, hc, -, hs⟩
  exact .negated (b := .cons _ _) rfl hc hs

theorem and (h : b.head = .word .and) (hn : b.tail.head ≠ .word .not)
    (hc : Movable (.conjunct sc P) b.tail R c) (hs : Movable (.conjuncts sc P (Q ∩ R)) c S d) :
    Movable (.conjuncts sc P Q) b S d := by
  refine ((fits_next h fun _ => rfl).seq (hc.seq hs)).mono nofun ?_
  rintro _ y - - ⟨_, rfl, ha, _, hc, -, hs⟩
  exact .and (b := .cons _ _) rfl (ha.ne rfl hn) hc hs

theorem andNot (h : b.head = .word .and) (hn : b.tail.head = .word .not)
    (hc : Movable (.conjunct sc P) b.tail.tail R c) (hs : Movable (.conjuncts sc P (Q \ R)) c S d) :
    Movable (.conjuncts sc P Q) b S d := by
  refine ((fits_next h fun _ => rfl).seq ((fits_next hn fun _ => rfl).seq
    (hc.seq hs))).mono nofun ?_
  rintro _ y - - ⟨_, rfl, -, _, rfl, -, _, hc, -, hs⟩
  exact .andNot (b := .cons _ (.cons _ _)) rfl rfl hc hs

theorem front (h : b.head = .mark .leftParen) (hl : l.IsPlain)
    (hp : Movable (.parenthesis sc P) b l c) (hc : Movable (.bare sc P) (.cons l c) Q d) :
    Movable (.conjunct sc P) b Q d := by
  refine (hp.seq (hc.of_cons hl (.inl rfl))).mono id ?_
  rintro x y hx - ⟨_, hp, -, hc⟩
  exact .front (hx.eq rfl h) hp hc

theorem exist (h : b.head = .word .exist) (hp : b.tail.head ≠ .mark .leftParen)
    (hv : Movable (.binders sc P) b.tail (sc', Q) c) (hc : c.head = .mark .colon)
    (hR : Movable (.condition sc' Q) c.tail R d) :
    Movable (.bare sc P) b (project sc.size R) d := by
  refine ((fits_next h fun _ => rfl).seq (hv.seq ((fits_next hc fun _ => rfl).seq hR))).mono id ?_
  rintro _ y - - ⟨_, rfl, ha, _, hv, -, _, rfl, -, hR⟩
  exact .exist (b := .cons _ _) (c := .cons _ _) rfl (ha.ne rfl hp) hv rfl hR

theorem existParen (h : b.head = .word .exist) (hp : b.tail.head = .mark .leftParen)
    (hv : Movable (.binders sc P) b.tail.tail (sc', Q) c) (hc : c.head = .mark .colon)
    (hR : Movable (.condition sc' Q) c.tail R d) (hd : d.head = .mark .rightParen) :
    Movable (.bare sc P) b (project sc.size R) d.tail := by
  refine ((fits_next h fun _ => rfl).seq ((fits_next hp fun _ => rfl).seq (hv.seq
    ((fits_next hc fun _ => rfl).seq (hR.seq (fits_next hd fun _ => rfl)))))).mono id ?_
  rintro _ y - - ⟨_, rfl, -, _, rfl, -, _, hv, -, _, rfl, -, _, hR, -, rfl⟩
  exact .existParen (b := .cons _ (.cons _ _)) (c := .cons _ _) (d := .cons _ y) rfl rfl hv rfl hR
    rfl

theorem comparisons (h : b.head.startsConjunct = false) (hv : Movable (.sums sc) b vs c)
    (hop : c.head.comparison? = some op) (hc : Movable (.chain sc vs op P) c.tail Q d) :
    Movable (.bare sc P) b Q d := by
  refine (hv.seq ((fits_next rfl (isPlain_of_comparison? hop)).seq hc)).mono id ?_
  rintro x y hx - ⟨_, hv, -, _, rfl, -, hc⟩
  exact .comparisons (c := .cons _ _) ((hx.congr _ rfl).trans h) hv hop hc

theorem moreComparisons (hw : Movable (.sums sc) b ws c) (hop : c.head.comparison? = some op')
    (hc : Movable (.chain sc ws op' (P ∩ Value.compare op vs ws)) c.tail Q d) :
    Movable (.chain sc vs op P) b Q d := by
  refine (hw.seq ((fits_next rfl (isPlain_of_comparison? hop)).seq hc)).mono id ?_
  rintro x y - - ⟨_, hw, -, _, rfl, -, hc⟩
  exact .moreComparisons (c := .cons _ _) hw hop hc

end Conditions

section Binders

theorem defined (h : b.head = .name x) (hx : sc.position? x = none) (he : b.tail.head = .mark .eq)
    (hv : Movable (.choice (sc.declare (some x))) b.tail.tail v c) :
    Movable (.binder sc P) b
      (sc.declare (some x), extend sc.size P ∩ Value.equals sc.size v) c := by
  refine ((fits_next h fun _ => rfl).seq ((fits_next he fun _ => rfl).seq hv)).mono id ?_
  rintro _ y - - ⟨_, rfl, -, _, rfl, -, hv⟩
  exact .defined (b := .cons _ (.cons _ _)) rfl hx rfl hv

theorem noBinders (h : b.head.kind ≠ .identifier) : Movable (.binders sc P) b (sc, P) b :=
  fits_nil fun _ hy => .noBinders (hy.isIdentifier_iff.not.2 h)

theorem lastBinder (hb : b.head.kind = .identifier) (hv : Movable (.binder sc P) b (sc', Q) c)
    (hc : c.head ≠ .mark .comma) : Movable (.binders sc P) b (sc', Q) c :=
  hv.mono nofun fun _ _ hx hy hv => .lastBinder (hx.isIdentifier_iff.2 hb) hv (hy.ne rfl hc)

theorem moreBinders (hb : b.head.kind = .identifier) (hv : Movable (.binder sc P) b (sc', Q) c)
    (hc : c.head = .mark .comma) (hs : Movable (.binders sc' Q) c.tail (sc'', R) d) :
    Movable (.binders sc P) b (sc'', R) d := by
  refine (hv.seq ((fits_next hc fun _ => rfl).seq hs)).mono nofun ?_
  rintro x y hx - ⟨_, hv, -, _, rfl, -, hs⟩
  exact .moreBinders (c := .cons _ _) (hx.isIdentifier_iff.2 hb) hv rfl hs

end Binders

section Parentheses

theorem nested (h : b.head = .mark .leftParen) (hn : b.tail.head = .mark .leftParen)
    (hl : l.IsPlain) (hp : Movable (.parenthesis sc P) b.tail l c)
    (hi : Movable (.inner sc P) (.cons l c) l' d) : Movable (.parenthesis sc P) b l' d := by
  have hi' := hi.of_cons hl (.inl rfl)
  refine ((fits_next h fun _ => rfl).seq (hp.seq hi')).mono id ?_
  rintro _ y - - ⟨_, rfl, ha, _, hp, -, hi⟩
  exact .nested (b := .cons _ _) rfl (ha.eq rfl hn) hp hi

theorem innerCondition (h : b.head.startsCondition = true) (hQ : Movable (.condition sc P) b Q c)
    (hc : c.head = .mark .rightParen) : Movable (.inner sc P) b (Symbol.points Q) c.tail := by
  refine (hQ.seq (fits_next hc fun _ => rfl)).mono (fun _ => rfl) ?_
  rintro x y hx - ⟨_, hQ, -, rfl⟩
  exact .innerCondition (c := .cons _ y) ((hx.congr _ rfl).trans h) hQ rfl

theorem innerSum (h : b.head.startsCondition = false) (hv : Movable (.sum sc) b v c)
    (hc : c.head = .mark .rightParen) : Movable (.inner sc P) b (Symbol.value v) c.tail := by
  refine (hv.seq (fits_next hc fun _ => rfl)).mono id ?_
  rintro x y hx - ⟨_, hv, -, rfl⟩
  exact .innerSum (c := .cons _ y) ((hx.congr _ rfl).trans h) hv rfl

theorem innerComparison (h : b.head.startsCondition = false) (hv : Movable (.sum sc) b v c)
    (hc : c.head ≠ .mark .rightParen) (hQ : Movable (.condition sc P) (.cons (.value v) c) Q d)
    (hd : d.head = .mark .rightParen) : Movable (.inner sc P) b (Symbol.points Q) d.tail := by
  have hQ' := hQ.of_cons (fun _ => rfl) (.inr (by simp [hd]))
  refine (hv.seq (hQ'.seq (fits_next hd fun _ => rfl))).mono id ?_
  rintro x y hx - ⟨_, hv, ha, _, hQ, -, rfl⟩
  exact .innerComparison (d := .cons _ y) ((hx.congr _ rfl).trans h) hv (ha.ne rfl hc) hQ rfl

end Parentheses

end Movable

theorem Derives.movable {k : Part} {b c : Symbols} {m : k.Meaning} (h : Derives k b m c) :
    Movable k b m c := by
  induction h with
  | value h => exact fits_symbol h (fun _ => rfl) fun y _ => .value (b := .cons _ y) rfl
  | name h hx => exact fits_symbol h (fun _ => rfl) fun y _ => .name (b := .cons _ y) rfl hx
  | literal h hs =>
    exact fits_symbol h (fun _ => rfl) fun y hy => .literal (b := .cons _ y) rfl (hy.ne rfl hs)
  | multiple h hs _ ih => exact ih.multiple h hs
  | paren h _ hc ih => exact ih.paren h hc
  | floor h _ hc ih => exact ih.floor h hc
  | rounded h hw ho _ hc hm hpos he ih => exact ih.rounded h hw ho hc hm hpos he
  | extremum h hw ho _ he ih => exact ih.extremum h hw ho he
  | remainder _ hc hm hpos ih => exact ih.remainder hc hm hpos
  | scaled _ hc _ hd ih ih' => exact ih.scaled hc ih' hd
  | quotient _ hc _ hd hm hpos ih ih' => exact ih.quotient hc ih' hd hm hpos
  | unscaled h => exact fits_nil fun y hy => .unscaled (hy.ne rfl h)
  | star h _ ih => exact ih.star h
  | lastNumber h hs =>
    exact fits_symbol h (fun _ => rfl) fun y hy => .lastNumber (b := .cons _ y) rfl (hy.ne rfl hs)
  | moreNumbers h hs _ ih => exact ih.moreNumbers h hs
  | sign h _ ih => exact ih.sign h
  | coefficient h hs _ _ ih ih' => exact ih.coefficient h hs ih'
  | juxtaposed h hx _ _ ih ih' => exact ih.juxtaposed h hx ih'
  | number h hs hx _ _ ih ih' => exact ih.number h hs hx ih'
  | term h _ _ ih ih' => exact ih.term h ih'
  | minus h _ ih => exact ih.minus h
  | plus h _ ih => exact ih.plus h
  | negative h hn _ ih => exact ih.negative h hn
  | noMore hm hp hn => exact .noMore hm hp hn
  | lastSum _ hc ih => exact ih.mono id fun _ _ _ hy hv => .lastSum hv (hy.ne rfl hc)
  | moreSums _ hc _ ih ih' => exact ih.moreSums hc ih'
  | only _ hc ih => exact ih.mono id fun _ _ _ hy hv => .only hv ((hy.congr _ rfl).trans hc)
  | select _ hc _ hd _ he _ ihu ihQ ihv ihw => exact ihu.select hc ihQ hd ihv he ihw
  | empty h => exact fits_nil fun y hy => .empty ((hy.congr _ rfl).trans h)
  | disjunction h _ _ ih ih' => exact ih.disjunction h ih'
  | or h _ _ ih ih' => exact ih.or h ih'
  | noOr h => exact fits_nil fun y hy => .noOr (hy.ne rfl h)
  | positive h _ _ ih ih' => exact ih.positive h ih'
  | negated h _ _ ih ih' => exact ih.negated h ih'
  | and h hn _ _ ih ih' => exact ih.and h hn ih'
  | andNot h hn _ _ ih ih' => exact ih.andNot h hn ih'
  | noAnd h => exact fits_nil fun y hy => .noAnd (hy.ne rfl h)
  | front h hp _ ih ih' => exact ih.front h (isPlain_of_parenthesis hp) ih'
  | plain h _ ih => exact ih.mono id fun _ _ hx _ hc => .plain (hx.ne rfl h) hc
  | points h => exact fits_symbol h (fun _ => rfl) fun y _ => .points (b := .cons _ y) rfl
  | always h => exact fits_symbol h (fun _ => rfl) fun y _ => .always (b := .cons _ y) rfl
  | never h => exact fits_symbol h (fun _ => rfl) fun y _ => .never (b := .cons _ y) rfl
  | exist h hp _ hc _ ih ih' => exact ih.exist h hp hc ih'
  | existParen h hp _ hc _ hd ih ih' => exact ih.existParen h hp hc ih' hd
  | comparisons h _ hop _ ih ih' => exact ih.comparisons h hop ih'
  | lastComparison _ hc ih =>
    exact ih.mono id fun _ _ _ hy hw => .lastComparison hw ((hy.congr _ rfl).trans hc)
  | moreComparisons _ hop _ ih ih' => exact ih.moreComparisons hop ih'
  | free h hx he =>
    exact fits_symbol h (fun _ => rfl) fun y hy => .free (b := .cons _ y) rfl hx (hy.ne rfl he)
  | defined h hx he _ ih => exact ih.defined h hx he
  | noBinders h => exact .noBinders h
  | lastBinder hb _ hc ih => exact ih.lastBinder hb hc
  | moreBinders hb _ hc _ ih ih' => exact ih.moreBinders hb hc ih'
  | nested h hn hp _ ih ih' => exact ih.nested h hn (isPlain_of_parenthesis hp) ih'
  | opened h hn _ ih =>
    exact ih.cons h (fun _ => rfl) fun _ _ ha _ hi => .opened (b := .cons _ _) rfl (ha.ne rfl hn) hi
  | innerCondition h _ hc ih => exact ih.innerCondition h hc
  | innerSum h _ hc ih => exact ih.innerSum h hc
  | innerComparison h _ hc _ hd ih ih' => exact ih.innerComparison h hc ih' hd

/-- What a part takes, as a list of symbols. -/
theorem Derives.exists_local {k : Part} {b c : Symbols} {m : k.Meaning} (h : Derives k b m c) :
    ∃ u, Local k b m c u :=
  let ⟨u, hu, hne, hagain⟩ := h.movable
  ⟨u, hu, hne, hagain⟩

end Parse

end Quasiaffine
