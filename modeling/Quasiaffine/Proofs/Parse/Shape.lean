import Quasiaffine.Proofs.Parse.Locality

/-!
What tuples mean, and the texts of piecewise functions: a header that declares parameters, and pieces
that have values on sets. As for expressions, the symbols determine how far a part reaches.
-/

set_option autoImplicit false

namespace Quasiaffine

def Symbol.mayNameTuple : Symbol → Bool
  | name _ | word _ => true
  | _ => false

namespace Parse

def StartsTuple (b : Symbols) : Prop :=
  b.head = .mark .leftBracket ∨ b.head.mayNameTuple = true ∧ b.tail.head = .mark .leftBracket

inductive ArrowBehind : Nat → Symbols → Prop
  | opens {n : Nat} {b : Symbols} (h : b.head = .mark .leftBracket)
      (hb : ArrowBehind (n + 1) b.tail) : ArrowBehind n b
  | closes {n : Nat} {b : Symbols} (h : b.head = .mark .rightBracket) (hn : 1 < n)
      (hb : ArrowBehind (n - 1) b.tail) : ArrowBehind n b
  | found {n : Nat} {b : Symbols} (h : b.head = .mark .rightBracket) (hn : n ≤ 1)
      (ha : b.tail.head = .mark .arrow) : ArrowBehind n b
  | other {n : Nat} {b : Symbols} (ho : b.head ≠ .mark .leftBracket)
      (hc : b.head ≠ .mark .rightBracket) (he : b.head ≠ .finish) (hb : ArrowBehind n b.tail) :
      ArrowBehind n b

section ArrowBehind

variable {n : Nat} {b : Symbols}

theorem arrowBehind_opens_iff (h : b.head = .mark .leftBracket) :
    ArrowBehind n b ↔ ArrowBehind (n + 1) b.tail := by
  refine ⟨fun hb => ?_, .opens h⟩
  cases hb <;> simp_all

theorem arrowBehind_closes_iff (h : b.head = .mark .rightBracket) (hn : 1 < n) :
    ArrowBehind n b ↔ ArrowBehind (n - 1) b.tail := by
  refine ⟨fun hb => ?_, .closes h hn⟩
  cases hb with
  | closes _ _ hb => exact hb
  | found _ hn' => exact absurd hn (Nat.not_lt_of_le hn')
  | opens ho => simp [h] at ho
  | other _ hc => exact absurd h hc

theorem arrowBehind_found_iff (h : b.head = .mark .rightBracket) (hn : n ≤ 1) :
    ArrowBehind n b ↔ b.tail.head = .mark .arrow := by
  refine ⟨fun hb => ?_, .found h hn⟩
  cases hb with
  | found _ _ ha => exact ha
  | closes _ hn' => exact absurd hn (Nat.not_le_of_lt hn')
  | opens ho => simp [h] at ho
  | other _ hc => exact absurd h hc

theorem not_arrowBehind_finish (h : b.head = .finish) : ¬ArrowBehind n b := by
  intro hb
  cases hb <;> simp_all

theorem arrowBehind_other_iff (ho : b.head ≠ .mark .leftBracket)
    (hc : b.head ≠ .mark .rightBracket) (he : b.head ≠ .finish) :
    ArrowBehind n b ↔ ArrowBehind n b.tail := by
  refine ⟨fun hb => ?_, .other ho hc he⟩
  cases hb <;> simp_all

end ArrowBehind

/-- Whether a tuple of two tuples goes on here, behind its bracket. -/
def Wraps (kind : DimKind) (b : Symbols) : Prop :=
  kind ≠ .param ∧ StartsTuple b ∧ ArrowBehind 0 b

inductive DerivesItem (kind : DimKind) (sc : Scope) (P : Set Row) (b : Symbols) :
    Scope → Set Row → Symbols → Prop
  | fresh {sc' : Scope} {Q : Set Row} {c : Symbols} (h : Derives (.binder sc P) b (sc', Q) c) :
      DerivesItem kind sc P b sc' Q c
  | value {v : Value} {c : Symbols} (hk : kind ≠ .param)
      (hx : ∀ x, b.head = .name x → sc.position? x ≠ none)
      (h : Derives (.choice (sc.declare none)) b v c) :
      DerivesItem kind sc P b (sc.declare none) (extend sc.size P ∩ Value.equals sc.size v) c

inductive DerivesItems (kind : DimKind) :
    Scope → Set Row → Symbols → Scope → Set Row → Symbols → Prop
  | last {sc sc' : Scope} {P Q : Set Row} {b c : Symbols} (h : DerivesItem kind sc P b sc' Q c)
      (hc : c.head ≠ .mark .comma)
      (hn : c.head = .mark .rightBracket → c.tail.head ≠ .mark .leftBracket) :
      DerivesItems kind sc P b sc' Q c
  | comma {sc sc' sc'' : Scope} {P Q R : Set Row} {b c d : Symbols}
      (h : DerivesItem kind sc P b sc' Q c) (hc : c.head = .mark .comma)
      (hs : DerivesItems kind sc' Q c.tail sc'' R d) : DerivesItems kind sc P b sc'' R d
  | brackets {sc sc' sc'' : Scope} {P Q R : Set Row} {b c d : Symbols}
      (h : DerivesItem kind sc P b sc' Q c) (hc : c.head = .mark .rightBracket)
      (hn : c.tail.head = .mark .leftBracket) (hs : DerivesItems kind sc' Q c.tail.tail sc'' R d) :
      DerivesItems kind sc P b sc'' R d

inductive DerivesTuple (kind : DimKind) :
    Scope → Set Row → Symbols → Scope → Set Row → Symbols → Prop
  | named {sc sc' : Scope} {P Q : Set Row} {b c : Symbols} (h : b.head.mayNameTuple = true)
      (ho : b.tail.head = .mark .leftBracket) (ht : DerivesTuple kind sc P b.tail sc' Q c) :
      DerivesTuple kind sc P b sc' Q c
  | unit {sc : Scope} {P : Set Row} {b : Symbols} (h : b.head = .mark .leftBracket)
      (hc : b.tail.head = .mark .rightBracket) : DerivesTuple kind sc P b sc P b.tail.tail
  | flat {sc sc' : Scope} {P Q : Set Row} {b c : Symbols} (h : b.head = .mark .leftBracket)
      (hw : ¬Wraps kind b.tail) (hne : b.tail.head ≠ .mark .rightBracket)
      (hi : DerivesItems kind sc P b.tail sc' Q c) (hc : c.head = .mark .rightBracket) :
      DerivesTuple kind sc P b sc' Q c.tail
  | wrap {sc sc' sc'' : Scope} {P Q R : Set Row} {b c d : Symbols}
      (h : b.head = .mark .leftBracket) (hw : Wraps kind b.tail)
      (hs : DerivesTuple kind sc P b.tail sc' Q c) (ha : c.head = .mark .arrow)
      (ht : DerivesTuple kind sc' Q c.tail sc'' R d) (hd : d.head = .mark .rightBracket) :
      DerivesTuple kind sc P b sc'' R d.tail

inductive DerivesHeader (b : Symbols) : Scope → Set Row → Symbols → Prop
  | none (h : b.head ≠ .mark .leftBracket) : DerivesHeader b .empty (everywhere 0) b
  | some {sc : Scope} {P : Set Row} {c : Symbols} (h : b.head = .mark .leftBracket)
      (ht : DerivesTuple .param .empty (everywhere 0) b sc P c) (ha : c.head = .mark .arrow) :
      DerivesHeader b sc P c.tail

inductive DerivesValue (sc : Scope) (P : Set Row) (b : Symbols) : Value → Symbols → Prop
  | unconditional {v : Value} {c : Symbols} (h : b.head = .mark .leftBracket)
      (hv : Derives (.choice sc) b.tail v c) (hc : c.head = .mark .rightBracket)
      (hn : c.tail.head ≠ .mark .colon ∧ c.tail.head ≠ .mark .pipe) :
      DerivesValue sc P b (.restrict P v) c.tail
  | conditional {v : Value} {Q : Set Row} {c d : Symbols} (h : b.head = .mark .leftBracket)
      (hv : Derives (.choice sc) b.tail v c) (hc : c.head = .mark .rightBracket)
      (hn : c.tail.head = .mark .colon ∨ c.tail.head = .mark .pipe)
      (hQ : Derives (.condition sc P) c.tail.tail Q d) : DerivesValue sc P b (.restrict Q v) d

/-- Whether a piece begins with a tuple of variables, and not with its value over the parameters. -/
def HasDomain (sc : Scope) (b : Symbols) : Prop :=
  b.head.mayNameTuple = true ∨ b.head = .mark .leftBracket ∧ (StartsTuple b.tail ∨
    b.tail.head = .mark .rightBracket ∨ ∃ x, b.tail.head = .name x ∧ sc.position? x = none)

inductive DerivesPiece (sc : Scope) (P : Set Row) (b : Symbols) : Value → Symbols → Prop
  | onDomain {sc' : Scope} {Q : Set Row} {v : Value} {c d : Symbols} (hd : HasDomain sc b)
      (ht : DerivesTuple .output sc P b sc' Q c) (ha : c.head = .mark .arrow)
      (hv : DerivesValue sc' Q c.tail v d) : DerivesPiece sc P b v d
  | onParams {v : Value} {c : Symbols} (hd : ¬HasDomain sc b) (hv : DerivesValue sc P b v c) :
      DerivesPiece sc P b v c

section Unique

variable {kind : DimKind} {sc sc₁ sc₂ : Scope} {P Q₁ Q₂ : Set Row} {b c₁ c₂ : Symbols}
  {v₁ v₂ : Value}

theorem DerivesItem.unique (h₁ : DerivesItem kind sc P b sc₁ Q₁ c₁)
    (h₂ : DerivesItem kind sc P b sc₂ Q₂ c₂) : sc₁ = sc₂ ∧ Q₁ = Q₂ ∧ c₁ = c₂ := by
  have hfresh : ∀ {sc' Q c}, Derives (.binder sc P) b (sc', Q) c →
      ¬∀ x, b.head = .name x → sc.position? x ≠ none := by
    intro sc' Q c h hall
    cases h with
    | free hx hn | defined hx hn => exact hall _ hx hn
  cases h₁ with
  | fresh h₁ =>
    cases h₂ with
    | fresh h₂ =>
      obtain ⟨hm, hc⟩ := h₂.unique h₁
      exact ⟨congrArg Prod.fst hm, congrArg Prod.snd hm, hc⟩
    | value _ hx _ => exact absurd hx (hfresh h₁)
  | value _ hx h₁ =>
    cases h₂ with
    | fresh h₂ => exact absurd hx (hfresh h₂)
    | value _ _ h₂ =>
      obtain ⟨rfl, rfl⟩ := h₂.unique h₁
      exact ⟨rfl, rfl, rfl⟩

theorem DerivesItems.unique (h₁ : DerivesItems kind sc P b sc₁ Q₁ c₁) :
    ∀ {sc₂ Q₂ c₂}, DerivesItems kind sc P b sc₂ Q₂ c₂ → sc₁ = sc₂ ∧ Q₁ = Q₂ ∧ c₁ = c₂ := by
  induction h₁ with
  | last h hc hn =>
    rintro sc₂ Q₂ c₂ (⟨h', hc', hn'⟩ | ⟨h', hc', hs'⟩ | ⟨h', hc', hn', hs'⟩) <;>
      obtain ⟨rfl, rfl, rfl⟩ := h.unique h'
    · exact ⟨rfl, rfl, rfl⟩
    · exact absurd hc' hc
    · exact absurd hn' (hn hc')
  | comma h hc hs ih =>
    rintro sc₂ Q₂ c₂ (⟨h', hc', hn'⟩ | ⟨h', hc', hs'⟩ | ⟨h', hc', hn', hs'⟩) <;>
      obtain ⟨rfl, rfl, rfl⟩ := h.unique h'
    · exact absurd hc hc'
    · exact ih hs'
    · simp [hc] at hc'
  | brackets h hc hn hs ih =>
    rintro sc₂ Q₂ c₂ (⟨h', hc', hn'⟩ | ⟨h', hc', hs'⟩ | ⟨h', hc', hn', hs'⟩) <;>
      obtain ⟨rfl, rfl, rfl⟩ := h.unique h'
    · exact absurd hn (hn' hc)
    · simp [hc] at hc'
    · exact ih hs'

theorem not_wraps_of_rightBracket (h : b.head = .mark .rightBracket) : ¬Wraps kind b := by
  rintro ⟨-, hstarts, -⟩
  simp [StartsTuple, h, Symbol.mayNameTuple] at hstarts

theorem DerivesTuple.unique (h₁ : DerivesTuple kind sc P b sc₁ Q₁ c₁) :
    ∀ {sc₂ Q₂ c₂}, DerivesTuple kind sc P b sc₂ Q₂ c₂ → sc₁ = sc₂ ∧ Q₁ = Q₂ ∧ c₁ = c₂ := by
  induction h₁ with
  | named h ho _ ih =>
    intro sc₂ Q₂ c₂ h'
    cases h' with
    | named _ _ ht' => exact ih ht'
    | unit h' | flat h' | wrap h' => simp [h', Symbol.mayNameTuple] at h
  | unit h hc =>
    intro sc₂ Q₂ c₂ h'
    cases h' with
    | named h' => simp [h, Symbol.mayNameTuple] at h'
    | unit => exact ⟨rfl, rfl, rfl⟩
    | flat _ _ hne => exact absurd hc hne
    | wrap _ hw => exact absurd hw (not_wraps_of_rightBracket hc)
  | flat h hw hne hi hc =>
    intro sc₂ Q₂ c₂ h'
    cases h' with
    | named h' => simp [h, Symbol.mayNameTuple] at h'
    | unit _ hc' => exact absurd hc' hne
    | flat _ _ _ hi' =>
      obtain ⟨rfl, rfl, rfl⟩ := hi.unique hi'
      exact ⟨rfl, rfl, rfl⟩
    | wrap _ hw' => exact absurd hw' hw
  | wrap h hw _ _ _ hd ihs iht =>
    intro sc₂ Q₂ c₂ h'
    cases h' with
    | named h' => simp [h, Symbol.mayNameTuple] at h'
    | unit _ hc' => exact absurd hw (not_wraps_of_rightBracket hc')
    | flat _ hw' => exact absurd hw hw'
    | wrap _ _ hs' _ ht' =>
      obtain ⟨rfl, rfl, rfl⟩ := ihs hs'
      obtain ⟨rfl, rfl, rfl⟩ := iht ht'
      exact ⟨rfl, rfl, rfl⟩

theorem DerivesHeader.unique (h₁ : DerivesHeader b sc₁ Q₁ c₁) (h₂ : DerivesHeader b sc₂ Q₂ c₂) :
    sc₁ = sc₂ ∧ Q₁ = Q₂ ∧ c₁ = c₂ := by
  cases h₁ with
  | none h₁ =>
    cases h₂ with
    | none => exact ⟨rfl, rfl, rfl⟩
    | some h₂ => exact absurd h₂ h₁
  | some h₁ ht₁ =>
    cases h₂ with
    | none h₂ => exact absurd h₁ h₂
    | some _ ht₂ =>
      obtain ⟨rfl, rfl, rfl⟩ := ht₁.unique ht₂
      exact ⟨rfl, rfl, rfl⟩

theorem DerivesValue.unique (h₁ : DerivesValue sc P b v₁ c₁) (h₂ : DerivesValue sc P b v₂ c₂) :
    v₁ = v₂ ∧ c₁ = c₂ := by
  cases h₁ with
  | unconditional _ hv₁ _ hn₁ =>
    cases h₂ with
    | unconditional _ hv₂ =>
      obtain ⟨rfl, rfl⟩ := hv₂.unique hv₁
      exact ⟨rfl, rfl⟩
    | conditional _ hv₂ _ hn₂ =>
      obtain ⟨rfl, rfl⟩ := hv₂.unique hv₁
      exact (hn₂.elim hn₁.1 hn₁.2).elim
  | conditional _ hv₁ _ hn₁ hQ₁ =>
    cases h₂ with
    | unconditional _ hv₂ _ hn₂ =>
      obtain ⟨rfl, rfl⟩ := hv₂.unique hv₁
      exact (hn₁.elim hn₂.1 hn₂.2).elim
    | conditional _ hv₂ _ _ hQ₂ =>
      obtain ⟨rfl, rfl⟩ := hv₂.unique hv₁
      obtain ⟨rfl, rfl⟩ := hQ₂.unique hQ₁
      exact ⟨rfl, rfl⟩

theorem DerivesPiece.unique (h₁ : DerivesPiece sc P b v₁ c₁) (h₂ : DerivesPiece sc P b v₂ c₂) :
    v₁ = v₂ ∧ c₁ = c₂ := by
  cases h₁ with
  | onDomain hd₁ ht₁ _ hv₁ =>
    cases h₂ with
    | onDomain _ ht₂ _ hv₂ =>
      obtain ⟨rfl, rfl, rfl⟩ := ht₁.unique ht₂
      exact hv₁.unique hv₂
    | onParams hd₂ => exact absurd hd₁ hd₂
  | onParams hd₁ hv₁ =>
    cases h₂ with
    | onDomain hd₂ => exact absurd hd₂ hd₁
    | onParams _ hv₂ => exact hv₁.unique hv₂

end Unique

end Parse

end Quasiaffine
