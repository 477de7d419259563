import Quasiaffine.Proofs.Reader.Brackets
import Quasiaffine.Proofs.Reader.Conditions
import Quasiaffine.Proofs.Reader.TupleParts

set_option autoImplicit false

namespace Quasiaffine

open Reading

namespace Frame

def declareAs (F : Frame) : DimKind → Label → Frame
  | .param => F.declareParam
  | _ => F.declare

/-- A frame with `n` more variables of a kind. -/
structure Grows (kind : DimKind) (F G : Frame) (n : Nat) : Prop where
  names : ∃ labels : List Label, labels.length = n ∧ G.scope.names = F.scope.names ++ labels
  params : G.params = if kind = .param then F.params + n else F.params

def Admits (F : Frame) (kind : DimKind) : Prop :=
  kind = .output ∨ kind = .param ∧ F.params = F.size

variable {F : Frame} {kind : DimKind} {label : Label}

@[simp] theorem scope_declareAs : (F.declareAs kind label).scope = F.scope.declare label := by
  cases kind <;> rfl

@[simp] theorem size_declareAs : (F.declareAs kind label).size = F.size + 1 := by
  simp [size]

namespace Grows

variable {G H : Frame} {m n : Nat}

theorem refl (kind : DimKind) (F : Frame) : Grows kind F F 0 :=
  ⟨⟨[], rfl, (List.append_nil _).symm⟩, by simp⟩

theorem trans (hFG : Grows kind F G m) (hGH : Grows kind G H n) : Grows kind F H (m + n) := by
  obtain ⟨labels, hl, hG⟩ := hFG.names
  obtain ⟨labels', hl', hH⟩ := hGH.names
  refine ⟨⟨labels ++ labels', by simp [hl, hl'], by rw [hH, hG, List.append_assoc]⟩, ?_⟩
  rw [hGH.params, hFG.params]
  split <;> omega

theorem size_eq (h : Grows kind F G n) : G.size = F.size + n := by
  obtain ⟨labels, hl, hG⟩ := h.names
  simp [size, Scope.size, hG, hl]

theorem size_le (h : Grows kind F G n) : F.size ≤ G.size := by
  rw [h.size_eq]
  exact Nat.le_add_right _ _

theorem admits (h : Grows kind F G n) (hF : F.Admits kind) : G.Admits kind := by
  refine hF.imp_right fun ⟨hk, hF⟩ => ⟨hk, ?_⟩
  rw [h.params, if_pos hk, hF, h.size_eq]

end Grows

theorem Grows.extends {G : Frame} {n : Nat} (h : Grows .output F G n) : F.Extends G := by
  obtain ⟨labels, -, hG⟩ := h.names
  exact ⟨h.params, labels, hG.symm⟩

theorem grows_declareAs (hF : F.Admits kind) (label : Label) :
    Grows kind F (F.declareAs kind label) 1 := by
  refine ⟨⟨[label], rfl, by simp [Scope.declare]⟩, ?_⟩
  rcases hF with rfl | ⟨rfl, hF⟩
  · rfl
  · rw [if_pos rfl, hF]
    rfl

theorem Means.addParam_eq_ok {quantifiers : Prop} {a : Relation} {P : Row → Prop}
    (ha : F.Means quantifiers a P) (hF : F.params = F.size) (label : Label) :
    ∃ r, a.addDims .param 1 = .ok r ∧
      (F.declareParam label).Means quantifiers r fun x => P (x.take F.size) := by
  have hdescribes := ha.describes
  rw [space, hF, Nat.sub_self] at hdescribes
  obtain ⟨r, hok, hr, hk⟩ := hdescribes.addParam_eq_ok
  have hspace : (F.declareParam label).space = .anonymousSet (F.size + 1) 0 := by
    rw [space, size_declareParam]
    exact congrArg (Space.anonymousSet (F.size + 1)) (Nat.sub_self _)
  exact ⟨r, hok, hspace ▸ hr, ha.known.imp_right hk⟩

theorem Means.addDim_eq_ok {quantifiers : Prop} {a : Relation} {P : Row → Prop}
    (ha : F.Means quantifiers a P) (hF : F.Admits kind) (label : Label) :
    ∃ r, a.addDims kind 1 = .ok r ∧
      (F.declareAs kind label).Means quantifiers r fun x => P (x.take F.size) := by
  rcases hF with rfl | ⟨rfl, hF⟩
  · exact ha.addOutput_eq_ok label
  · exact ha.addParam_eq_ok hF label

end Frame

def IsTitle (x : String) : Prop := IsName x ∨ ∃ word : Keyword, x = word.text

theorem Lexeme.isTitle_of_tupleName {l : Lexeme} (h : ∀ x, l = .identifier x → IsName x) :
    ∀ x ∈ l.tupleName, IsTitle x := by
  cases l with
  | identifier name =>
    rintro x ⟨⟩
    exact .inl (h name rfl)
  | keyword word spelled =>
    cases spelled with
    | false => exact nofun
    | true =>
      rintro x ⟨⟩
      exact .inr ⟨word, rfl⟩
  | _ => exact nofun

def Tuple.Writable : Tuple → Prop
  | flat name _ => ∀ x ∈ name, IsTitle x
  | wrapping name ids domain range => (∀ x ∈ name, IsTitle x) ∧
      ids.length = domain.size + range.size ∧ domain.Writable ∧ range.Writable

namespace Tuple

theorem ids_rename (t : Tuple) (name : Label) : (t.rename name).ids = t.ids := by
  cases t <;> rfl

variable {s t : Tuple} {name : Label} {ids : List Label}

theorem writable_flat_none : (flat none ids).Writable := nofun

theorem Writable.wrap (hs : s.Writable) (ht : t.Writable) : (wrap none s t).Writable :=
  ⟨nofun, List.length_append, hs, ht⟩

theorem Writable.rename (ht : t.Writable) (hname : ∀ x ∈ name, IsTitle x) :
    (t.rename name).Writable := by
  cases t with
  | flat => exact hname
  | wrapping => exact ⟨hname, ht.2⟩

end Tuple

namespace Phrase

variable (kind : DimKind)

inductive Item (F : Frame) : List Lexeme → Frame → Label → (Row → Prop) → Prop
  | free {name : String} (hn : F.scope.position? name = none) :
      Item F [.identifier name] (F.declareAs kind (some name))
        (some (Grammar.dimensionName name)) fun _ => True
  | defined {name : String} {ls : List Lexeme} {v : Row → ℚ} (hn : F.scope.position? name = none)
      (h : Sum (F.declareAs kind (some name)) ls v) :
      Item F (.identifier name :: .mark .eq :: ls) (F.declareAs kind (some name))
        (some (Grammar.dimensionName name)) fun x => (x.entry F.size : ℚ) = v x
  | expression {ls : List Lexeme} {v : Row → ℚ} (hk : kind ≠ .param)
      (h : Sum (F.declareAs kind none) ls v) :
      Item F ls (F.declareAs kind none) none fun x => (x.entry F.size : ℚ) = v x

inductive Items : Frame → List Lexeme → Frame → List Label → (Row → Prop) → Prop
  | last {F G : Frame} {ls : List Lexeme} {label : Label} {D : Row → Prop}
      (h : Item kind F ls G label D) : Items F ls G [label] D
  | more {F G H : Frame} {ls ls' : List Lexeme} {label : Label} {labels : List Label}
      {D E : Row → Prop} (h : Item kind F ls G label D) (hs : Items G ls' H labels E) :
      Items F (ls ++ .mark .comma :: ls') H (label :: labels) fun x => D (x.take G.size) ∧ E x

mutual

inductive Bracketed : Frame → List Lexeme → Frame → Tuple → (Row → Prop) → Prop
  | unit {F : Frame} : Bracketed F [.mark .leftBracket, .mark .rightBracket] F .unit fun _ => True
  | flat {F G : Frame} {ls : List Lexeme} {labels : List Label} {D : Row → Prop}
      (h : Items kind F ls G labels D) :
      Bracketed F (.mark .leftBracket :: (ls ++ [.mark .rightBracket])) G (.flat none labels) D
  | wrap {F G H : Frame} {ls ls' : List Lexeme} {s t : Tuple} {D E : Row → Prop}
      (hk : kind ≠ .param) (h : Shape F ls G s D) (h' : Shape G ls' H t E) :
      Bracketed F (.mark .leftBracket :: (ls ++ .mark .arrow :: (ls' ++ [.mark .rightBracket]))) H
        (.wrap none s t) fun x => D (x.take G.size) ∧ E x

inductive Shape : Frame → List Lexeme → Frame → Tuple → (Row → Prop) → Prop
  | unnamed {F G : Frame} {ls : List Lexeme} {t : Tuple} {D : Row → Prop}
      (h : Bracketed F ls G t D) : Shape F ls G (t.rename none) D
  | named {F G : Frame} {l : Lexeme} {ls : List Lexeme} {t : Tuple} {D : Row → Prop}
      (hl : Grammar.mayNameTuple l = true) (h : Bracketed F ls G t D) :
      Shape F (l :: ls) G (t.rename l.tupleName) D

end

variable {kind : DimKind} {F G : Frame} {ls : List Lexeme} {label : Label} {labels : List Label}
  {t : Tuple} {D : Row → Prop}

theorem Item.grows (h : Item kind F ls G label D) (hF : F.Admits kind) : Frame.Grows kind F G 1 := by
  cases h <;> exact Frame.grows_declareAs hF _

theorem Item.balanced (h : Item kind F ls G label D) : Balanced False ls := by
  cases h with
  | free => exact .inner rfl .nil
  | defined _ h => exact .inner rfl (.inner rfl h.balanced)
  | expression _ h => exact h.balanced

theorem Item.starts (h : Item kind F ls G label D) :
    ∃ l ls', ls = l :: ls' ∧ l.kind ≠ .mark .rightBracket := by
  cases h with
  | free | defined => exact ⟨_, _, rfl, nofun⟩
  | expression _ h =>
    obtain ⟨l, ls', rfl, hl⟩ := h.starts
    refine ⟨l, ls', rfl, fun hk => ?_⟩
    rw [Lexeme.eq_mark_of_kind hk] at hl
    cases hl

theorem Items.starts (h : Items kind F ls G labels D) :
    ∃ l ls', ls = l :: ls' ∧ l.kind ≠ .mark .rightBracket := by
  cases h with
  | last h => exact h.starts
  | more h _ =>
    obtain ⟨l, ls', rfl, hl⟩ := h.starts
    exact ⟨l, _, rfl, hl⟩

theorem Items.balanced (h : Items kind F ls G labels D) : Balanced False ls := by
  induction h with
  | last h => exact h.balanced
  | more h _ ih => exact h.balanced.append (.inner rfl ih)

mutual

theorem Bracketed.inside {F G : Frame} {ls : List Lexeme} {t : Tuple} {D : Row → Prop} :
    Bracketed kind F ls G t D →
      ∃ inner, ls = .mark .leftBracket :: (inner ++ [.mark .rightBracket]) ∧ Balanced True inner
  | .unit => ⟨[], rfl, .nil⟩
  | .flat h => ⟨_, rfl, h.balanced.mono False.elim⟩
  | .wrap _ h h' => ⟨_, by simp, h.balanced.append (.arrow trivial h'.balanced)⟩

theorem Shape.balanced {F G : Frame} {ls : List Lexeme} {t : Tuple} {D : Row → Prop} :
    Shape kind F ls G t D → Balanced True ls
  | .unnamed h => by
    obtain ⟨inner, rfl, hinner⟩ := h.inside
    exact hinner.bracketed
  | .named hl h => by
    obtain ⟨inner, rfl, hinner⟩ := h.inside
    exact .inner (Grammar.isInner_of_mayNameTuple hl) hinner.bracketed

end

theorem Items.grows (h : Items kind F ls G labels D) (hF : F.Admits kind) :
    Frame.Grows kind F G labels.length := by
  induction h with
  | last h => exact h.grows hF
  | more h _ ih =>
    have hG := h.grows hF
    rw [List.length_cons, Nat.add_comm]
    exact hG.trans (ih (hG.admits hF))

mutual

theorem Bracketed.grows {F G : Frame} {ls : List Lexeme} {t : Tuple} {D : Row → Prop}
    (hF : F.Admits kind) : Bracketed kind F ls G t D → Frame.Grows kind F G t.ids.length
  | .unit => Frame.Grows.refl kind F
  | .flat h => h.grows hF
  | .wrap _ h h' => by
    have hG := h.grows hF
    rw [Tuple.wrap, Tuple.ids, List.length_append]
    exact hG.trans (h'.grows (hG.admits hF))

theorem Shape.grows {F G : Frame} {ls : List Lexeme} {t : Tuple} {D : Row → Prop}
    (hF : F.Admits kind) : Shape kind F ls G t D → Frame.Grows kind F G t.ids.length
  | .unnamed h | .named _ h => by
    rw [Tuple.ids_rename]
    exact h.grows hF

end

theorem Shape.starts (h : Shape kind F ls G t D) :
    ∃ l ls', ls = l :: ls' ∧ (l = .mark .leftBracket ∨ Grammar.mayNameTuple l = true) := by
  cases h with
  | unnamed h =>
    obtain ⟨inner, rfl, -⟩ := h.inside
    exact ⟨_, _, rfl, .inl rfl⟩
  | named hl _ => exact ⟨_, _, rfl, .inr hl⟩

section Heads

def HeadKnown (F : Frame) (ls : List Lexeme) : Prop :=
  ∀ x, ls.head? = some (.identifier x) → (F.scope.position? x).isSome = true

variable {ls' : List Lexeme} {u v w : Row → ℚ}

theorem HeadKnown.append {q : Lexeme → Prop} (h : HeadKnown F ls)
    (hs : ∃ l ls', ls = l :: ls' ∧ q l) : HeadKnown F (ls ++ ls') := by
  obtain ⟨l, ls₀, rfl, -⟩ := hs
  exact h

theorem Operand.headKnown (h : Operand F ls v) : HeadKnown F ls := by
  intro x hx
  cases h with
  | name hpos =>
    obtain rfl := Lexeme.identifier.inj (Option.some.inj hx)
    rw [hpos]
    rfl
  | _ => simp at hx

theorem Factor.headKnown (h : Factor F ls v) : HeadKnown F ls := by
  cases h with
  | literal | literalOver | scaled => simp [HeadKnown]
  | operand h => exact h.headKnown
  | divided _ h | mod _ h => exact h.headKnown.append h.starts

theorem Sum.headKnown (h : Sum F ls v) : HeadKnown F ls := by
  cases h with
  | summands h =>
    cases h with
    | negated => simp [HeadKnown]
    | term ht _ =>
      refine HeadKnown.append ?_ ht.starts
      cases ht with
      | factor h => exact h.headKnown
      | juxtaposed => simp [HeadKnown]

end Heads

end Phrase

namespace Grammar

open Phrase

variable {fails : Prop} {kind : DimKind} {F G : Frame} {ls : List Lexeme} {P D : Row → Prop}

theorem reads_freshName?_of_free {t : Token} {name : String} (ht : t.lexeme = .identifier name)
    (hn : F.scope.position? name = none) :
    Reads fails F.scope ls (freshName? t) (Gives (· = some name) F.scope ls) := by
  simp only [freshName?, ht]
  refine (reads_position? name).step fun pos hpos => ?_
  rw [hpos, hn]
  exact reads_pure (gives rfl)

theorem reads_freshName?_of_known {t : Token} (ht : HeadKnown F [t.lexeme]) :
    Reads fails F.scope ls (freshName? t) (Gives (· = none) F.scope ls) := by
  rw [freshName?]
  split
  · rename_i name h
    refine (reads_position? name).step fun pos hpos => ?_
    rw [hpos, if_pos (ht name (by simp [h]))]
    exact reads_pure (gives rfl)
  · exact reads_pure (gives rfl)

theorem reads_newDimension (hF : F.Admits kind) {set : Relation} (hset : F.Means False set P)
    (label : Label) {k : Nat → Relation → Reading Grammar.Items}
    {post : Grammar.Items → Scope → List Lexeme → Prop}
    (hk : ∀ set, (F.declareAs kind label).Means False set (fun x => P (x.take F.size)) →
      Reads fails (F.declareAs kind label).scope ls (k F.scope.size set) post) :
    Reads fails F.scope ls (do
      let pos ← declare label
      let set ← check (set.addDims kind 1)
      k pos set) post := by
  refine (reads_declare label).step fun pos hpos => ?_
  subst hpos
  obtain ⟨set', hok, hset'⟩ := hset.addDim_eq_ok hF label
  have hscope : (F.declareAs kind label).scope = F.scope.declare label := Frame.scope_declareAs
  rw [← hscope]
  exact (reads_check (P := ((F.declareAs kind label).Means False · _)) hok hset').step hk

theorem reads_item {label : Label} (h : Item kind F ls G label D) (hF : F.Admits kind)
    {read : Grammar.Items} (hread : F.Means False read.set P) {depth : Nat}
    (hd : 32 * ls.length + 7 ≤ depth) {r : Lexeme} (hr : r.reach ≤ 4) (hc : r.comparison? = none)
    (rest : List Lexeme) :
    Reads fails F.scope (ls ++ r :: rest) (do item depth kind read (← next))
      (Gives (fun a => a.labels = read.labels ++ [label] ∧
        G.Means False a.set fun x => P (x.take F.size) ∧ D x) G.scope (r :: rest)) := by
  have hpos : ∀ label, F.scope.size < (F.declareAs kind label).size := fun label => by
    rw [Frame.size_declareAs]
    exact Nat.lt_succ_self _
  cases h with
  | @free name hn =>
    refine reads_next.step fun t ht => (reads_freshName?_of_free ht hn).step fun name' h => ?_
    subst h
    refine reads_newDimension hF hread (some name) fun set hset => ?_
    refine (reads_eatIf_not ?_).step fun b hb => ?_
    · intro hk
      rw [Lexeme.eq_mark_of_kind hk] at hc
      cases hc
    subst hb
    exact reads_pure (gives ⟨rfl, hset.congr fun x _ => by simp⟩)
  | @defined name ls v hn h =>
    rw [List.length_cons, List.length_cons] at hd
    refine reads_next.step fun t ht => (reads_freshName?_of_free ht hn).step fun name' h' => ?_
    subst h'
    refine reads_newDimension hF hread (some name) fun set hset => ?_
    refine (reads_eatIf rfl).step fun b hb => ?_
    subst hb
    refine (reads_definition h hset (hpos _) (by omega) hr hc rest).step fun set hset => ?_
    exact reads_pure (gives ⟨rfl, hset⟩)
  | @expression ls v hk h =>
    obtain ⟨l, ls, rfl, -⟩ := h.starts
    refine reads_next.step fun t ht => ?_
    have hknown : HeadKnown F [t.lexeme] := by
      intro x hx
      have := h.headKnown x (by simpa [ht] using hx)
      rwa [Frame.scope_declareAs, Scope.position?_declare_of_ne (Option.some_ne_none x).symm] at this
    refine (reads_freshName?_of_known hknown).step fun name h' => ?_
    subst h'
    simp only [if_neg hk]
    refine (reads_push t).step fun _ _ => ?_
    rw [ht]
    refine reads_newDimension hF hread none fun set hset => ?_
    refine (reads_definition h hset (hpos _) hd hr hc rest).step fun set hset => ?_
    exact reads_pure (gives ⟨rfl, hset⟩)

theorem reads_items {labels : List Label} (h : Phrase.Items kind F ls G labels D)
    (hF : F.Admits kind) {read : Grammar.Items} (hread : F.Means False read.set P) {depth : Nat}
    (hd : 32 * ls.length + 8 ≤ depth) {r : Lexeme} (hr : r.kind ≠ .mark .leftBracket)
    (rest : List Lexeme) :
    Reads fails F.scope (ls ++ .mark .rightBracket :: r :: rest) (items depth kind read)
      (Gives (fun a => a.labels = read.labels ++ labels ∧
        G.Means False a.set fun x => P (x.take F.size) ∧ D x) G.scope
        (.mark .rightBracket :: r :: rest)) := by
  induction h generalizing depth read P with
  | @last F G ls label D h =>
    obtain ⟨depth, rfl⟩ := Nat.exists_eq_succ_of_ne_zero (n := depth) (by omega)
    rw [items]
    refine Reads.enter_bind ?_
    rw [← bind_assoc]
    refine (reads_item h hF hread (by omega) (by decide) rfl _).step fun read' hread' => ?_
    refine reads_next.step fun behind hb => ?_
    have hk : behind.kind = .mark .rightBracket := by rw [Token.kind, hb]; rfl
    rw [if_neg (by rw [hk]; decide), if_neg (by rw [hk]; decide)]
    refine reads_nextIs.step fun b hbracket => ?_
    rw [beq_false_of_ne hr] at hbracket
    subst hbracket
    refine (reads_push behind).step fun _ _ => ?_
    rw [hb]
    exact reads_pure (gives hread')
  | @more F G H ls ls' label labels D E h hs ih =>
    rw [List.length_append, List.length_cons] at hd
    obtain ⟨depth, rfl⟩ := Nat.exists_eq_succ_of_ne_zero (n := depth) (by omega)
    rw [items, List.append_assoc]
    refine Reads.enter_bind ?_
    rw [← bind_assoc]
    refine (reads_item h hF hread (by omega) (by decide) rfl _).step fun read' hread' => ?_
    refine reads_next.step fun behind hb => ?_
    rw [if_pos (by rw [Token.kind, hb]; rfl)]
    have hG := h.grows hF
    refine (ih (hG.admits hF) hread'.2 (by omega)).congr fun a ha => ?_
    refine ⟨by rw [ha.1, hread'.1, List.append_assoc]; rfl, ha.2.congr fun x _ => ?_⟩
    rw [List.take_take, Nat.min_eq_left hG.size_le, and_assoc]

theorem reads_startsRelation_of_shape {t : Tuple} (h : Shape kind F ls G t D) {sc : Scope}
    {depth : Nat} (hd : ls.length + 1 ≤ depth) (rest : List Lexeme) :
    Reads fails sc (ls ++ .mark .arrow :: rest) (startsRelation depth)
      (Gives (· = true) sc (ls ++ .mark .arrow :: rest)) := by
  cases h with
  | unnamed h =>
    obtain ⟨inner, rfl, hinner⟩ := h.inside
    simp only [List.length_cons, List.length_append, List.length_nil] at hd
    simpa using reads_startsRelation_of_arrow hinner (by omega) rest
  | named hl h =>
    obtain ⟨inner, rfl, hinner⟩ := h.inside
    simp only [List.length_cons, List.length_append, List.length_nil] at hd
    simpa using reads_startsRelation_of_named_arrow hl hinner (by omega) rest

section Parts

variable {t : Tuple} {set : Relation} {depth : Nat} {name : Label} {opening : Token} {r : Lexeme}

theorem reads_closeTuple {s : Tuple} (hs : s = t) (hset : G.Means False set D)
    (rest : List Lexeme) :
    Reads fails G.scope (.mark .rightBracket :: rest) (closeTuple name ⟨set, s⟩)
      (Gives (fun a => a.tuple = t.rename name ∧ G.Means False a.set D) G.scope rest) :=
  reads_expectMark.step fun _ _ => reads_pure (gives ⟨by rw [hs], hset⟩)

/-- Only a wrapping tuple, which is none of parameters, has an arrow behind its first tuple. -/
theorem reads_openTuple_of_balanced {sc : Scope} {inner : List Lexeme}
    {post : Shaped → Scope → List Lexeme → Prop} (hinner : Balanced False inner)
    (hopening : opening.kind = .mark .leftBracket) (hd : 32 * inner.length + 32 ≤ depth + 1)
    (rest : List Lexeme)
    (hread : Reads fails sc (inner ++ .mark .rightBracket :: r :: rest)
      (insideTuple depth kind set name false) post) :
    Reads fails sc (inner ++ .mark .rightBracket :: r :: rest)
      (openTuple depth kind set name opening) post := by
  rw [openTuple, if_neg (not_not.2 hopening)]
  split
  · exact hread
  · refine (reads_startsRelation_of_no_arrow hinner (by omega) rest).step fun wraps hw => ?_
    subst hw
    exact hread

theorem reads_openTuple
    (htuple : ∀ {F G : Frame} {ls : List Lexeme} {t : Tuple} {P D : Row → Prop},
      Shape kind F ls G t D → F.Admits kind → ∀ {set : Relation}, F.Means False set P →
      32 * ls.length ≤ depth → ∀ {r : Lexeme}, r.kind ≠ .mark .leftBracket →
      ∀ rest : List Lexeme, Reads fails F.scope (ls ++ r :: rest) (tuple depth kind set)
        (Gives (fun a => a.tuple = t ∧ G.Means False a.set fun x => P (x.take F.size) ∧ D x)
          G.scope (r :: rest)))
    (h : Bracketed kind F (.mark .leftBracket :: ls) G t D) (hF : F.Admits kind)
    (hset : F.Means False set P) (hopening : opening.kind = .mark .leftBracket)
    (hd : 32 * ls.length + 32 ≤ depth + 1) (hr : r.kind ≠ .mark .leftBracket)
    (rest : List Lexeme) :
    Reads fails F.scope (ls ++ r :: rest) (openTuple depth kind set name opening)
      (Gives (fun a => a.tuple = t.rename name ∧
        G.Means False a.set fun x => P (x.take F.size) ∧ D x) G.scope (r :: rest)) := by
  cases h with
  | unit =>
    rw [List.length_singleton] at hd
    refine reads_openTuple_of_balanced .nil hopening (by rw [List.length_nil]; omega) _ ?_
    refine reads_nextIs.step fun closes hc => ?_
    subst hc
    exact reads_closeTuple rfl (hset.congr fun x hx => by simp [← hx]) _
  | flat h =>
    rw [List.length_append, List.length_cons, List.length_nil] at hd
    rw [List.append_assoc]
    refine reads_openTuple_of_balanced h.balanced hopening (by omega) _ ?_
    obtain ⟨l, ls, rfl, hl⟩ := h.starts
    refine (reads_nextIs (l := l)).step fun closes hc => ?_
    rw [beq_false_of_ne hl] at hc
    subst hc
    have hitems : Reads fails F.scope (l :: ls ++ .mark .rightBracket :: r :: rest)
      (items depth kind ⟨set, []⟩) _ := reads_items h hF hset (by omega) hr rest
    exact hitems.step fun read hread => reads_closeTuple (by rw [hread.1]; rfl) hread.2 _
  | wrap hk h h' =>
    rw [openTuple, if_neg (not_not.2 hopening), if_neg hk]
    simp only [List.length_append, List.length_cons, List.length_nil] at hd
    rw [List.append_assoc, List.cons_append, List.append_assoc]
    refine (reads_startsRelation_of_shape h (by omega) _).step fun wraps hw => ?_
    subst hw
    obtain ⟨l, ls, rfl, hl⟩ := h.starts
    refine (reads_nextIs (l := l)).step fun closes _ => ?_
    rw [if_pos rfl]
    have hG := h.grows hF
    refine (htuple h hF hset (by omega) (by decide) _).step fun domain hdomain => ?_
    refine reads_expectMark.step fun _ _ => ?_
    refine (htuple h' (hG.admits hF) hdomain.2 (by omega) (by decide) _).step fun range hrange => ?_
    refine reads_closeTuple (by rw [hdomain.1, hrange.1]) (hrange.2.congr fun x _ => ?_) _
    rw [List.take_take, Nat.min_eq_left hG.size_le, and_assoc]

end Parts

theorem reads_tuple {t : Tuple} (h : Shape kind F ls G t D) (hF : F.Admits kind) {set : Relation}
    (hset : F.Means False set P) {depth : Nat} (hd : 32 * ls.length ≤ depth) {r : Lexeme}
    (hr : r.kind ≠ .mark .leftBracket) (rest : List Lexeme) :
    Reads fails F.scope (ls ++ r :: rest) (tuple depth kind set)
      (Gives (fun a => a.tuple = t ∧ G.Means False a.set fun x => P (x.take F.size) ∧ D x) G.scope
        (r :: rest)) := by
  induction depth generalizing F G ls t P D set r rest with
  | zero =>
    obtain ⟨l, ls, rfl, -⟩ := h.starts
    simp at hd
  | succ depth ih =>
    rw [tuple_succ]
    refine Reads.enter_bind ?_
    cases h with
    | unnamed h =>
      obtain ⟨inner, rfl, -⟩ := h.inside
      refine reads_next.step fun tok ht => ?_
      have hname : ¬mayNameTuple tok.lexeme = true := by rw [ht]; exact Bool.false_ne_true
      rw [if_neg hname]
      have hopening : tok.kind = .mark .leftBracket := by rw [Token.kind, ht]; rfl
      exact reads_openTuple ih h hF hset hopening (by rw [List.length_cons] at hd; omega) hr rest
    | named hl h =>
      obtain ⟨inner, rfl, -⟩ := h.inside
      refine reads_next.step fun tok ht => ?_
      rw [ht, if_pos hl]
      refine reads_next.step fun opening ho => ?_
      have hopening : opening.kind = .mark .leftBracket := by rw [Token.kind, ho]; rfl
      exact reads_openTuple ih h hF hset hopening
        (by simp only [List.length_cons] at hd ⊢; omega) hr rest

end Grammar

end Quasiaffine
