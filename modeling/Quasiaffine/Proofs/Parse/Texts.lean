import Quasiaffine.Proofs.Parse.Arrangement
import Quasiaffine.Proofs.Parse.Pieces
import Quasiaffine.Proofs.Formula.Spelling

set_option autoImplicit false

namespace Quasiaffine

namespace Cursor

theorem clear_symbols (c : Cursor) : Clear c.symbols := by
  intro n
  rw [symbols, Stream'.get_map]
  generalize (Stream'.iterate (fun c => (TokenStream.read c).2) c).get n = d
  cases hread : (TokenStream.read d).1 with
  | error e => simp [Symbol.IsPlaceholder, Symbol.kind]
  | ok t =>
    have hplain := TokenStream.not_isPlaceholder_read hread
    have hname := fun x => TokenStream.isName_of_read (x := x) hread
    cases ht : t.lexeme <;> simp_all [Symbol.IsPlaceholder, Symbol.kind, Lexeme.symbol,
      Lexeme.isPlaceholder]

theorem symbols_of_read {c d : Cursor} {t : Token} (h : TokenStream.read c = (.ok t, d)) :
    c.symbols = .cons t.lexeme.symbol d.symbols := by
  rw [symbols, Stream'.iterate_eq, Stream'.map_cons, h]
  rfl

theorem Ahead.exists_symbols {c : Cursor} {ls : List Lexeme} (h : c.Ahead ls) :
    ∃ rest, c.symbols = ls.map Lexeme.symbol ++ₛ rest := by
  induction ls generalizing c with
  | nil => exact ⟨_, rfl⟩
  | cons l ls ih =>
    obtain ⟨t, d, hread, rfl, hd⟩ := h
    obtain ⟨rest, hrest⟩ := ih hd
    exact ⟨rest, by rw [symbols_of_read hread, hrest]; rfl⟩

end Cursor

namespace Parse

variable {sc sc' : Scope} {P P' : Set Row} {u u' : List Symbol} {us us' : List (List Symbol)}
  {v v' : Value} {vs vs' : List Value} {b c d : Symbols}

def IsInner (l : Symbol) : Prop := l.isStop = false ∧ l ≠ .mark .leftBrace

/-- Pieces behind the first one, each behind a semicolon, up to the closing brace. A semicolon may
stand in front of the brace. -/
inductive Behind : List (List Symbol) → Symbols → Prop
  | done {b : Symbols} (hb : b.head = .mark .rightBrace) (he : b.tail.head = .finish) : Behind [] b
  | trailing {b : Symbols} (hs : b.head = .mark .semicolon) (hb : b.tail.head = .mark .rightBrace)
      (he : b.tail.tail.head = .finish) : Behind [] b
  | piece {u : List Symbol} {us : List (List Symbol)} {b c : Symbols}
      (hs : b.head = .mark .semicolon) (hb : b.tail = u ++ₛ c) (hc : Behind us c) :
      Behind (u :: us) b

/-- A part of a text: it is not empty, and no symbol in it ends it. -/
def IsPart (u : List Symbol) : Prop := u ≠ [] ∧ ∀ l ∈ u, IsInner l

inductive Arranged (b : Symbols) : List Symbol → List (List Symbol) → Prop
  | mk {header u : List Symbol} {us : List (List Symbol)} {c d : Symbols}
      (hheader : ∀ l ∈ header, IsInner l) (hb : b = header ++ₛ c) (hc : c.head = .mark .leftBrace)
      (hu : ∀ w ∈ u :: us, IsPart w) (hd : c.tail = u ++ₛ d) (hus : Behind us d) :
      Arranged b header (u :: us)

/-- Symbols that form a header, which declares parameters and allows some values for them. -/
def IsHeader (header : List Symbol) (sc : Scope) (P : Set Row) : Prop :=
  ∀ c : Symbols, c.head = .mark .leftBrace → DerivesHeader (header ++ₛ c) sc P c

/-- Symbols that form a piece with a value, whatever comes behind its end. -/
def IsPiece (sc : Scope) (P : Set Row) (u : List Symbol) (v : Value) : Prop :=
  ∀ c : Symbols, c.head.isStop = true → DerivesPiece sc P (u ++ₛ c) v c

theorem IsHeader.unique (h : IsHeader u sc P) (h' : IsHeader u sc' P') : sc = sc' ∧ P = P' :=
  have ⟨hsc, hP, _⟩ := (h (.const (.mark .leftBrace)) rfl).unique (h' _ rfl)
  ⟨hsc, hP⟩

theorem IsPiece.unique (h : IsPiece sc P u v) (h' : IsPiece sc P u v') : v = v' :=
  ((h (.const (.mark .semicolon)) rfl).unique (h' _ rfl)).1

theorem Balanced.isInner (h : Balanced u) : ∀ l ∈ u, IsInner l := by
  have hnest : ∀ n m, nesting n u = some m → ∀ l ∈ u, IsInner l := by
    clear h
    induction u with
    | nil => exact fun _ _ _ => nofun
    | cons l u ih =>
      intro n m hu
      rw [nesting, List.foldlM_cons] at hu
      obtain ⟨k, hk, hu⟩ := Option.bind_eq_some_iff.1 hu
      rw [List.forall_mem_cons]
      refine ⟨⟨?_, ?_⟩, ih k m hu⟩
      · rw [← Bool.not_eq_true, Symbol.isStop_iff]
        rintro (rfl | rfl) <;> cases hk
      · rintro rfl
        cases hk
  exact hnest 0 0 (h 0)

section Splitting

theorem eq_of_append_eq {p : Symbol → Prop} (hu : ∀ l ∈ u, ¬p l) (hu' : ∀ l ∈ u', ¬p l)
    (hc : p c.head) (hd : p d.head) (h : u ++ₛ c = u' ++ₛ d) : u = u' ∧ c = d := by
  induction u generalizing u' with
  | nil =>
    cases u' with
    | nil => exact ⟨rfl, h⟩
    | cons l u' =>
      rw [show c = _ from h] at hc
      exact absurd hc (hu' l List.mem_cons_self)
  | cons l u ih =>
    cases u' with
    | nil =>
      rw [← show _ = d from h] at hd
      exact absurd hd (hu l List.mem_cons_self)
    | cons l' u' =>
      obtain ⟨rfl, hrest⟩ : l = l' ∧ u ++ₛ c = u' ++ₛ d := Stream'.cons_injective2 h
      obtain ⟨rfl, rfl⟩ := ih (fun l hl => hu l (List.mem_cons_of_mem _ hl))
        (fun l hl => hu' l (List.mem_cons_of_mem _ hl)) hrest
      exact ⟨rfl, rfl⟩

theorem Behind.isStop (h : Behind us b) : b.head.isStop = true := by
  cases h with
  | done h | trailing h | piece h => rw [h]; rfl

/-- Where no piece is left, a part can not follow. -/
theorem Behind.not_piece (h : Behind [] b) (hu : IsPart u) (hb : b.tail = u ++ₛ c) :
    b.head ≠ .mark .semicolon := by
  obtain ⟨l, u, rfl⟩ := List.exists_cons_of_ne_nil hu.1
  have hl : b.tail.head = l := by rw [hb]; rfl
  cases h with
  | done h => simp [h]
  | trailing _ h =>
    rw [h] at hl
    subst hl
    exact absurd (hu.2 _ List.mem_cons_self).1 (by decide)

theorem Behind.unique (h : Behind us b) (hus : ∀ u ∈ us, IsPart u) :
    ∀ {us'}, Behind us' b → (∀ u ∈ us', IsPart u) → us = us' := by
  have hnil : ∀ {b us}, Behind [] b → Behind us b → (∀ u ∈ us, IsPart u) → us = [] := by
    intro b us h h' hus
    cases h' with
    | done | trailing => rfl
    | piece hs hb => exact absurd hs (h.not_piece (hus _ List.mem_cons_self) hb)
  induction h with
  | done hb he => exact fun _ h' hus' => (hnil (.done hb he) h' hus').symm
  | trailing hs hb he => exact fun _ h' hus' => (hnil (.trailing hs hb he) h' hus').symm
  | @piece u us b c hs hb hc ih =>
    intro us' h' hus'
    cases h' with
    | done h => simp [h] at hs
    | trailing h₁ h₂ h₃ =>
      exact absurd hs ((Behind.trailing h₁ h₂ h₃).not_piece (hus _ List.mem_cons_self) hb)
    | piece _ hb' hc' =>
      rw [List.forall_mem_cons] at hus hus'
      obtain ⟨rfl, rfl⟩ := eq_of_append_eq (p := (·.isStop = true))
        (fun l hl => Bool.not_eq_true _ ▸ (hus.1.2 l hl).1)
        (fun l hl => Bool.not_eq_true _ ▸ (hus'.1.2 l hl).1) hc.isStop hc'.isStop (hb.symm.trans hb')
      rw [ih hus.2 hc' hus'.2]

theorem Arranged.unique {header header' : List Symbol} (h : Arranged b header us)
    (h' : Arranged b header' us') : header = header' ∧ us = us' := by
  obtain ⟨hheader, hb, hc, hu, hd, hus⟩ := h
  obtain ⟨hheader', hb', hc', hu', hd', hus'⟩ := h'
  obtain ⟨rfl, rfl⟩ := eq_of_append_eq (p := (· = .mark .leftBrace)) (fun l hl => (hheader l hl).2)
    (fun l hl => (hheader' l hl).2) hc hc' (hb.symm.trans hb')
  rw [List.forall_mem_cons] at hu hu'
  obtain ⟨rfl, rfl⟩ := eq_of_append_eq (p := (·.isStop = true))
    (fun l hl => Bool.not_eq_true _ ▸ (hu.1.2 l hl).1)
    (fun l hl => Bool.not_eq_true _ ▸ (hu'.1.2 l hl).1) hus.isStop hus'.isStop (hd.symm.trans hd')
  exact ⟨rfl, congrArg _ (hus.unique hu.2 hus' hu'.2)⟩

end Splitting

section Parts

theorem DerivesMore.isStop (h : DerivesMore sc P b vs c) (hc : c.head = .mark .rightBrace) :
    b.head.isStop = true := by
  cases h with
  | done => rw [hc]; rfl
  | trailing h | piece h => rw [h]; rfl

/-- A piece in front of what ends it. -/
theorem DerivesPiece.exists_isPiece (h : DerivesPiece sc P b v c) (hc : c.head.isStop = true) :
    ∃ u, IsPart u ∧ b = u ++ₛ c ∧ IsPiece sc P u v := by
  obtain ⟨u, hu, hne, hagain⟩ := h.exists_local
  exact ⟨u, ⟨hne, hu.balanced.isInner⟩, hu.eq, fun d hd => hagain d (.inr ⟨hc, hd⟩)⟩

theorem DerivesMore.exists_behind (h : DerivesMore sc P b vs c) (hc : c.head = .mark .rightBrace)
    (he : c.tail.head = .finish) :
    ∃ us, (∀ u ∈ us, IsPart u) ∧ Behind us b ∧ List.Forall₂ (IsPiece sc P) us vs := by
  induction h with
  | done => exact ⟨[], nofun, .done hc he, .nil⟩
  | trailing h hb => exact ⟨[], nofun, .trailing h hb he, .nil⟩
  | piece h _ hv hs ih =>
    obtain ⟨us, hus, hbehind, hvs⟩ := ih hc he
    obtain ⟨u, hu, hb, hpiece⟩ := hv.exists_isPiece (hs.isStop hc)
    exact ⟨u :: us, List.forall_mem_cons.2 ⟨hu, hus⟩, .piece h hb hbehind, .cons hpiece hvs⟩

end Parts

end Parse

namespace Reader

open Parse

noncomputable def symbols (source : String) : Symbols := (TokenStream.ofText source).symbols

/-- What a text that is read says: the parts of it, what its header declares, and the values of its
pieces. -/
structure Says (source : String) (header : List Symbol) (pieces : List (List Symbol))
    (values : List Value) : Prop where
  arranged : Arranged (symbols source) header pieces
  values : ∃ sc P, IsHeader header sc P ∧ List.Forall₂ (IsPiece sc P) pieces values

theorem regular_of_piecewise {source : String} {f : Piecewise}
    (h : (piecewise source).result = .ok f) : f.space.IsDomain ∧ f.Regular := by
  have hclear : Clear (symbols source) := Cursor.clear_symbols _
  obtain ⟨-, -, -, hs, hf, -⟩ :=
    follows_piecewise hclear (initial source) rfl (.of_clear hclear) rfl f _ (Prod.ext h rfl)
  exact ⟨hs, hf⟩

theorem says_of_piecewise {source : String} {f : Piecewise} (h : (piecewise source).result = .ok f) :
    ∃ header pieces values, Says source header pieces values ∧ f.Maps (Value.total values) := by
  have hclear : Clear (symbols source) := Cursor.clear_symbols _
  obtain ⟨-, -, -, -, hf, sc, P, c, v, vs, d, hheader, hopen, hpiece, hvalue, e, hmore, hclose, hend,
    -⟩ := follows_piecewise hclear (initial source) rfl (.of_clear hclear) rfl f _ (Prod.ext h rfl)
  obtain ⟨u₀, hu₀, hagain⟩ := hheader.exists_local
  obtain ⟨u, hu, hb, hu'⟩ := hpiece.exists_isPiece (hmore.isStop hclose)
  obtain ⟨us, hus, hbehind, hvs⟩ := hmore.exists_behind hclose hend
  refine ⟨u₀, u :: us, v :: vs, ⟨.mk hu₀.balanced.isInner hu₀.eq hopen
    (List.forall_mem_cons.2 ⟨hu, hus⟩) hb hbehind, sc, P, fun c' hc' => hagain c' (.inl ?_),
    .cons hu' hvs⟩, hvalue ▸ hf.maps⟩
  rw [hopen, hc']

theorem forall₂_isPiece_unique {sc : Scope} {P : Set Row} {pieces : List (List Symbol)}
    {values values' : List Value} (h : List.Forall₂ (IsPiece sc P) pieces values)
    (h' : List.Forall₂ (IsPiece sc P) pieces values') : values = values' := by
  induction h generalizing values' with
  | nil => exact (List.forall₂_nil_left_iff.1 h').symm
  | cons hu _ ih =>
    obtain ⟨v', vs', hu', hus', rfl⟩ := List.forall₂_cons_left_iff.1 h'
    rw [hu.unique hu', ih hus']

/-- A text says one thing at most. -/
theorem Says.values_unique {source : String} {header header' : List Symbol}
    {pieces pieces' : List (List Symbol)} {values values' : List Value}
    (h : Says source header pieces values) (h' : Says source header' pieces' values') :
    values = values' := by
  obtain ⟨ha, sc, P, hheader, hvalues⟩ := h
  obtain ⟨ha', sc', P', hheader', hvalues'⟩ := h'
  obtain ⟨rfl, rfl⟩ := ha.unique ha'
  obtain ⟨rfl, rfl⟩ := hheader.unique hheader'
  exact forall₂_isPiece_unique hvalues hvalues'

/-- A function that is read is defined where a piece of its text is, with the sum of the values of the
pieces that are defined there. So texts which differ only in the order of their pieces denote the same
partial function. -/
theorem piecewise_total :
    (∀ source f, (piecewise source).result = .ok f →
      (∃ header pieces values, Says source header pieces values) ∧
      ∀ header pieces values, Says source header pieces values → f.Maps (Value.total values)) ∧
    ∀ source source' f f' header pieces pieces',
      (piecewise source).result = .ok f → (piecewise source').result = .ok f' →
      Arranged (symbols source) header pieces → Arranged (symbols source') header pieces' →
      pieces.Perm pieces' → f.valueAt = f'.valueAt := by
  refine ⟨fun source f h => ?_, ?_⟩
  · obtain ⟨header, pieces, values, hsays, hf⟩ := says_of_piecewise h
    exact ⟨⟨_, _, _, hsays⟩, fun _ _ _ hsays' => hsays.values_unique hsays' ▸ hf⟩
  intro source source' f f' header pieces pieces' h h' ha ha' hperm
  obtain ⟨_, _, values, ⟨harr, sc, P, hheader, hvalues⟩, hf⟩ := says_of_piecewise h
  obtain ⟨_, _, values', ⟨harr', sc', P', hheader', hvalues'⟩, hf'⟩ := says_of_piecewise h'
  obtain ⟨rfl, rfl⟩ := harr.unique ha
  obtain ⟨rfl, rfl⟩ := harr'.unique ha'
  obtain ⟨rfl, rfl⟩ := hheader.unique hheader'
  -- The text of a piece determines its values, so they are put in the same order.
  have hunique : Relator.RightUnique (IsPiece sc P) := fun _ _ _ h h' => h.unique h'
  rw [hf.valueAt_eq, hf'.valueAt_eq]
  exact Value.total_perm (List.rel_perm_imp hunique hvalues hvalues' hperm)

section Example

def behindTokens (more : List (List Lexeme)) : List Lexeme :=
  more.flatMap (Lexeme.mark .semicolon :: ·) ++ [.mark .rightBrace]

def textTokens (header first : List Lexeme) (more : List (List Lexeme)) : List Lexeme :=
  header ++ Lexeme.mark .leftBrace :: (first ++ behindTokens more)

theorem behind_behindTokens (more : List (List Lexeme)) {rest : Symbols} (h : rest.head = .finish) :
    Behind (more.map (List.map Lexeme.symbol)) ((behindTokens more).map Lexeme.symbol ++ₛ rest) := by
  induction more with
  | nil => exact .done rfl h
  | cons u more ih =>
    refine .piece rfl ?_ ih
    rw [behindTokens, List.flatMap_cons, List.append_assoc, List.cons_append, List.map_cons,
      List.map_append, Stream'.cons_append_stream, Stream'.append_append_stream]
    rfl

theorem arranged_textTokens {header first : List Lexeme} {more : List (List Lexeme)}
    (hw : AllWritten (textTokens header first more)) (hheader : ∀ l ∈ header, IsInner l.symbol)
    (hpieces : ∀ u ∈ first :: more, u ≠ [] ∧ ∀ l ∈ u, IsInner l.symbol) :
    Arranged (symbols (String.join ((textTokens header first more).map fun l => l.text ++ " ")))
      (header.map Lexeme.symbol) ((first :: more).map (List.map Lexeme.symbol)) := by
  have hahead : (Cursor.ofText (String.join ((textTokens header first more).map
    fun l => l.text ++ " "))).Ahead _ := Spells.ahead hw.spells
  obtain ⟨rest, hrest⟩ := hahead.exists_symbols
  have hbehind : Behind _ (_ ++ₛ .cons .finish rest) := behind_behindTokens more rfl
  refine .mk (c := .cons (.mark .leftBrace) _) (List.forall_mem_map.2 hheader) ?_ rfl ?_ rfl hbehind
  · refine (show symbols _ = _ from hrest).trans ?_
    simp only [textTokens, List.map_append, List.map_cons, Stream'.append_append_stream,
      Stream'.cons_append_stream]
    rfl
  · have hparts : ∀ u ∈ first :: more, IsPart (u.map Lexeme.symbol) := fun u hu =>
      ⟨mt List.map_eq_nil_iff.1 (hpieces u hu).1, List.forall_mem_map.2 (hpieces u hu).2⟩
    rw [← List.map_cons (f := List.map Lexeme.symbol)]
    exact List.forall_mem_map.2 hparts

def counted : List Lexeme := [.mark .leftBracket, .identifier "n", .mark .rightBracket, .mark .arrow]

def ascending : List Lexeme :=
  [.mark .leftBracket, .identifier "x", .mark .rightBracket, .mark .arrow, .mark .leftBracket,
    .identifier "x", .mark .rightBracket, .mark .colon, .number 0, .mark .le, .identifier "x"]

def chosen : List Lexeme :=
  [.mark .leftBracket, .identifier "x", .mark .rightBracket, .mark .arrow, .mark .leftBracket,
    .identifier "n", .mark .gt, .number 0, .mark .question, .number 1, .mark .colon, .identifier "x",
    .mark .rightBracket, .mark .colon, .identifier "x", .mark .lt, .number 5]

def inOrder (first second : List Lexeme) : String :=
  String.join ((textTokens counted first [second]).map fun l => l.text ++ " ")

theorem piecewise_total_reordered : ∃ f f', (piecewise (inOrder ascending chosen)).result = .ok f ∧
    (piecewise (inOrder chosen ascending)).result = .ok f' ∧ f.valueAt = f'.valueAt := by
  have hread : ∀ {a b : List Lexeme}, (piecewise (inOrder a b)).result.isOk = true →
      ∃ f, (piecewise (inOrder a b)).result = .ok f := by
    intro a b h
    cases hr : (piecewise (inOrder a b)).result with
    | ok f => exact ⟨f, rfl⟩
    | error e => rw [hr] at h; cases h
  obtain ⟨f, hf⟩ := hread (a := ascending) (b := chosen) (by decide +kernel)
  obtain ⟨f', hf'⟩ := hread (a := chosen) (b := ascending) (by decide +kernel)
  have hn : (Lexeme.identifier "n").Written := .identifier rfl
  have hx : (Lexeme.identifier "x").Written := .identifier rfl
  have hparts : ∀ a ∈ [ascending, chosen],
      AllWritten a ∧ a ≠ [] ∧ ∀ l ∈ a, IsInner l.symbol := by
    simp [ascending, chosen, hn, hx, IsInner, Lexeme.symbol, Symbol.isStop]
  have harranged : ∀ a ∈ [ascending, chosen], ∀ b ∈ [ascending, chosen],
      Arranged (symbols (inOrder a b)) (counted.map Lexeme.symbol)
        ([a, b].map (List.map Lexeme.symbol)) := by
    intro a ha b hb
    have ha := hparts a ha
    have hb := hparts b hb
    refine arranged_textTokens ?_ ?_ ?_
    · simp [textTokens, behindTokens, counted, hn, ha.1, hb.1]
    · simp [counted, IsInner, Lexeme.symbol, Symbol.isStop]
    · exact List.forall_mem_cons.2 ⟨ha.2, List.forall_mem_singleton.2 hb.2⟩
  exact ⟨f, f', hf, hf', piecewise_total.2 _ _ f f' _ _ _ hf hf'
    (harranged _ (by simp) _ (by simp)) (harranged _ (by simp) _ (by simp)) (List.Perm.swap ..)⟩

end Example

end Reader

end Quasiaffine
