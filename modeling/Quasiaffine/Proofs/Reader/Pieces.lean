import Quasiaffine.Proofs.Piecewise.Regular
import Quasiaffine.Proofs.Reader.Objects

set_option autoImplicit false

namespace Quasiaffine

open Reading

namespace Phrase

inductive StartsDomain (sc : Scope) : List Lexeme → Prop
  | titled {l : Lexeme} {ls : List Lexeme} (hl : Grammar.mayNameTuple l = true) :
      StartsDomain sc (l :: ls)
  | unit {ls : List Lexeme} : StartsDomain sc (.mark .leftBracket :: .mark .rightBracket :: ls)
  | fresh {x : String} {ls : List Lexeme} (hx : sc.position? x = none) :
      StartsDomain sc (.mark .leftBracket :: .identifier x :: ls)
  | wrapping {l l' : Lexeme} {ls : List Lexeme}
      (h : l = .mark .leftBracket ∨ Grammar.mayNameTuple l = true ∧ l' = .mark .leftBracket) :
      StartsDomain sc (.mark .leftBracket :: l :: l' :: ls)

variable (fails : Prop)

/-- A piece over parameters with `P`: the space of its domain, the points at which it is defined, and
its values. Over the parameters alone the value stands in parentheses. -/
inductive Piece (F : Frame) (P : Row → Prop) :
    List Lexeme → Space → (Row → Prop) → (Row → ℚ) → Prop
  | params {ls ls' : List Lexeme} {C : Row → Prop} {v : Row → ℚ}
      (hv : Sum F (.mark .leftParen :: ls) v) (hc : Restriction fails F P ls' C) :
      Piece F P (.mark .leftBracket :: .mark .leftParen :: (ls ++ .mark .rightBracket :: ls'))
        (.ofParams F.scope.names) C v
  | domain {G : Frame} {ls ls' ls'' : List Lexeme} {t : Tuple} {D C : Row → Prop} {v : Row → ℚ}
      (h : Shape .output F ls G t D) (hs : StartsDomain F.scope ls) (hv : Sum G ls' v)
      (hc : Restriction fails G (fun x => P (x.take F.size) ∧ D x) ls'' C) :
      Piece F P
        (ls ++ .mark .arrow :: .mark .leftBracket :: (ls' ++ .mark .rightBracket :: ls''))
        (.ofSet F.scope.names t) (fun x => D x ∧ C x) v

inductive Pieces (F : Frame) (P : Row → Prop) : List Lexeme → List (Space × Value) → Prop
  | last {ls : List Lexeme} {s : Space} {C : Row → Prop} {v : Row → ℚ} (h : Piece fails F P ls s C v) :
      Pieces F P ls [(s, Value.under s.total (fun x => P (x.take F.size) ∧ C x) v)]
  | more {ls ls' : List Lexeme} {s : Space} {C : Row → Prop} {v : Row → ℚ}
      {ps : List (Space × Value)} (h : Piece fails F P ls s C v) (hs : Pieces F P ls' ps) :
      Pieces F P (ls ++ .mark .semicolon :: ls')
        ((s, Value.under s.total (fun x => P (x.take F.size) ∧ C x) v) :: ps)

variable {fails} {F G : Frame} {P C D : Row → Prop} {v : Row → ℚ} {s : Space} {t : Tuple}
  {ls rest : List Lexeme} {sc : Scope} {kind : DimKind} {label : Label} {labels : List Label}

theorem Piece.starts (h : Piece fails F P ls s C v) :
    ∃ l ls', ls = l :: ls' ∧ l.kind ≠ .mark .rightBrace := by
  cases h with
  | params => exact ⟨_, _, rfl, nofun⟩
  | domain h =>
    obtain ⟨l, ls', rfl, hl⟩ := h.starts
    refine ⟨l, _, rfl, fun hk => ?_⟩
    rw [Lexeme.eq_mark_of_kind hk] at hl
    simp [Grammar.mayNameTuple] at hl

end Phrase

theorem Piecewise.Over.unionAdd_spec {f g : Piecewise} {s t : Space} {v w : Value}
    (hf : f.Over s v) (hg : g.Over t w) (hs : s.agrees t = true) :
    (∃ h, f.unionAdd g = .ok h ∧ h.Over s (Value.merge v w)) ∨
      f.unionAdd g = .error (.unsupported .subtractingQuantified) := by
  obtain ⟨hf, rfl, rfl⟩ := hf
  obtain ⟨hg, rfl, rfl⟩ := hg
  refine (hf.maps.unionAdd_spec hg.maps hf.tidy hg.tidy hs).imp_left ?_
  rintro ⟨h, hok, hspace, -⟩
  obtain ⟨hh, hv⟩ := hf.unionAdd hg hok
  exact ⟨h, hok, hh, hspace, hv⟩

namespace Grammar

open Phrase

variable {fails : Prop} {F G : Frame} {P C D : Row → Prop} {v : Row → ℚ} {s : Space} {t : Tuple}
  {ls ls' : List Lexeme} {sc : Scope} {set : Relation} {depth : Nat} {r : Lexeme}

section Domains

/-- Two tokens behind a bracket tell whether a tuple or the end of one is there; otherwise the first
has to be a new name. The tokens are ahead again. -/
theorem reads_startsDomain {l l' : Lexeme} {rest : List Lexeme} {opens found : Bool}
    (hopens : opens = (l.kind == .mark .leftBracket ||
      mayNameTuple l && l'.kind == .mark .leftBracket || l.kind == .mark .rightBracket))
    (hfound : opens = true → found = true)
    (hname : opens = false → ∀ t : Token, t.lexeme = l → Reads fails sc (l :: l' :: rest) (freshName? t)
      (Gives (·.isSome = found) sc (l :: l' :: rest))) :
    Reads fails sc (.mark .leftBracket :: l :: l' :: rest) startsDomain
      (Gives (· = found) sc (.mark .leftBracket :: l :: l' :: rest)) := by
  refine reads_get fun s _ hs => reads_next.step fun _ _ => ?_
  refine reads_startsTuple.step fun starts hstarts => reads_nextIs.step fun closes hcloses => ?_
  rw [← hstarts, ← hcloses] at hopens
  have hback : ∀ b : Bool, b = found → Reads fails sc (l :: l' :: rest) (do
      tokens (TokenStream.restore s.stream)
      return b) (Gives (· = found) sc (.mark .leftBracket :: l :: l' :: rest)) :=
    fun b hb => (reads_restore hs).step fun _ _ => reads_pure (gives hb)
  cases starts with
  | true => exact hback true (hfound hopens).symm
  | false =>
    cases closes with
    | true => exact hback true (hfound hopens).symm
    | false =>
      refine reads_peek.step fun t ht => (hname hopens t ht).step fun name hname => ?_
      exact hback name.isSome hname

theorem reads_startsDomain_of_starts (h : StartsDomain F.scope (.mark .leftBracket :: ls))
    (rest : List Lexeme) :
    Reads fails F.scope (.mark .leftBracket :: (ls ++ r :: rest)) startsDomain
      (Gives (· = true) F.scope (.mark .leftBracket :: (ls ++ r :: rest))) := by
  have hsplit : ∀ ls : List Lexeme, ∃ l ls', ls ++ r :: rest = l :: ls' := fun ls => by
    cases ls <;> exact ⟨_, _, rfl⟩
  cases h with
  | titled hl => cases hl
  | @unit ls =>
    obtain ⟨l, ls', hls⟩ := hsplit ls
    rw [List.cons_append, hls]
    exact reads_startsDomain (Eq.refl true) (fun _ => rfl) fun h => by cases h
  | @fresh x ls hx =>
    obtain ⟨l, ls', hls⟩ := hsplit ls
    rw [List.cons_append, hls]
    exact reads_startsDomain rfl (fun _ => rfl) fun _ t ht =>
      (reads_freshName?_of_free ht hx).congr fun name hname => by rw [hname, Option.isSome_some]
  | @wrapping l l' _ h =>
    have hopens : true = (l.kind == .mark .leftBracket ||
        mayNameTuple l && l'.kind == .mark .leftBracket || l.kind == .mark .rightBracket) := by
      rcases h with rfl | ⟨hl, rfl⟩
      · rfl
      · simp [hl, Lexeme.kind]
    exact reads_startsDomain hopens (fun _ => rfl) fun h => by cases h

theorem reads_startsDomain_of_paren (l : Lexeme) (rest : List Lexeme) :
    Reads fails F.scope (.mark .leftBracket :: .mark .leftParen :: l :: rest) startsDomain
      (Gives (· = false) F.scope (.mark .leftBracket :: .mark .leftParen :: l :: rest)) := by
  refine reads_startsDomain (Eq.refl false) (fun h => by cases h) fun _ t ht => ?_
  refine (reads_freshName?_of_known ?_).congr fun name hname => by rw [hname, Option.isSome_none]
  rw [ht]
  rintro x ⟨⟩

theorem reads_pieceDomain? (h : Shape .output F ls G t D) (hs : StartsDomain F.scope ls)
    (hset : F.Means False set P) (hd : 32 * ls.length ≤ depth) (rest : List Lexeme) :
    Reads fails F.scope (ls ++ .mark .arrow :: rest) (pieceDomain? depth set)
      (Gives (fun domain => ∃ shaped, domain = some shaped ∧ shaped.tuple = t ∧
        G.Means False shaped.set fun x => P (x.take F.size) ∧ D x) G.scope
        (.mark .arrow :: rest)) := by
  have htuple : Reads fails F.scope (ls ++ .mark .arrow :: rest) (do
      return some (← tuple depth .output set))
      (Gives (fun domain => ∃ shaped, domain = some shaped ∧ shaped.tuple = t ∧
        G.Means False shaped.set fun x => P (x.take F.size) ∧ D x) G.scope
        (.mark .arrow :: rest)) :=
    (reads_tuple h (.inl rfl) hset hd (by decide) rest).step fun shaped hshaped =>
      reads_pure (gives ⟨shaped, rfl, hshaped⟩)
  obtain ⟨l, ls, rfl, hl⟩ := h.starts
  rw [pieceDomain?]
  refine (reads_peek (l := l)).step fun tok ht => ?_
  by_cases hname : mayNameTuple l = true
  · rw [if_pos (by rw [ht, hname])]
    exact htuple
  · obtain rfl := hl.resolve_right hname
    rw [if_neg (by rw [ht]; exact hname), if_neg (by rw [Token.kind, ht]; exact fun hk => hk rfl)]
    refine (reads_startsDomain_of_starts hs rest).step fun b hb => ?_
    subst hb
    exact htuple

theorem reads_pieceDomain?_of_paren (l : Lexeme) (rest : List Lexeme) :
    Reads fails F.scope (.mark .leftBracket :: .mark .leftParen :: l :: rest)
      (pieceDomain? depth set) (Gives (· = none) F.scope
        (.mark .leftBracket :: .mark .leftParen :: l :: rest)) := by
  rw [pieceDomain?]
  refine reads_peek.step fun tok ht => ?_
  rw [if_neg (by rw [ht]; exact Bool.false_ne_true),
    if_neg (by rw [Token.kind, ht]; exact fun hk => hk rfl)]
  refine (reads_startsDomain_of_paren l rest).step fun b hb => ?_
  subst hb
  exact reads_pure (gives rfl)

end Domains

section Pieces

theorem reads_pieceValue (hv : Sum F ls v) (hc : Restriction fails F P ls' C)
    (hset : F.Means False set P) (hd : 32 * (ls.length + ls'.length) + 11 ≤ depth)
    (hr : r ∈ [.mark .semicolon, .mark .rightBrace]) (rest : List Lexeme) :
    Reads fails F.scope (.mark .leftBracket :: (ls ++ .mark .rightBracket :: (ls' ++ r :: rest)))
      (pieceValue depth set)
      (Gives (·.Over F.space (Value.under F.size (fun x => P x ∧ C x) v)) F.scope (r :: rest)) := by
  rw [pieceValue, hset.describes.space]
  refine reads_expectMark.step fun _ _ => ?_
  refine (reads_choice hv (by omega) (by decide) rfl _).step fun f hf => ?_
  refine reads_expectMark.step fun _ _ => ?_
  refine (reads_optionalCondition hc hset (by omega) hr rest).step fun set' hset' => ?_
  obtain ⟨hreg, hspace, hvalue⟩ := hf.over
  have hagrees : f.space.agrees set'.space = true := by
    rw [hspace, hset'.describes.space]
    exact F.space.agrees_refl
  obtain ⟨g, hok, hg⟩ := hreg.intersectDomain_eq_ok hset'.describes.wellFormed hagrees
  refine reads_check hok ?_
  have hunder : Value.restrict set'.points f.valueAt =
      Value.under F.size (fun x => P x ∧ C x) v := by
    funext x
    have hpoints : x ∈ set'.points ↔ x.length = F.size ∧ P x ∧ C x := by
      rw [← F.total_space]
      exact hset'.describes.points x
    rw [Value.restrict, hvalue, Value.under, Value.under, F.total_space]
    by_cases hx : x ∈ set'.points
    · rw [if_pos hx, if_pos ⟨(hpoints.1 hx).1, trivial⟩, if_pos (hpoints.1 hx)]
    · rw [if_neg hx, if_neg (mt hpoints.2 hx)]
  rw [← hunder, ← hspace]
  exact hg

def LocatedFunction.Means (located : LocatedFunction) (s : Space) (v : Value) : Prop :=
  located.space = s ∧ s.Proper ∧ located.function.space.total = s.total ∧
    located.function.Regular ∧ located.function.valueAt = v

theorem LocatedFunction.means_of_over {f : Piecewise} {w w' : Value} (hf : f.Over G.space w)
    (hs : s.Proper) (ht : G.size = s.total) (hw : w = w') :
    LocatedFunction.Means ⟨f, s⟩ s w' :=
  ⟨rfl, hs, by rw [hf.space, G.total_space, ht], hf.regular, hf.valueAt.trans hw⟩

section Located

variable {ls'' : List Lexeme}

theorem reads_locatedPiece_params (hv : Sum F (.mark .leftParen :: ls) v)
    (hc : Restriction fails F P ls' C) (hF : F.params = F.size) (hset : F.Means False set P)
    (hd : 32 * (ls.length + 1 + ls'.length) + 11 ≤ depth)
    (hr : r ∈ [.mark .semicolon, .mark .rightBrace]) (rest : List Lexeme) :
    Reads fails F.scope (.mark .leftBracket :: (.mark .leftParen :: ls ++
      .mark .rightBracket :: (ls' ++ r :: rest))) (locatedPiece depth set)
      (Gives (LocatedFunction.Means · (.ofParams F.scope.names)
        (Value.under (Space.ofParams F.scope.names).total (fun x => P (x.take F.size) ∧ C x) v))
        F.scope (r :: rest)) := by
  refine (reads_parameterNames hF hset.describes.space).step fun names hn => ?_
  subst hn
  have hdomain : Reads fails F.scope (.mark .leftBracket :: (.mark .leftParen :: ls ++
      .mark .rightBracket :: (ls' ++ r :: rest))) (pieceDomain? depth set)
      (Gives (· = none) F.scope (.mark .leftBracket :: (.mark .leftParen :: ls ++
        .mark .rightBracket :: (ls' ++ r :: rest)))) := by
    cases ls <;> exact reads_pieceDomain?_of_paren _ _
  refine hdomain.step fun domain hnone => ?_
  subst hnone
  refine (reads_pieceValue hv hc hset hd hr rest).step fun f hf => ?_
  refine reads_pure (gives (LocatedFunction.means_of_over hf (fun _ => rfl) rfl ?_))
  funext x
  have htotal : (Space.ofParams F.scope.names).total = F.size := rfl
  rw [Value.under, Value.under, htotal]
  by_cases hx : x.length = F.size
  · rw [show x.take F.size = x from List.take_of_length_le (Nat.le_of_eq hx)]
  · rw [if_neg (mt And.left hx), if_neg (mt And.left hx)]

theorem reads_locatedPiece_domain (h : Shape .output F ls G t D) (hs : StartsDomain F.scope ls)
    (hv : Sum G ls' v) (hc : Restriction fails G (fun x => P (x.take F.size) ∧ D x) ls'' C)
    (hF : F.params = F.size) (hset : F.Means False set P)
    (hd : 32 * (ls.length + ls'.length + ls''.length) + 11 ≤ depth)
    (hr : r ∈ [.mark .semicolon, .mark .rightBrace]) (rest : List Lexeme) :
    Reads fails F.scope (ls ++ .mark .arrow :: .mark .leftBracket :: (ls' ++
      .mark .rightBracket :: (ls'' ++ r :: rest))) (locatedPiece depth set)
      (Gives (LocatedFunction.Means · (.ofSet F.scope.names t)
        (Value.under (Space.ofSet F.scope.names t).total
          (fun x => P (x.take F.size) ∧ (D x ∧ C x)) v)) G.scope (r :: rest)) := by
  refine (reads_parameterNames hF hset.describes.space).step fun names hn => ?_
  subst hn
  refine (reads_pieceDomain? h hs hset (by omega) _).step fun domain hdomain => ?_
  obtain ⟨shaped, rfl, rfl, hshaped⟩ := hdomain
  refine reads_expectMark.step fun _ _ => ?_
  refine (reads_pieceValue hv hc hshaped (by omega) hr rest).step fun f hf => ?_
  have htotal := (h.grows (.inl rfl)).size_eq_total
  refine reads_pure (gives (LocatedFunction.means_of_over hf (Space.proper_ofSet _ _) htotal ?_))
  simp only [htotal, and_assoc]

end Located

theorem reads_locatedPiece (h : Phrase.Piece fails F P ls s C v) (hF : F.params = F.size)
    (hset : F.Means False set P) (hd : 32 * ls.length + 11 ≤ depth)
    (hr : r ∈ [.mark .semicolon, .mark .rightBrace]) (rest : List Lexeme) :
    Reads fails F.scope (ls ++ r :: rest) (inScope (locatedPiece depth set))
      (Gives (LocatedFunction.Means · s (Value.under s.total (fun x => P (x.take F.size) ∧ C x) v))
        F.scope (r :: rest)) := by
  cases h with
  | @params ls ls' C v hv hc =>
    simp only [List.length_cons, List.length_append] at hd
    have hdepth : 32 * (ls.length + 1 + ls'.length) + 11 ≤ depth := by omega
    have hread := reads_locatedPiece_params hv hc hF hset hdepth hr rest
    simpa using hread.forget F.extends_refl
  | @domain G ls ls' ls'' t D C v h hs hv hc =>
    simp only [List.length_cons, List.length_append] at hd
    have hdepth : 32 * (ls.length + ls'.length + ls''.length) + 11 ≤ depth := by omega
    have hread := reads_locatedPiece_domain h hs hv hc hF hset hdepth hr rest
    simpa using hread.forget (h.grows (.inl rfl)).extends

theorem reads_piece (h : Phrase.Piece fails F P ls s C v) (hF : F.params = F.size)
    (hset : F.Means False set P) (hd : 32 * ls.length + 11 ≤ depth)
    (hr : r ∈ [.mark .semicolon, .mark .rightBrace]) (rest : List Lexeme) :
    Reads fails F.scope (ls ++ r :: rest) (piece depth set)
      (Gives (·.Over s (Value.under s.total (fun x => P (x.take F.size) ∧ C x) v)) F.scope
        (r :: rest)) := by
  refine (reads_locatedPiece h hF hset hd hr rest).step fun read hread => ?_
  obtain ⟨hspace, hs, ht, hreg, hvalue⟩ := hread
  obtain ⟨f, hok, hf⟩ := hreg.resetSpace_eq_ok hs ht.symm
  rw [hspace]
  exact reads_check hok (hvalue ▸ hf)

variable {ps : List (Space × Value)} {whole : Piecewise} {vs : List Value}

theorem reads_morePieces_end {w : Value} (hw : whole.Over s w) (hd : 0 < depth)
    (rest : List Lexeme) :
    Reads fails sc (.mark .rightBrace :: rest) (morePieces set depth whole)
      (Gives (·.Over s w) sc (.mark .rightBrace :: rest)) := by
  obtain ⟨depth, rfl⟩ := Nat.exists_eq_succ_of_ne_zero (n := depth) (by omega)
  rw [morePieces]
  refine Reads.enter_bind ((reads_eatIf_not (by decide)).step fun b hb => ?_)
  subst hb
  exact reads_pure (gives hw)

theorem reads_add_piece {t : Space} {k : Piecewise → Reading Piecewise}
    {post : Piecewise → Scope → List Lexeme → Prop} (h : Phrase.Piece fails F P ls t C v)
    (hF : F.params = F.size) (hset : F.Means False set P) (hfails : fails)
    (hw : whole.Over s (Value.total vs)) (hagrees : s.agrees t = true)
    (hd : 32 * ls.length + 11 ≤ depth) (hr : r ∈ [.mark .semicolon, .mark .rightBrace])
    (rest : List Lexeme)
    (hk : ∀ f : Piecewise, f.Over s (Value.total
        (vs ++ [Value.under t.total (fun x => P (x.take F.size) ∧ C x) v])) →
      Reads fails F.scope (r :: rest) (k f) post) :
    Reads fails F.scope (ls ++ r :: rest) (do
      if ← nextIsMark .rightBrace then return whole
      let start ← peek
      let part ← piece depth set
      if !whole.space.agrees part.space then
        stop (.semantic (.pieceElsewhere part.space whole.space) start.span)
      k (← check (whole.unionAdd part))) post := by
  have hahead := reads_ahead fails F.scope h.starts (r :: rest)
  refine hahead.1.step fun b hb => ?_
  subst hb
  refine hahead.2.step fun start _ => ?_
  refine (reads_piece h hF hset hd hr rest).step fun part hpart => ?_
  have hadd := hw.unionAdd_spec hpart hagrees
  rw [← Value.total_concat] at hadd
  have hsame : (!whole.space.agrees part.space) = false := by
    rw [hw.space, hpart.space, hagrees]
    rfl
  simp only [hsame, Bool.false_eq_true, if_false]
  exact (reads_check_or (hadd.imp_right fun herr => ⟨hfails, herr⟩)).step hk

theorem reads_morePieces (h : Pieces fails F P ls ps) (hF : F.params = F.size)
    (hset : F.Means False set P) (hfails : fails) (hw : whole.Over s (Value.total vs))
    (hagrees : ∀ p ∈ ps, s.agrees p.1 = true) (hd : 32 * ls.length + 12 ≤ depth)
    (rest : List Lexeme) :
    Reads fails F.scope (.mark .semicolon :: (ls ++ .mark .rightBrace :: rest))
      (morePieces set depth whole)
      (Gives (·.Over s (Value.total (vs ++ ps.map Prod.snd))) F.scope
        (.mark .rightBrace :: rest)) := by
  induction h generalizing vs whole depth with
  | @last ls t C v h =>
    obtain ⟨depth, rfl⟩ := Nat.exists_eq_succ_of_ne_zero (n := depth) (by omega)
    rw [morePieces]
    refine Reads.enter_bind ((reads_eatIf rfl).step fun b hb => ?_)
    subst hb
    refine reads_add_piece h hF hset hfails hw (hagrees _ List.mem_cons_self) (by omega) (by decide)
      rest fun f hf => ?_
    exact reads_morePieces_end hf (by omega) rest
  | @more ls ls' t C v ps h hs ih =>
    rw [List.length_append, List.length_cons] at hd
    rw [List.forall_mem_cons] at hagrees
    obtain ⟨depth, rfl⟩ := Nat.exists_eq_succ_of_ne_zero (n := depth) (by omega)
    rw [morePieces, List.append_assoc]
    refine Reads.enter_bind ((reads_eatIf rfl).step fun b hb => ?_)
    subst hb
    refine reads_add_piece h hF hset hfails hw hagrees.1 (by omega) (by decide) _ fun f hf => ?_
    rw [List.map_cons, List.append_cons]
    exact ih hf hagrees.2 (by omega)

end Pieces

/-- A text of pieces in agreeing spaces is read as a function over the first of these. -/
theorem reads_piecewise {header : List Lexeme} {p : Space × Value} {ps : List (Space × Value)}
    (hh : Header header F P) (h : Pieces fails F P ls (p :: ps)) (hfails : ps ≠ [] → fails)
    (hagrees : ∀ q ∈ ps, p.1.agrees q.1 = true)
    (hd : 32 * (header.length + ls.length) + 12 ≤ depth) :
    Reads fails .empty (header ++ .mark .leftBrace :: (ls ++ [.mark .rightBrace, .endOfInput]))
      (piecewise depth) fun f _ _ => f.Over p.1 (Value.total (p.2 :: ps.map Prod.snd)) := by
  have hend : ∀ f : Piecewise, f.Over p.1 (Value.total (p.2 :: ps.map Prod.snd)) →
      Reads fails F.scope [.mark .rightBrace, .endOfInput] (do
        expectMark .rightBrace
        expectEnd
        return f) fun f _ _ => f.Over p.1 (Value.total (p.2 :: ps.map Prod.snd)) :=
    fun f hf => reads_expectMark.step fun _ _ => reads_expectEnd.step fun _ _ => reads_pure hf
  rw [piecewise]
  refine (reads_parameters hh (by omega) _).step fun set hset => reads_expectMark.step fun _ _ => ?_
  have hF := hh.params_eq
  cases h with
  | last h =>
    refine (reads_piece h hF hset (by omega) (by decide) _).step fun first hfirst => ?_
    rw [← Value.total_singleton (Value.under _ _ _)] at hfirst
    exact (reads_morePieces_end hfirst (by omega) _).step fun f hf => hend f hf
  | more h hs =>
    rw [List.length_append, List.length_cons] at hd
    rw [List.append_assoc]
    refine (reads_piece h hF hset (by omega) (by decide) _).step fun first hfirst => ?_
    rw [← Value.total_singleton (Value.under _ _ _)] at hfirst
    refine (reads_morePieces hs hF hset (hfails ?_) hfirst hagrees (by omega) _).step
      fun f hf => hend f hf
    cases hs <;> exact List.cons_ne_nil _ _

end Grammar

namespace Reader

open Phrase

/-- The tokens of a text are read as the function that they mean, unless two of its pieces cannot be
added. -/
theorem piecewise_spec {fails : Prop} {F : Frame} {P : Row → Prop} {header ls : List Lexeme}
    {p : Space × Value} {ps : List (Space × Value)} {source : String} (hh : Header header F P)
    (h : Pieces fails F P ls (p :: ps)) (hfails : ps ≠ [] → fails)
    (hagrees : ∀ q ∈ ps, p.1.agrees q.1 = true)
    (hs : Spells source.toList
      (header ++ .mark .leftBrace :: (ls ++ [.mark .rightBrace, .endOfInput]))) :
    (∃ f, (piecewise source).result = .ok f ∧
      f.Over p.1 (Value.total (p.2 :: ps.map Prod.snd))) ∨ fails ∧
        (piecewise source).result = .error (.error (.unsupported .subtractingQuantified)) := by
  refine run_spec hs fun depth hd => Grammar.reads_piecewise hh h hfails hagrees ?_
  simp only [List.length_append, List.length_cons, List.length_nil] at hd
  omega

end Reader

end Quasiaffine
