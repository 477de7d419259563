import Quasiaffine.Proofs.Reader.Tuples
import Quasiaffine.Reader.Basic

set_option autoImplicit false

namespace Quasiaffine

open Reading

structure Relation.Over (r : Relation) (s : Space) (C : Row → Prop) : Prop where
  space : r.space = s
  points : ∀ x, x ∈ r ↔ x.length = s.total ∧ C x

namespace Phrase

variable (fails : Prop)

inductive Restriction (F : Frame) (P : Row → Prop) : List Lexeme → (Row → Prop) → Prop
  | none : Restriction F P [] fun _ => True
  | condition {ls : List Lexeme} {C : Row → Prop} (h : Condition fails True F P ls C) :
      Restriction F P (.mark .colon :: ls) C

/-- A body over parameters with `P`, and the space in which it lies. -/
inductive Body (F : Frame) (P : Row → Prop) : List Lexeme → Space → (Row → Prop) → Prop
  | params {ls : List Lexeme} {C : Row → Prop} (h : Condition fails True F P ls C) :
      Body F P (.mark .colon :: ls) (.ofParams F.scope.names) C
  | set {G : Frame} {ls ls' : List Lexeme} {t : Tuple} {D C : Row → Prop}
      (h : Shape .output F ls G t D)
      (hc : Restriction fails G (fun x => P (x.take F.size) ∧ D x) ls' C) :
      Body F P (ls ++ ls') (.ofSet F.scope.names t) fun x => D x ∧ C x
  | relation {G H : Frame} {ls ls' ls'' : List Lexeme} {s t : Tuple} {D E C : Row → Prop}
      (h : Shape .output F ls G s D) (h' : Shape .output G ls' H t E)
      (hc : Restriction fails H
        (fun x => (P ((x.take G.size).take F.size) ∧ D (x.take G.size)) ∧ E x) ls'' C) :
      Body F P (ls ++ .mark .arrow :: (ls' ++ ls'')) (.ofRelation F.scope.names s t)
        fun x => (D (x.take G.size) ∧ E x) ∧ C x

variable {fails}

theorem Restriction.next {F : Frame} {P C : Row → Prop} {ls : List Lexeme} {r : Lexeme}
    (h : Restriction fails F P ls C)
    (hr : r ∈ [.mark .semicolon, .mark .rightBrace]) (rest : List Lexeme) :
    ∃ r' rest', ls ++ r :: rest = r' :: rest' ∧ r'.kind ≠ .mark .leftBracket ∧
      r'.kind ≠ .mark .arrow := by
  cases h with
  | none =>
    simp only [List.mem_cons, List.not_mem_nil, or_false] at hr
    refine ⟨r, rest, rfl, ?_⟩
    rcases hr with rfl | rfl <;> exact ⟨nofun, nofun⟩
  | condition => exact ⟨_, _, rfl, nofun, nofun⟩

end Phrase

/-- The variables of a tuple behind the parameters are the dimensions of a set. -/
theorem Frame.Grows.size_eq_total {kind : DimKind} {F G : Frame} {t : Tuple}
    (h : Grows kind F G t.ids.length) : G.size = (Space.ofSet F.scope.names t).total := by
  rw [h.size_eq]
  simp [Space.total, Space.ofSet, Tuple.size, Tuple.unit, Tuple.ids, Frame.size, Scope.size]

/-- What is read over more variables, which are forgotten behind it. -/
theorem Reading.Reads.forget {α : Type} {fails : Prop} {F G : Frame} {ls ls' : List Lexeme}
    {m : Reading α} {p : α → Prop} (h : Reads fails F.scope ls m (Gives p G.scope ls'))
    (hG : F.Extends G) : Reads fails F.scope ls m.inScope (Gives p F.scope ls') := by
  have hscoped := h.inScope
  rwa [show G.scope.rollback F.scope.size = F.scope from hG.rollback] at hscoped

namespace Grammar

open Phrase

variable {fails : Prop} {F G : Frame} {P C : Row → Prop} {ls : List Lexeme} {set : Relation}
  {depth : Nat} {r : Lexeme}

theorem reads_optionalCondition (h : Restriction fails F P ls C) (hset : F.Means False set P)
    (hd : 32 * ls.length + 11 ≤ depth) (hr : r ∈ [.mark .semicolon, .mark .rightBrace])
    (rest : List Lexeme) :
    Reads fails F.scope (ls ++ r :: rest) (optionalCondition depth set)
      (Gives (F.Means True · fun x => P x ∧ C x) F.scope (r :: rest)) := by
  have hreach : r.reach = 0 := by
    simp only [List.mem_cons, List.not_mem_nil, or_false] at hr
    rcases hr with rfl | rfl <;> rfl
  cases h with
  | none =>
    refine reads_next.step fun t ht => ?_
    rw [if_neg, ← ht]
    · exact (reads_push t).step fun _ _ => reads_pure
        (gives ((hset.congr fun x _ => by simp).mono False.elim))
    · rw [Token.kind, ht]
      simp only [List.mem_cons, List.not_mem_nil, or_false] at hr
      rcases hr with rfl | rfl <;> decide
  | condition h =>
    rw [List.length_cons] at hd
    refine reads_next.step fun t ht => ?_
    rw [if_pos (.inl (by rw [Token.kind, ht]; rfl))]
    exact (readsConditions fails depth).condition h hset (by omega) hreach rest

theorem reads_parameterNames (hF : F.params = F.size) (hset : set.space = F.space) :
    Reads fails F.scope ls (parameterNames set) (Gives (· = F.scope.names) F.scope ls) := by
  refine reads_get fun s hs _ => reads_pure (gives ?_)
  rw [hs, Scope.labels, List.drop_zero, Relation.dim, hset, Frame.space,
    Relation.dim_anonymousSet_param, hF]
  exact List.take_length

def Located.Means (located : Located) (s : Space) (C : Row → Prop) : Prop :=
  located.space = s ∧ s.Proper ∧ located.set.WellFormed ∧ located.set.space.total = s.total ∧
    ∀ x, x ∈ located.set ↔ x.length = s.total ∧ C x

theorem Located.means_of_means {quantifiers : Prop} {C D : Row → Prop}
    (h : G.Means quantifiers set C) {s : Space} (hs : s.Proper) (ht : G.size = s.total)
    (hC : ∀ x : Row, x.length = s.total → (C x ↔ D x)) : Located.Means ⟨set, s⟩ s D := by
  have hdescribes := h.describes
  refine ⟨rfl, hs, hdescribes.wellFormed, by rw [hdescribes.space, G.total_space, ht], fun x => ?_⟩
  rw [hdescribes.points, G.total_space, ht]
  exact and_congr_right (hC x)

theorem kind_ne_colon {l : Lexeme} (h : l = .mark .leftBracket ∨ mayNameTuple l = true) :
    l.kind ≠ .mark .colon := by
  rintro hk
  rw [Lexeme.eq_mark_of_kind hk] at h
  simp [mayNameTuple] at h

theorem reads_nextIsColon_of_shape {kind : DimKind} {t : Tuple} {D : Row → Prop} {sc : Scope}
    (h : Shape kind F ls G t D) (rest : List Lexeme) :
    Reads fails sc (ls ++ rest) (nextIsMark .colon) (Gives (· = false) sc (ls ++ rest)) := by
  obtain ⟨l, ls, rfl, hl⟩ := h.starts
  exact reads_nextIs.congr fun b hb => by rw [hb, beq_false_of_ne (kind_ne_colon hl)]

section Located

variable {H : Frame} {D E : Row → Prop} {s t : Tuple} {ls' ls'' : List Lexeme}

theorem reads_located_params (h : Condition fails True F P ls C) (hF : F.params = F.size)
    (hset : F.Means False set P) (hd : 32 * (ls.length + 1) + 11 ≤ depth)
    (hr : r ∈ [.mark .semicolon, .mark .rightBrace]) (rest : List Lexeme) :
    Reads fails F.scope (.mark .colon :: ls ++ r :: rest) (located depth set)
      (Gives (Located.Means · (.ofParams F.scope.names) fun x => P (x.take F.size) ∧ C x) F.scope
        (r :: rest)) := by
  refine (reads_parameterNames hF hset.describes.space).step fun names hn => ?_
  subst hn
  refine reads_nextIs.step fun b hb => ?_
  subst hb
  rw [if_pos (by rfl)]
  refine (reads_optionalCondition (.condition h) hset hd hr rest).step fun set' hset' => ?_
  refine reads_pure (gives (Located.means_of_means hset' (fun _ => rfl) rfl fun x hx => ?_))
  rw [show x.take F.size = x from List.take_of_length_le (Nat.le_of_eq hx)]

theorem reads_located_set (h : Shape .output F ls G t D)
    (hc : Restriction fails G (fun x => P (x.take F.size) ∧ D x) ls' C) (hF : F.params = F.size)
    (hset : F.Means False set P) (hd : 32 * (ls.length + ls'.length) + 11 ≤ depth)
    (hr : r ∈ [.mark .semicolon, .mark .rightBrace]) (rest : List Lexeme) :
    Reads fails F.scope (ls ++ (ls' ++ r :: rest)) (located depth set)
      (Gives (Located.Means · (.ofSet F.scope.names t)
        fun x => P (x.take F.size) ∧ (D x ∧ C x)) G.scope (r :: rest)) := by
  obtain ⟨r', rest', hnext, hbracket, harrow⟩ := hc.next hr rest
  refine (reads_parameterNames hF hset.describes.space).step fun names hn => ?_
  subst hn
  refine (reads_nextIsColon_of_shape h _).step fun b hb => ?_
  subst hb
  rw [if_neg Bool.false_ne_true, hnext]
  refine (reads_tuple h (.inl rfl) hset (by omega) hbracket _).step fun first hfirst => ?_
  refine (reads_eatIf_not harrow).step fun b hb => ?_
  subst hb
  rw [if_neg Bool.false_ne_true, ← hnext]
  refine (reads_optionalCondition hc hfirst.2 (by omega) hr rest).step fun set' hset' => ?_
  rw [hfirst.1]
  exact reads_pure (gives (Located.means_of_means hset' (Space.proper_ofSet _ _)
    (h.grows (.inl rfl)).size_eq_total fun x _ => and_assoc))

theorem reads_located_relation (h : Shape .output F ls G s D) (h' : Shape .output G ls' H t E)
    (hc : Restriction fails H
      (fun x => (P ((x.take G.size).take F.size) ∧ D (x.take G.size)) ∧ E x) ls'' C)
    (hF : F.params = F.size) (hset : F.Means False set P)
    (hd : 32 * (ls.length + (ls'.length + ls''.length + 1)) + 11 ≤ depth)
    (hr : r ∈ [.mark .semicolon, .mark .rightBrace]) (rest : List Lexeme) :
    Reads fails F.scope (ls ++ .mark .arrow :: (ls' ++ (ls'' ++ r :: rest))) (located depth set)
      (Gives (Located.Means · (.ofRelation F.scope.names s t)
        fun x => P (x.take F.size) ∧ ((D (x.take G.size) ∧ E x) ∧ C x)) H.scope (r :: rest)) := by
  have hG := h.grows (.inl rfl)
  have hH := h'.grows (.inl rfl)
  obtain ⟨r', rest', hnext, hbracket, -⟩ := hc.next hr rest
  refine (reads_parameterNames hF hset.describes.space).step fun names hn => ?_
  subst hn
  refine (reads_nextIsColon_of_shape h _).step fun b hb => ?_
  subst hb
  rw [if_neg Bool.false_ne_true, hnext]
  refine (reads_tuple h (.inl rfl) hset (by omega) (by decide) _).step fun first hfirst => ?_
  refine (reads_eatIf rfl).step fun b hb => ?_
  subst hb
  rw [if_pos rfl]
  refine (reads_tuple h' (.inl rfl) hfirst.2 (by omega) hbracket _).step fun second hsecond => ?_
  rw [← hnext]
  refine (reads_optionalCondition hc hsecond.2 (by omega) hr rest).step fun set' hset' => ?_
  rw [hfirst.1, hsecond.1]
  refine reads_pure (gives (Located.means_of_means hset' (Space.proper_ofRelation _ _ _) ?_
    fun x _ => ?_))
  · rw [hH.size_eq, hG.size_eq]
    simp [Space.total, Space.ofRelation, Tuple.size, Frame.size, Scope.size]
  · rw [List.take_take, Nat.min_eq_left hG.size_le]
    tauto

end Located

theorem reads_located {s : Space} (h : Body fails F P ls s C) (hF : F.params = F.size)
    (hset : F.Means False set P) (hd : 32 * ls.length + 11 ≤ depth)
    (hr : r ∈ [.mark .semicolon, .mark .rightBrace]) (rest : List Lexeme) :
    Reads fails F.scope (ls ++ r :: rest) (inScope (located depth set))
      (Gives (Located.Means · s fun x => P (x.take F.size) ∧ C x) F.scope (r :: rest)) := by
  cases h with
  | params h =>
    exact (reads_located_params h hF hset hd hr rest).forget F.extends_refl
  | set h hc =>
    rw [List.length_append] at hd
    rw [List.append_assoc]
    exact (reads_located_set h hc hF hset hd hr rest).forget (h.grows (.inl rfl)).extends
  | relation h h' hc =>
    simp only [List.length_append, List.length_cons] at hd
    rw [List.append_assoc, List.cons_append, List.append_assoc]
    exact (reads_located_relation h h' hc hF hset hd hr rest).forget
      ((h.grows (.inl rfl)).trans (h'.grows (.inl rfl))).extends

theorem reads_body {s : Space} (config : Config) (h : Body fails F P ls s C)
    (hF : F.params = F.size) (hset : F.Means False set P) (hd : 32 * ls.length + 11 ≤ depth)
    (hr : r ∈ [.mark .semicolon, .mark .rightBrace]) (rest : List Lexeme) :
    Reads fails F.scope (ls ++ r :: rest) (body config depth set)
      (Gives (·.Over s fun x => P (x.take F.size) ∧ C x) F.scope (r :: rest)) := by
  refine (reads_located h hF hset hd hr rest).step fun read hread => ?_
  obtain ⟨hspace, hs, hwf, ht, hpoints⟩ := hread
  obtain ⟨r, hok, hrspace, hrwf, -, hmem⟩ := Relation.resetSpace_eq_ok hwf hs ht.symm
  rw [hspace]
  refine (reads_check (P := (· = r)) hok rfl).step fun r' hr' => ?_
  subst hr'
  refine reads_pure (gives ?_)
  split
  · exact ⟨hrspace, fun x => ((Relation.sortDivs_spec hrwf).2 x).trans
      ((hmem x).trans (hpoints x))⟩
  · exact ⟨hrspace, fun x => (hmem x).trans (hpoints x)⟩

end Grammar

end Quasiaffine
