import Quasiaffine.Proofs.Printer.Spaces
import Quasiaffine.Proofs.Relation.Unions

set_option autoImplicit false

namespace Quasiaffine

open Phrase Printer

def Space.firstName (s : Space) : Label := if s.isSet then s.output.name else s.input.name

/-- A relation whose text tells its space and its points. -/
structure Relation.Writable (r : Relation) : Prop where
  space : r.space.Writable
  wellFormed : r.WellFormed
  consistent : ∀ b ∈ r.basics, b.contradictory = false

structure Relation.SameAs (r r' : Relation) : Prop where
  space : r.space.agrees r'.space = true
  points : ∀ x, x ∈ r' ↔ x ∈ r

structure Relation.SaidBy (r : Relation) (b : Space × (Row → Prop)) : Prop where
  wellFormed : r.WellFormed
  proper : b.1.Proper
  space : r.space.agrees b.1 = true
  points : ∀ x : Row, x.length = r.space.total → (b.2 x ↔ x ∈ r)

namespace Relation

variable {fails : Prop} {F : Frame} {P : Row → Prop} {r r' : Relation} {s : Space}
  {b : Space × (Row → Prop)}

theorem SaidBy.sameAs (h : r.SaidBy b) (ho : r'.Over b.1 b.2) : r.SameAs r' := by
  refine ⟨ho.space ▸ h.space, fun x => ?_⟩
  rw [ho.points, ← Space.total_eq_of_agrees h.space h.wellFormed.proper h.proper]
  constructor
  · exact fun hx => (h.points x hx.1).1 hx.2
  · intro hx
    have hl := h.wellFormed.length_of_mem hx
    exact ⟨hl, (h.points x hl).2 hx⟩

theorem Writable.fits (h : r.Writable) : ∀ b ∈ r.basics, Fits r.space.names b :=
  Space.fits_names h.wellFormed.proper r.space.agrees_refl h.wellFormed h.consistent

section Bodies

def isWrittenFull (r : Relation) : Bool := r.basics.length == 1 && r.isPlainlyFull

def conditionText (r : Relation) (names : List String) : String :=
  if r.isWrittenFull then "true" else disjunctionText r.basics names

theorem relationBody_eq (r : Relation) (names : List String) : relationBody r names =
    if r.isWrittenFull && !(r.space.headText names).isEmpty then r.space.headText names
    else if (r.space.headText names).isEmpty then ": " ++ r.conditionText names
    else r.space.headText names ++ " : " ++ r.conditionText names := rfl

theorem relationBody_of_isParams (h : r.space.isParams = true) (names : List String) :
    relationBody r names = ": " ++ conditionText r names := by
  rw [relationBody_eq, Space.headText_of_isParams h]
  cases r.isWrittenFull <;> rfl

theorem relationBody_of_not_isParams (h : r.space.isParams = false) (names : List String) :
    relationBody r names =
      r.space.tuplesText names ++ restrictionText r.isWrittenFull r.basics names := by
  obtain ⟨hhead, hne⟩ := Space.headText_of_not_isParams h names
  rw [relationBody_eq, hne, hhead, restrictionText, conditionText]
  cases r.isWrittenFull <;> simp [String.append_assoc]

theorem conditionText_spec (fails : Prop) (h : r.Writable) (hF : F.Lists r.space.names)
    (P : Row → Prop) :
    ∃ ls C, Writes (conditionText r r.space.names) ls ∧ Condition fails True F P ls C ∧
      ∀ x : Row, x.length = r.space.total → (C x ↔ x ∈ r) := by
  have hlength := r.space.length_names
  rw [conditionText]
  split
  · rename_i hfull
    simp only [isWrittenFull, isPlainlyFull, Bool.and_eq_true, List.any_eq_true] at hfull
    obtain ⟨-, b, hb, hall⟩ := hfull
    refine ⟨_, _, writes_keyword .always, .single (.single (.plain .always)), fun x hx => ?_⟩
    exact iff_of_true trivial
      ⟨b, hb, mem_of_isPlainlyFull hall (by rw [(h.fits b hb).total, hx, hlength])⟩
  · obtain ⟨ls, C, hls, hC, hiff⟩ := disjunctionText_spec fails hF r.space.nodup_names
      (fun x => Space.isName_of_mem_names h.space.names) h.fits P
    exact ⟨ls, C, hls, hC, fun x hx => hiff x (hx.trans hlength.symm)⟩

theorem Writable.body_spec (h : r.Writable) (fails : Prop)
    (hF : F.Lists (r.space.namesOf r.space.names .param))
    (hP : ∀ x, P x) : ∃ ls s C, Writes (relationBody r r.space.names) ls ∧ Body fails F P ls s C ∧
      r.SaidBy (s, fun x => P (x.take F.size) ∧ C x) := by
  have hparams := h.space.params_eq_of_lists hF
  have hnames : ∀ x ∈ r.space.names, IsName x := fun x => Space.isName_of_mem_names h.space.names
  have hrestriction := fun (G : Frame) (hG : G.Lists r.space.names) (Q : Row → Prop) =>
    restrictionText_spec fails hG r.space.nodup_names hnames h.fits
      (fun hfull : r.isWrittenFull = true => (Bool.and_eq_true_iff.1 hfull).2) Q
  have hpoints : ∀ {C : Row → Prop}, (∀ x : Row, x.length = r.space.names.length →
      (C x ↔ ∃ b ∈ r.basics, x ∈ b)) → ∀ x : Row, x.length = r.space.total → (C x ↔ x ∈ r) :=
    fun hC x hx => hC x (hx.trans r.space.length_names.symm)
  cases hblank : r.space.isParams with
  | true =>
    obtain ⟨hset, hlists, houtput⟩ := h.space.lists_of_isParams hblank hF
    obtain ⟨ls, C, hls, hC, hiff⟩ := conditionText_spec fails h hlists P
    rw [relationBody_of_isParams hblank]
    refine ⟨_, _, C, hls.markBlank .colon (by decide), .params hC, h.wellFormed, fun _ => rfl, ?_,
      fun x hx => ?_⟩
    · exact (Space.agrees_iff _ _).2 ⟨hset, hparams, by rw [houtput]; rfl, .inl hset⟩
    · simp [hP, hiff x hx]
  | false =>
    rw [relationBody_of_not_isParams hblank, Space.tuplesText]
    cases hset : r.space.isSet with
    | true =>
      obtain ⟨ls, t, hls, ht, G, D, hD, hG, hall⟩ := Space.declares_set h.space hset hF
      obtain ⟨ls', C, hls', hsep, hC, hiff⟩ := hrestriction G hG fun x => P (x.take F.size) ∧ D x
      refine ⟨_, _, _, hls.append hls' hsep, .set hD hC, h.wellFormed, Space.proper_ofSet _ _, ?_,
        fun x hx => ?_⟩
      · exact (Space.agrees_iff _ _).2 ⟨hset, hparams, ht, .inl hset⟩
      · simp [hP, hall, hpoints hiff x hx]
    | false =>
      obtain ⟨ls, t, hls, ht, G, D, hD, hallD, ls', t', hls', ht', H, E, hE, hH, hallE⟩ :=
        Space.declares_relation h.space hset hF
      obtain ⟨ls'', C, hls'', hsep, hC, hiff⟩ := hrestriction H hH
        fun x => (P ((x.take G.size).take F.size) ∧ D (x.take G.size)) ∧ E x
      refine ⟨_, _, _, ?_, .relation hD hE hC, h.wellFormed, Space.proper_ofRelation _ _ _, ?_,
        fun x hx => ?_⟩
      · simpa [String.append_assoc] using
          separator_arrow.between hls (hls'.append hls'' hsep)
      · exact (Space.agrees_iff _ _).2 ⟨hset, hparams, ht', .inr ht⟩
      · simp [hP, hallD, hallE, hpoints hiff x hx]

end Bodies

end Relation

theorem Tuple.name_rename (t : Tuple) (name : Label) : (t.rename name).name = name := by
  cases t <;> rfl

namespace Phrase

variable {fails : Prop} {kind : DimKind} {F G : Frame} {P C D : Row → Prop} {ls : List Lexeme}
  {s : Space} {t : Tuple} {x : String}

theorem Shape.name_eq_of_head? (h : Shape kind F ls G t D) (hx : ls.head? = some (.identifier x)) :
    t.name = some x := by
  cases h with
  | unnamed hb =>
    obtain ⟨inner, rfl, -⟩ := hb.inside
    cases hx
  | named =>
    obtain rfl := Option.some.inj hx
    exact Tuple.name_rename _ _

theorem Body.firstName_eq_of_head? (h : Body fails F P ls s C)
    (hx : ls.head? = some (.identifier x)) : s.firstName = some x := by
  cases h with
  | params => cases hx
  | set h | relation h =>
    refine h.name_eq_of_head? ?_
    obtain ⟨l, ls', rfl, -⟩ := h.starts
    exact hx

theorem Bodies.firstName_eq_of_head? {b : Space × (Row → Prop)} {bs : List (Space × (Row → Prop))}
    (h : Bodies fails F P ls (b :: bs)) (hx : ls.head? = some (.identifier x)) :
    b.1.firstName = some x := by
  cases h with
  | last h => exact h.firstName_eq_of_head? hx
  | more h _ =>
    refine h.firstName_eq_of_head? ?_
    obtain ⟨l, ls', rfl, -⟩ := h.starts
    exact hx

end Phrase

theorem Space.firstName_eq_of_agrees {s t : Space} (h : s.agrees t = true) :
    s.firstName = t.firstName := by
  obtain ⟨hset, -, houtput, hinput⟩ := (agrees_iff s t).1 h
  rw [firstName, firstName, ← hset]
  split
  · exact Tuple.name_eq_of_sameShape houtput
  · rename_i hrelation
    exact Tuple.name_eq_of_sameShape (hinput.resolve_left hrelation)

def RelationUnion.bodiesText (u : RelationUnion) : String :=
  "; ".intercalate (u.members.map fun m => relationBody m m.space.names)

namespace RelationUnion

variable {fails : Prop} {F : Frame} {P : Row → Prop}

theorem bodiesText_spec (fails : Prop) {m : Relation} {ms : List Relation}
    (h : ∀ m' ∈ m :: ms, m'.Writable ∧ F.Lists (m'.space.namesOf m'.space.names .param))
    (hP : ∀ x, P x) : ∃ ls bs, Writes (bodiesText ⟨m :: ms⟩) ls ∧ Bodies fails F P ls bs ∧
      List.Forall₂ Relation.SaidBy (m :: ms) bs := by
  induction ms generalizing m with
  | nil =>
    obtain ⟨hm, hF⟩ := h m List.mem_cons_self
    obtain ⟨ls, s, C, hls, hC, hsaid⟩ := hm.body_spec fails hF hP
    exact ⟨ls, _, by simpa [bodiesText] using hls, .last hC, .cons hsaid .nil⟩
  | cons m' ms ih =>
    rw [List.forall_mem_cons] at h
    obtain ⟨ls, s, C, hls, hC, hsaid⟩ := h.1.1.body_spec fails h.1.2 hP
    obtain ⟨ls', bs, hls', hbs, hrest⟩ := ih h.2
    refine ⟨_, _, ?_, .more hC hbs, .cons hsaid hrest⟩
    simpa [bodiesText, String.append_assoc] using separator_semicolon.between hls hls'

inductive Gathered (isSet : Bool) : RelationUnion → Prop
  | empty : Gathered isSet .empty
  | insert {u v : RelationUnion} {r : Relation} (hu : Gathered isSet u) (hr : r.isSet = isSet)
      (hv : u.insert r = .ok v) : Gathered isSet v

structure Varied (isSet : Bool) (ss : List Space) : Prop where
  kind : ∀ s ∈ ss, s.isSet = isSet
  params : ∀ s ∈ ss, ∀ t ∈ ss, s.params = t.params
  apart : ss.Pairwise fun s t => s.agrees t = false

variable {isSet : Bool} {u : RelationUnion}

theorem Gathered.built (h : Gathered isSet u) : Built u := by
  induction h with
  | empty => exact .empty
  | insert _ _ hv ih => exact .insert ih hv

theorem Gathered.varied (h : Gathered isSet u) : Varied isSet u.spaces := by
  refine ⟨?_, h.built.sameParams, h.built.apart⟩
  induction h with
  | empty => exact nofun
  | insert _ hr hv ih =>
    rcases spaces_of_insert hv with hsame | ⟨hnew, -⟩
    · rwa [hsame]
    · rw [hnew, List.forall_mem_append]
      exact ⟨ih, List.forall_mem_singleton.2 hr⟩

end RelationUnion

end Quasiaffine
