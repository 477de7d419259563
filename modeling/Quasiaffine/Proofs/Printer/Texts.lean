import Quasiaffine.Proofs.Printer.Objects
import Quasiaffine.Reader.Basic

set_option autoImplicit false

namespace Quasiaffine

open Reading Phrase Printer

theorem forall₂_trans {α β γ : Type} {R : α → β → Prop} {S : γ → β → Prop} {T : α → γ → Prop}
    {as : List α} {bs : List β} {cs : List γ} (h : List.Forall₂ R as bs) (h' : List.Forall₂ S cs bs)
    (hT : ∀ a b c, R a b → S c b → T a c) : List.Forall₂ T as cs := by
  induction h generalizing cs with
  | nil =>
    cases h'
    exact .nil
  | cons hab _ ih =>
    cases h' with
    | cons hcb hs => exact .cons (hT _ _ _ hab hcb) (ih hs)

section Empty

theorem Grammar.reads_object_empty (fails : Prop) (config : Config) (depth : Nat) :
    Reads fails .empty [.mark .leftBrace, .mark .rightBrace, .endOfInput]
      (Grammar.object config depth) fun o _ _ => o = .union .empty := by
  rw [Grammar.object]
  refine (reads_parameters .none (Nat.zero_le _) _).step fun _ _ => ?_
  refine reads_expectMark.step fun _ _ => reads_next.step fun t ht => ?_
  simp only [ht]
  exact reads_expectEnd.step fun _ _ => reads_pure rfl

theorem Reader.object_braces (config : Config) :
    (Reader.object config "\x7b \x7d").result = .ok (.union .empty) := by
  have hw : Writes (Mark.leftBrace.text ++ (" " ++ Mark.rightBrace.text))
      [.mark .leftBrace, .mark .rightBrace] :=
    (writes_token (l := .mark .rightBrace) (.mark nofun) nofun).markBlank .leftBrace (by decide)
  rcases Grammar.reads_object_empty False config (Reader.depthFor "\x7b \x7d")
    (Reader.initial "\x7b \x7d") rfl (TokenStream.ahead_ofText hw.spells)
    with ⟨o, s, ls, hok, -, rfl⟩ | ⟨hf, -⟩
  · rw [Reader.object, Reader.run, hok]
  · exact hf.elim

end Empty

namespace RelationUnion

variable {isSet : Bool} {m : Relation} {ms : List Relation}

theorem Varied.apart_bodies {bs : List (Space × (Row → Prop))}
    (h : Varied isSet (ms.map (·.space))) (hbs : List.Forall₂ Relation.SaidBy ms bs) :
    Grammar.Apart bs := by
  have hkind : ∀ b ∈ bs, b.1.isSet = isSet := forall_mem_of_forall₂ hbs fun m hm b hb =>
    ((Space.agrees_iff _ _).1 hb.space).1.symm.trans (h.kind _ (List.mem_map_of_mem hm))
  refine ⟨fun b hb b' hb' => (hkind b hb).trans (hkind b' hb').symm, ?_⟩
  refine pairwise_of_forall₂ hbs (List.pairwise_map.1 h.apart) fun m m' b b' hno hb hb' => ?_
  rw [Bool.eq_false_iff] at hno ⊢
  exact fun hagrees => hno (Space.agrees_trans hb.space
    (Space.agrees_trans hagrees (Space.agrees_symm hb'.space)))

theorem read_bodies (config : Config) (hms : ∀ m' ∈ m :: ms, m'.Writable)
    (hvaried : Varied isSet ((m :: ms).map (·.space))) (hsym : m.space.firstName ≠ some "Sym") :
    ∃ o bs, (Reader.object config (m.space.braced m.space.names (bodiesText ⟨m :: ms⟩))).result =
      .ok o ∧ o.Of bs ∧ List.Forall₂ Relation.SaidBy (m :: ms) bs := by
  have hm := (hms m List.mem_cons_self).space
  obtain ⟨header, F, P, hheader, hF, hP, hspells⟩ := Space.braced_spec hm
  have hlists : ∀ m' ∈ m :: ms,
      m'.Writable ∧ F.Lists (m'.space.namesOf m'.space.names .param) := fun m' hm' => by
    refine ⟨hms m' hm', ?_⟩
    rw [Frame.Lists, hF, ← hm.params_eq, ← (hms m' hm').space.params_eq]
    exact hvaried.params _ (List.mem_map_of_mem List.mem_cons_self) _ (List.mem_map_of_mem hm')
  obtain ⟨ls, bs, hls, hbs, hsaid⟩ := bodiesText_spec False hlists hP
  have hhead : ls.head? ≠ some (.identifier "Sym") := by
    cases hsaid with
    | cons hb _ =>
      rw [Space.firstName_eq_of_agrees hb.space] at hsym
      exact fun hx => hsym (hbs.firstName_eq_of_head? hx)
  rcases Reader.object_spec config hheader hbs (hvaried.apart_bodies hsaid) hhead (hspells hls)
    with ⟨o, hok, ho⟩ | ⟨hf, -⟩
  · exact ⟨o, bs, hok, ho, hsaid⟩
  · exact hf.elim

end RelationUnion

/-- The text of a relation is read as a relation over an equal space with the same points. -/
theorem Relation.Writable.read_text {r : Relation} (hr : r.Writable) (config : Config)
    (hsym : r.space.firstName ≠ some "Sym") :
    ∃ r', (Reader.object config r.text).result = .ok (.relation r') ∧ r.SameAs r' := by
  have hvaried : RelationUnion.Varied r.isSet ([r].map (·.space)) :=
    ⟨by simp [Relation.isSet], by simp, List.pairwise_singleton _ _⟩
  obtain ⟨o, bs, hok, ho, hsaid⟩ :=
    RelationUnion.read_bodies config (by simpa using hr) hvaried hsym
  have htext : r.text = r.space.braced r.space.names (RelationUnion.bodiesText ⟨[r]⟩) := by
    simp [Relation.text, RelationUnion.bodiesText]
  cases hsaid with
  | cons hb hrest =>
    cases hrest
    cases ho with
    | relation hr' => exact ⟨_, htext ▸ hok, hb.sameAs hr'⟩
    | union _ hne => exact absurd rfl hne

namespace Reader

/-- The text of a relation, and of a union of sets or of relations, is read as an object of the same
kind over equal spaces with the same points. -/
theorem text_read_back (config : Config) :
    (∀ r : Relation, r.Writable → r.space.firstName ≠ some "Sym" →
      ∃ r', (Reader.object config r.text).result = .ok (.relation r') ∧ r.SameAs r') ∧
    ∀ (isSet : Bool) (u : RelationUnion), u.Gathered isSet → (∀ m ∈ u.members, m.Writable) →
      (∀ m ∈ u.members.head?, m.space.firstName ≠ some "Sym") →
        ∃ u', (Reader.union config u.text).result = .ok u' ∧
          List.Forall₂ Relation.SameAs u.members u'.members := by
  constructor
  · exact fun r hr hsym => hr.read_text config hsym
  · intro isSet u hu hms hsym
    obtain ⟨members⟩ := u
    cases members with
    | nil => exact ⟨.empty, by rw [Reader.union, RelationUnion.text, Reader.Outcome.andThen,
        Reader.object_braces]; rfl, .nil⟩
    | cons m ms =>
      obtain ⟨o, bs, hok, ho, hsaid⟩ :=
        RelationUnion.read_bodies config hms hu.varied (hsym m rfl)
      refine ⟨o.toUnion, ?_, forall₂_trans hsaid ho.members fun _ _ _ h h' => h.sameAs h'⟩
      have htext : RelationUnion.text ⟨m :: ms⟩ =
        m.space.braced m.space.names (RelationUnion.bodiesText ⟨m :: ms⟩) := rfl
      rw [Reader.union, htext, Reader.Outcome.andThen, hok]

def evenAtThirds : Relation :=
  let space := Space.ofSet [some "n"] (.flat (some "S") [some "x"])
  let ls : LocalSpace := ⟨space, ⟨6, [[2, 0, 0, 1, 0, 0], [0, 0, 0, 0, 0, 0]]⟩⟩
  ⟨space, [⟨ls, [⟨[0, 0, 1, -2, 0], .equality⟩, ⟨[0, 1, 0, 0, -3], .equality⟩], false⟩]⟩

example : evenAtThirds.text =
    "[n] -> \x7b S[x] : exists (e0 : x = 2*[(x)/2] and n = 3e0) \x7d" := by rfl

def evenAtThirdsAndOne : RelationUnion :=
  ⟨[evenAtThirds, .full (.ofSet [some "n"] (.flat (some "T") []))]⟩

theorem writable_evenAtThirds : evenAtThirds.Writable where
  space := {
    proper := fun _ => rfl
    params := ⟨["n"], by decide, rfl⟩
    names := by
      intro x hx
      simp [evenAtThirds, Space.ofSet, Tuple.unit, Tuple.ids] at hx
      rcases hx with rfl | rfl <;> rfl
    input := fun h => absurd h (by decide)
    output := by
      rintro x ⟨⟩
      exact .inl rfl
    flat := fun h => absurd h (by decide) }
  wellFormed := by
    refine ⟨fun _ => rfl, List.forall_mem_singleton.2
      ⟨⟨⟨rfl, by simp [Matrix.Rectangular], fun k => ?_⟩, by decide, by decide⟩, fun _ => rfl, rfl⟩⟩
    obtain hk | hk := Nat.lt_or_ge k 2
    · revert k
      decide
    · rw [Matrix.row, List.getD_eq_default _ _ hk, List.drop_nil]
      rfl
  consistent := by simp [evenAtThirds]

theorem mem_evenAtThirds {n x : ℤ} :
    [n, x] ∈ evenAtThirds ↔ x = 2 * (x / 2) ∧ ∃ k, n = 3 * k := by
  have hbasic := List.forall_mem_singleton.1 writable_evenAtThirds.wellFormed.basics
  have hiff : (x + -(2 * (x / 2)) = 0 ∧ ∃ k, n + -(3 * k) = 0) ↔ x = 2 * (x / 2) ∧ ∃ k, n = 3 * k :=
    and_congr (by omega) (exists_congr fun k => by omega)
  rw [Relation.mem_iff]
  simp only [evenAtThirds, List.mem_singleton, exists_eq_left]
  rw [BasicRelation.mem_iff_assigned hbasic.wellFormed rfl rfl]
  simpa [LocalSpace.unknownCount, LocalSpace.assigned, Division.isKnown, Division.value,
    BasicRelation.isDivBound, Constraint.isInequality, Row.entry, Constraint.isSatisfied,
    ConstraintKind.admits, List.length_eq_one_iff, Int.fdiv_eq_ediv_of_nonneg] using hiff

theorem text_read_back_evenAtThirds : evenAtThirds.Writable ∧ evenAtThirdsAndOne.Gathered true ∧
    (∃ r, (object {} evenAtThirds.text).result = .ok (.relation r) ∧
      [6, 4] ∈ r ∧ [6, 3] ∉ r ∧ [5, 4] ∉ r) ∧
    ∃ u, (union {} evenAtThirdsAndOne.text).result = .ok u ∧ u.size = 2 := by
  have hone : (Relation.full (.ofSet [some "n"] (.flat (some "T") []))).Writable := by
    refine ⟨⟨fun _ => rfl, ⟨["n"], by decide, rfl⟩, ?_, nofun, ?_, nofun⟩,
      Relation.wellFormed_full fun _ => rfl, by decide⟩
    · intro x hx
      simp [Relation.full, Space.ofSet, Tuple.unit, Tuple.ids] at hx
      subst hx
      rfl
    · rintro x ⟨⟩
      exact .inl rfl
  have hgathered : evenAtThirdsAndOne.Gathered true := by
    refine .insert (.insert .empty (r := evenAtThirds) rfl rfl)
      (r := .full (.ofSet [some "n"] (.flat (some "T") []))) rfl rfl
  obtain ⟨hrelation, hunion⟩ := text_read_back {}
  refine ⟨writable_evenAtThirds, hgathered, ?_, ?_⟩
  · obtain ⟨r, hok, -, hr⟩ := hrelation evenAtThirds writable_evenAtThirds (by decide)
    refine ⟨r, hok, ?_, ?_, ?_⟩ <;> rw [hr, mem_evenAtThirds]
    · exact ⟨by decide, 2, rfl⟩
    · rintro ⟨h, -⟩
      revert h
      decide
    · rintro ⟨-, k, hk⟩
      omega
  · obtain ⟨u, hok, hu⟩ := hunion true evenAtThirdsAndOne hgathered
      (by simpa [evenAtThirdsAndOne] using ⟨writable_evenAtThirds, hone⟩) (by decide)
    exact ⟨u, hok, hu.length_eq.symm⟩

end Reader

end Quasiaffine
