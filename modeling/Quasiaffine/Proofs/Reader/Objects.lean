import Quasiaffine.Proofs.Reader.Bodies
import Quasiaffine.Proofs.Relation.Members

set_option autoImplicit false

namespace Quasiaffine

open Reading

namespace Object

inductive Of : Object → List (Space × (Row → Prop)) → Prop
  | relation {r : Relation} {s : Space} {C : Row → Prop} (h : r.Over s C) :
      Of (.relation r) [(s, C)]
  | union {u : RelationUnion} {bs : List (Space × (Row → Prop))}
      (h : List.Forall₂ (fun r b => r.Over b.1 b.2) u.members bs) (hbs : bs.length ≠ 1) :
      Of (.union u) bs

variable {o : Object} {bs : List (Space × (Row → Prop))} {r : Relation} {s : Space}
  {C : Row → Prop}

theorem Of.members (h : o.Of bs) : List.Forall₂ (fun r b => r.Over b.1 b.2) o.toUnion.members bs := by
  cases h with
  | relation h => exact .cons h .nil
  | union h _ => exact h

theorem Of.insert_eq_ok (ho : o.Of bs) (hr : r.Over s C) (hne : bs ≠ [])
    (hkind : ∀ b ∈ bs, b.1.isSet = s.isSet) (hparams : ∀ b ∈ bs, b.1.params = s.params)
    (hspaces : ∀ b ∈ bs, b.1.agrees s = false) (span : Span) :
    ∃ o', o.insert r span = .ok o' ∧ o'.Of (bs ++ [(s, C)]) := by
  have hall : ∀ Q : Space → Prop, (∀ b ∈ bs, Q b.1) → ∀ m ∈ o.toUnion.members, Q m.space := by
    intro Q hQ m hm
    obtain ⟨b, hb, hmb⟩ := exists_mem_of_forall₂ ho.members hm
    exact hmb.space ▸ hQ b hb
  have hno : o.isSet?.any (· != r.isSet) = false := by
    have hset := hall (fun t => t.isSet = s.isSet) hkind
    rw [← hr.space] at hset
    cases ho with
    | relation h => simpa [isSet?, Relation.isSet, toUnion, RelationUnion.ofRelation] using hset
    | @union u bs h =>
      rw [isSet?]
      cases hu : u.members with
      | nil => rfl
      | cons m ms =>
        have hm := hset m (by simp [toUnion, hu])
        simp [Relation.isSet, hm]
  have hdiffer := hall (fun t => t.agrees s = false) hspaces
  have hequal := hall (fun t => t.params = s.params) hparams
  rw [← hr.space] at hdiffer hequal
  have hnew : List.Forall₂ (fun r b => r.Over b.1 b.2) (o.toUnion.members ++ [r])
      (bs ++ [(s, C)]) := List.rel_append ho.members (.cons hr .nil)
  have hlength : (bs ++ [(s, C)]).length ≠ 1 := by
    simp [hne]
  -- No member lies in an agreeing space, so uniting with one is out of the question.
  have hunion : o.toUnion.insert r = .ok ⟨o.toUnion.members ++ [r]⟩ :=
    RelationUnion.insert_eq_ok_iff.2 ⟨fun m hm => hequal m (List.mem_of_mem_head? hm),
      RelationUnion.insertMember_of_apart hdiffer⟩
  refine ⟨.union ⟨o.toUnion.members ++ [r]⟩, ?_, .union hnew hlength⟩
  cases ho with
  | @relation q s C h =>
    have hq : q.space.agrees r.space = false :=
      hdiffer q (by simp [toUnion, RelationUnion.ofRelation])
    simp only [insert, hno, Bool.false_eq_true, if_false, hq]
    rw [show (RelationUnion.ofRelation q).insert r = _ from hunion]
    rfl
  | @union u bs h =>
    simp only [insert, hno, Bool.false_eq_true, if_false]
    rw [show u.insert r = _ from hunion]
    rfl

end Object

namespace Phrase

inductive Bodies (fails : Prop) (F : Frame) (P : Row → Prop) :
    List Lexeme → List (Space × (Row → Prop)) → Prop
  | last {ls : List Lexeme} {s : Space} {C : Row → Prop} (h : Body fails F P ls s C) :
      Bodies fails F P ls [(s, fun x => P (x.take F.size) ∧ C x)]
  | more {ls ls' : List Lexeme} {s : Space} {C : Row → Prop} {bs : List (Space × (Row → Prop))}
      (h : Body fails F P ls s C) (hs : Bodies fails F P ls' bs) :
      Bodies fails F P (ls ++ .mark .semicolon :: ls')
        ((s, fun x => P (x.take F.size) ∧ C x) :: bs)

inductive Header : List Lexeme → Frame → (Row → Prop) → Prop
  | none : Header [] ⟨0, .empty, Nat.le_refl 0⟩ fun _ => True
  | params {G : Frame} {ls : List Lexeme} {t : Tuple} {D : Row → Prop}
      (h : Bracketed .param ⟨0, .empty, Nat.le_refl 0⟩ ls G t D) :
      Header (ls ++ [.mark .arrow]) G D

variable {fails : Prop} {F : Frame} {P C : Row → Prop} {ls : List Lexeme} {s : Space}
  {bs : List (Space × (Row → Prop))}

theorem Body.params_eq (h : Body fails F P ls s C) : s.params = F.scope.names := by
  cases h <;> rfl

theorem Body.starts (h : Body fails F P ls s C) :
    ∃ l ls', ls = l :: ls' ∧ l.kind ≠ .mark .rightBrace := by
  have hshape : ∀ {l : Lexeme}, l = .mark .leftBracket ∨ Grammar.mayNameTuple l = true →
      l.kind ≠ .mark .rightBrace := by
    intro l hl hk
    rw [Lexeme.eq_mark_of_kind hk] at hl
    simp [Grammar.mayNameTuple] at hl
  cases h with
  | params => exact ⟨_, _, rfl, fun hk => by cases hk⟩
  | set h | relation h =>
    obtain ⟨l, ls', rfl, hl⟩ := h.starts
    exact ⟨l, _, rfl, hshape hl⟩

theorem Bodies.starts (h : Bodies fails F P ls bs) :
    ∃ l ls', ls = l :: ls' ∧ l.kind ≠ .mark .rightBrace := by
  cases h with
  | last h => exact h.starts
  | more h _ =>
    obtain ⟨l, ls', rfl, hl⟩ := h.starts
    exact ⟨l, _, rfl, hl⟩

theorem Header.params_eq (h : Header ls F P) : F.params = F.size := by
  cases h with
  | none => rfl
  | params h => exact ((h.grows (.inr ⟨rfl, rfl⟩)).admits (.inr ⟨rfl, rfl⟩)).elim nofun And.right

end Phrase

namespace Grammar

open Phrase

variable {fails : Prop} {F : Frame} {P C : Row → Prop} {ls : List Lexeme} {set : Relation}
  {depth : Nat} {bs : List (Space × (Row → Prop))}

theorem reads_parameters (h : Header ls F P) (hd : 32 * ls.length ≤ depth) (rest : List Lexeme) :
    Reads fails .empty (ls ++ .mark .leftBrace :: rest) (parameters depth)
      (Gives (F.Means False · P) F.scope (.mark .leftBrace :: rest)) := by
  have hfull : Frame.Means ⟨0, .empty, Nat.le_refl 0⟩ False (Relation.full (.ofParams []))
      fun _ => True :=
    ⟨Relation.describes_full fun _ => rfl, .inr (Relation.known_full _)⟩
  cases h with
  | none =>
    refine reads_nextIs.step fun b hb => ?_
    subst hb
    exact reads_pure (gives hfull)
  | @params G ls t D h =>
    rw [List.length_append] at hd
    rw [List.append_assoc]
    have htuple : Reads fails .empty (ls ++ .mark .arrow :: .mark .leftBrace :: rest)
        (tuple depth .param (.full (.ofParams []))) _ :=
      reads_tuple (.unnamed h) (.inr ⟨rfl, rfl⟩) hfull (by omega) (by decide) _
    obtain ⟨inner, rfl, -⟩ := h.inside
    refine reads_nextIs.step fun b hb => ?_
    subst hb
    rw [if_pos (by rfl)]
    refine htuple.step fun shaped hshaped => reads_expectMark.step fun _ _ => ?_
    exact reads_pure (gives (hshaped.2.congr fun x _ => by simp))

theorem reads_expectEnd {sc : Scope} :
    Reads fails sc [.endOfInput] expectEnd (Gives (fun _ => True) sc []) := by
  refine reads_next.step fun t ht => ?_
  simp only [Token.isEnd, Token.kind, ht, Lexeme.kind, beq_self_eq_true, Bool.not_true,
    Bool.false_eq_true, if_false]
  exact reads_pure (gives trivial)

structure Apart (bs : List (Space × (Row → Prop))) : Prop where
  kind : ∀ b ∈ bs, ∀ b' ∈ bs, b.1.isSet = b'.1.isSet
  spaces : bs.Pairwise fun b b' => b.1.agrees b'.1 = false

theorem Apart.between {done : List (Space × (Row → Prop))} {b : Space × (Row → Prop)}
    (h : Apart (done ++ b :: bs)) :
    (∀ a ∈ done, a.1.isSet = b.1.isSet) ∧ ∀ a ∈ done, a.1.agrees b.1 = false :=
  ⟨fun a ha => h.kind a (List.mem_append_left _ ha) b (by simp),
    fun a ha => (List.pairwise_append.1 h.spaces).2.2 a ha b List.mem_cons_self⟩

section Bodies

variable {done : List (Space × (Row → Prop))} {o : Object}

theorem reads_ahead (fails : Prop) (sc : Scope)
    (h : ∃ l ls', ls = l :: ls' ∧ l.kind ≠ .mark .rightBrace) (rest : List Lexeme) :
    Reads fails sc (ls ++ rest) (nextIsMark .rightBrace) (Gives (· = false) sc (ls ++ rest)) ∧
      Reads fails sc (ls ++ rest) peek (Gives (fun _ => True) sc (ls ++ rest)) := by
  obtain ⟨l, ls, rfl, hl⟩ := h
  exact ⟨reads_nextIs.congr fun b hb => by rw [hb, beq_false_of_ne hl],
    reads_peek.congr fun _ _ => trivial⟩

theorem reads_insert {s : Space} {k : Object → Reading Object}
    {post : Object → Scope → List Lexeme → Prop} (config : Config)
    (h : Body fails F P ls s C) (hF : F.params = F.size) (hset : F.Means False set P)
    (ho : o.Of done) (hne : done ≠ []) (hparams : ∀ b ∈ done, b.1.params = F.scope.names)
    (hkind : ∀ b ∈ done, b.1.isSet = s.isSet) (hspaces : ∀ b ∈ done, b.1.agrees s = false)
    (hd : 32 * ls.length + 11 ≤ depth) {r : Lexeme}
    (hr : r ∈ [.mark .semicolon, .mark .rightBrace]) (rest : List Lexeme)
    (hk : ∀ o, Object.Of o (done ++ [(s, fun x => P (x.take F.size) ∧ C x)]) →
      Reads fails F.scope (r :: rest) (k o) post) :
    Reads fails F.scope (ls ++ r :: rest) (do
      if ← nextIsMark .rightBrace then return o
      let start ← peek
      let next ← body config depth set
      k (← check (o.insert next start.span))) post := by
  have hahead := reads_ahead fails F.scope h.starts (r :: rest)
  refine hahead.1.step fun b hb => ?_
  subst hb
  refine hahead.2.step fun start _ => ?_
  refine (reads_body config h hF hset hd hr rest).step fun q hq => ?_
  obtain ⟨o', hok, ho'⟩ := ho.insert_eq_ok hq hne hkind
    (fun b hb => (hparams b hb).trans h.params_eq.symm) hspaces start.span
  exact (reads_check (P := (Object.Of · _)) hok ho').step hk

theorem reads_moreBodies_end {sc : Scope} (config : Config) (ho : o.Of done) (hd : 0 < depth)
    (rest : List Lexeme) :
    Reads fails sc (.mark .rightBrace :: rest) (moreBodies config set depth o)
      (Gives (·.Of done) sc (.mark .rightBrace :: rest)) := by
  obtain ⟨depth, rfl⟩ := Nat.exists_eq_succ_of_ne_zero (n := depth) (by omega)
  rw [moreBodies]
  refine Reads.enter_bind ((reads_eatIf_not (by decide)).step fun b hb => ?_)
  subst hb
  exact reads_pure (gives ho)

theorem reads_moreBodies (config : Config) (h : Bodies fails F P ls bs) (hF : F.params = F.size)
    (hset : F.Means False set P) (ho : o.Of done) (hne : done ≠ [])
    (hparams : ∀ b ∈ done, b.1.params = F.scope.names) (hapart : Apart (done ++ bs))
    (hd : 32 * ls.length + 12 ≤ depth) (rest : List Lexeme) :
    Reads fails F.scope (.mark .semicolon :: (ls ++ .mark .rightBrace :: rest))
      (moreBodies config set depth o)
      (Gives (·.Of (done ++ bs)) F.scope (.mark .rightBrace :: rest)) := by
  induction h generalizing done o depth with
  | @last ls s C h =>
    obtain ⟨depth, rfl⟩ := Nat.exists_eq_succ_of_ne_zero (n := depth) (by omega)
    rw [moreBodies]
    refine Reads.enter_bind ((reads_eatIf rfl).step fun b hb => ?_)
    subst hb
    refine reads_insert config h hF hset ho hne hparams hapart.between.1 hapart.between.2
      (by omega) (by decide) rest fun o' ho' => ?_
    exact reads_moreBodies_end config ho' (by omega) rest
  | @more ls ls' s C bs h hs ih =>
    rw [List.length_append, List.length_cons] at hd
    obtain ⟨depth, rfl⟩ := Nat.exists_eq_succ_of_ne_zero (n := depth) (by omega)
    rw [moreBodies, List.append_assoc]
    refine Reads.enter_bind ((reads_eatIf rfl).step fun b hb => ?_)
    subst hb
    refine reads_insert config h hF hset ho hne hparams hapart.between.1 hapart.between.2
      (by omega) (by decide) _ fun o' ho' => ?_
    rw [List.append_cons] at hapart ⊢
    refine ih ho' (by simp) (fun b hb => ?_) hapart (by omega)
    rcases List.mem_append.1 hb with hb | hb
    · exact hparams b hb
    · rw [List.mem_singleton.1 hb]
      exact h.params_eq

theorem reads_bodies (config : Config) (h : Bodies fails F P ls bs) (hF : F.params = F.size)
    (hset : F.Means False set P) (hapart : Apart bs) (hd : 32 * ls.length + 12 ≤ depth) :
    Reads fails F.scope (ls ++ [.mark .rightBrace, .endOfInput]) (bodies config depth set)
      fun o _ _ => o.Of bs := by
  have hend : ∀ o : Object, o.Of bs → Reads fails F.scope [.mark .rightBrace, .endOfInput] (do
      expectMark .rightBrace
      expectEnd
      return o) fun o _ _ => o.Of bs :=
    fun o ho => reads_expectMark.step fun _ _ => reads_expectEnd.step fun _ _ => reads_pure ho
  rw [bodies]
  cases h with
  | last h =>
    refine (reads_body config h hF hset (by omega) (by decide) _).step fun first hfirst => ?_
    refine (reads_moreBodies_end config (.relation hfirst) (by omega) _).step fun o ho => ?_
    exact hend o ho
  | more h hs =>
    rw [List.length_append, List.length_cons] at hd
    rw [List.append_assoc]
    refine (reads_body config h hF hset (by omega) (by decide) _).step fun first hfirst => ?_
    refine (reads_moreBodies config hs hF hset (.relation hfirst) (by simp)
      (by simpa using h.params_eq) hapart (by omega) _).step fun o ho => hend o ho

end Bodies

/-- A tuple named `Sym` cannot be the first one of a text. -/
theorem reads_object (config : Config) {header : List Lexeme} (hh : Header header F P)
    (h : Bodies fails F P ls bs) (hapart : Apart bs) (hsym : ls.head? ≠ some (.identifier "Sym"))
    (hd : 32 * (header.length + ls.length) + 12 ≤ depth) :
    Reads fails .empty (header ++ .mark .leftBrace :: (ls ++ [.mark .rightBrace, .endOfInput]))
      (object config depth) fun o _ _ => o.Of bs := by
  rw [object]
  refine (reads_parameters hh (by omega) _).step fun set hset => reads_expectMark.step fun _ _ => ?_
  have hbodies : Reads fails F.scope _ (bodies config depth set) fun o _ _ => o.Of bs :=
    reads_bodies config h hh.params_eq hset hapart (by omega)
  obtain ⟨l, ls₀, rfl, hl⟩ := h.starts
  refine reads_next.step fun t ht => ?_
  obtain rfl := ht
  split
  · rename_i hname
    exact absurd (by simp [hname]) hsym
  · rename_i hbrace
    rw [hbrace] at hl
    exact absurd rfl hl
  · exact (reads_push t).step fun _ _ => hbodies

end Grammar

namespace Reader

open Phrase

variable {fails : Prop} {F : Frame} {P : Row → Prop} {header ls : List Lexeme}
  {bs : List (Space × (Row → Prop))} {source : String}

theorem run_spec {α : Type} {production : Nat → Reading α} {post : α → Prop}
    (hs : Spells source.toList ls)
    (h : ∀ depth, 32 * ls.length ≤ depth →
      Reads fails .empty ls (production depth) fun a _ _ => post a) :
    (∃ a, (run source production).result = .ok a ∧ post a) ∨ fails ∧
      (run source production).result = .error (.error (.unsupported .subtractingQuantified)) := by
  -- What an action does with the tokens of a text, it does with the text. The length of
  -- the text bounds how many there are.
  have hlength := hs.length_le
  have hd : 32 * ls.length ≤ depthFor source := by
    rw [depthFor]
    have hsource : source.toList.length = source.length := String.length_toList
    omega
  rcases h _ hd (initial source) rfl (TokenStream.ahead_ofText hs) with
    ⟨a, s, ls', hok, -, ha⟩ | ⟨hf, s, herr⟩
  · exact .inl ⟨a, by rw [run, hok], ha⟩
  · exact .inr ⟨hf, by rw [run, herr]⟩

/-- The tokens of a text are read as what they mean, or the reader would have to subtract a
quantified relation. -/
theorem object_spec (config : Config) (hh : Header header F P) (h : Bodies fails F P ls bs)
    (hapart : Grammar.Apart bs) (hsym : ls.head? ≠ some (.identifier "Sym"))
    (hs : Spells source.toList
      (header ++ .mark .leftBrace :: (ls ++ [.mark .rightBrace, .endOfInput]))) :
    (∃ o, (object config source).result = .ok o ∧ o.Of bs) ∨ fails ∧
      (object config source).result = .error (.error (.unsupported .subtractingQuantified)) := by
  refine run_spec hs fun depth hd => Grammar.reads_object config hh h hapart hsym ?_
  simp only [List.length_append, List.length_cons, List.length_nil] at hd
  omega

end Reader

end Quasiaffine
