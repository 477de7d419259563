import Quasiaffine.Proofs.Parse.Pieces
import Quasiaffine.Proofs.Reader.Termination
import Quasiaffine.Proofs.Safety.Formulas

set_option autoImplicit false

namespace Quasiaffine

structure Relation.HasParams (names : List Label) (r : Relation) : Prop where
  params : r.space.params = names
  proper : r.space.Proper
  basics : ∀ b ∈ r.basics, r.space.total = b.space.total

section Unions

variable {names : List Label} {a b r : Relation}

theorem Relation.HasParams.sure_union (ha : a.HasParams names) (hb : b.HasParams names)
    (hs : a.space.agrees b.space = true) : Sure (HasParams names) (a.union b) := by
  have hreset : Sure (fun bs => ∀ q ∈ bs, q.space = a.space)
      (b.basics.mapM (·.resetSpace a.space)) := sure_mapM fun q hq => by
    obtain ⟨q', hok, hspace, -⟩ := BasicRelation.resetSpace_eq_ok
      ((Space.total_eq_of_agrees hs ha.proper hb.proper).trans (hb.basics q hq))
    exact sure_of_eq_ok ⟨q', hok, hspace⟩
  rw [union, requireSameSpace_eq_ok hs]
  refine hreset.bind fun bs hbs => ?_
  have hspace : (a.insertAll bs).space = a.space := space_insertAll a bs
  refine ⟨hspace ▸ ha.params, hspace ▸ ha.proper, fun q hq => ?_⟩
  rw [hspace]
  rcases mem_basics_insertAll hq with hq | hq
  · exact ha.basics q hq
  · exact congrArg Space.total (hbs q hq.1).symm

theorem RelationUnion.sure_insertMember (hr : r.HasParams names) {ms : List Relation}
    (hms : ∀ m ∈ ms, m.HasParams names) :
    Sure (fun ms => ∀ m ∈ ms, m.HasParams names) (insertMember r ms) := by
  induction ms with
  | nil => exact List.forall_mem_singleton.2 hr
  | cons m ms ih =>
    rw [List.forall_mem_cons] at hms
    rw [insertMember]
    split
    · exact (hms.1.sure_union hr ‹_›).bind fun _ h => List.forall_mem_cons.2 ⟨h, hms.2⟩
    · exact (ih hms.2).bind fun _ h => List.forall_mem_cons.2 ⟨hms.1, h⟩

theorem RelationUnion.sure_insert {u : RelationUnion} (hu : ∀ m ∈ u.members, m.HasParams names)
    (hr : r.HasParams names) :
    Sure (fun u : RelationUnion => ∀ m ∈ u.members, m.HasParams names) (u.insert r) := by
  have hinsert : Sure (fun u : RelationUnion => ∀ m ∈ u.members, m.HasParams names) (do
      return ⟨← insertMember r u.members⟩) :=
    (sure_insertMember hr hu).bind fun _ h => h
  rw [RelationUnion.insert]
  split
  · exact hinsert
  · rename_i first hfirst
    have hparams : (first.space.params == r.space.params) = true := by
      rw [(hu first (List.mem_of_mem_head? hfirst)).params, hr.params, beq_self_eq_true]
    rw [require, if_pos hparams]
    exact hinsert

def Object.HasParams (names : List Label) : Object → Prop
  | relation r => r.HasParams names
  | union u => ∀ m ∈ u.members, m.HasParams names

theorem Object.sure_insert {o : Object} (ho : o.HasParams names) (hr : r.HasParams names)
    (span : Span) : Sure (HasParams names) (o.insert r span) := by
  simp only [Object.insert]
  split
  · exact trivial
  · cases o with
    | relation s =>
      dsimp only
      split
      · exact (Relation.HasParams.sure_union ho hr ‹_›).bind fun _ h => h
      · exact (RelationUnion.sure_insert (List.forall_mem_singleton.2 ho) hr).bind fun _ h => h
    | union u => exact (RelationUnion.sure_insert ho hr).bind fun _ h => h

end Unions

namespace Grammar

open Reading

variable {F : Frame} {kind : DimKind} {set : Relation}

section Tuples

theorem safe_startsTuple : Safe F .plain startsTuple (Returns F fun _ => True) := by
  refine (safe_tokens (TokenStream.Safe.lookingAhead (Q := fun _ _ => True) ?_)).mono
    fun _ _ _ h => ⟨h.2, h.1, trivial⟩
  refine TokenStream.safe_next.bind ?_
  rintro t _ -
  split
  · exact TokenStream.safe_pure trivial
  · split
    · exact Ends.mono TokenStream.safe_nextIs (fun _ hs => hs)
        (fun _ _ ⟨front, _, hs⟩ => ⟨front, trivial, hs⟩) fun _ _ he => he
    · exact TokenStream.safe_pure trivial

theorem safe_arrowBehind (depth nesting : Nat) :
    TokenStream.Safe F .plain (arrowBehind depth nesting) fun _ _ => True := by
  induction depth generalizing nesting with
  | zero => exact TokenStream.safe_pure trivial
  | succ depth ih =>
    refine TokenStream.safe_next.bind ?_
    rintro t _ ⟨-, rfl⟩
    split
    · exact ih _
    · split
      · exact TokenStream.safe_nextIs.bind fun _ _ _ => TokenStream.safe_pure trivial
      · exact ih _
    · exact TokenStream.safe_pure trivial
    · exact ih _

theorem safe_startsRelation (depth : Nat) :
    Safe F .plain (startsRelation depth) (Returns F fun _ => True) := by
  refine safe_startsTuple.then fun b _ => ?_
  split
  · refine (safe_tokens (safe_arrowBehind depth 0).lookingAhead).bind ?_
    rintro found G _ ⟨rfl, rfl⟩
    split
    · exact safe_returns trivial
    · exact safe_exhausted
  · exact safe_returns trivial

theorem safe_freshName? (t : Token) : Safe F .plain (freshName? t) (Returns F fun _ => True) := by
  rw [freshName?]
  split
  · exact .position?_bind (safe_returns trivial)
  · exact safe_returns trivial

def Grown (kind : DimKind) (F : Frame) (n : Nat) (set : Relation) (G : Frame) (front : Front) :
    Prop := Frame.Grows kind F G n ∧ front = .plain ∧ set.LiesOver G

theorem safe_item (depth : Nat) (hF : F.Admits kind) {read : Items} (hread : read.set.LiesOver F)
    {t : Token} (ht : t.lexeme.isPlaceholder = false) :
    Safe F .plain (item depth kind read t) fun r G front => Grown kind F 1 r.set G front ∧
      r.labels.length = read.labels.length + 1 := by
  have hsize : ∀ label, F.size < (F.declareAs kind label).size := fun label => by
    rw [Frame.size_declareAs]
    exact Nat.lt_succ_self _
  have hgrown : ∀ {label : Label} {set : Relation}, set.LiesOver (F.declareAs kind label) →
      ∀ name : Label, Grown kind F 1 set (F.declareAs kind label) .plain ∧
        (read.labels ++ [name]).length = read.labels.length + 1 := fun h name =>
    ⟨⟨Frame.grows_declareAs hF _, rfl, h⟩, List.length_append⟩
  rw [item]
  refine (safe_freshName? t).then fun name _ => ?_
  split
  · rename_i x
    refine .declare_bind (G := F.declareAs kind (some x)) Frame.scope_declareAs.symm
      (.check_bind (hread.sure_addDim hF (some x)) fun set hset => .eatIf_bind ?_ ?_)
    · exact ((steady depth).definition hset (hsize _)).of_any.then fun _ h =>
        safe_pure (hgrown h _)
    · exact safe_pure (hgrown hset _)
  · split
    · split
      · exact safe_stop trivial
      · exact safe_stop trivial
    · exact .push_bind .plain ht (.declare_bind (G := F.declareAs kind none)
        Frame.scope_declareAs.symm (.check_bind (hread.sure_addDim hF none) fun set hset =>
          ((steady depth).definition hset (hsize _)).of_any.then fun _ h =>
            safe_pure (hgrown h _)))

theorem safe_items (depth : Nat) (hF : F.Admits kind) (read : Items)
    (hread : read.set.LiesOver F) : Safe F .plain (items depth kind read) fun r G front =>
      ∃ n, Grown kind F n r.set G front ∧ r.labels.length = read.labels.length + n := by
  induction depth generalizing F read with
  | zero => exact safe_exhausted
  | succ depth ih =>
    rw [items]
    refine .enter_bind (.next_bind fun t ht => (safe_item depth hF hread ht).bind ?_)
    rintro read' G _ ⟨⟨hgrows, rfl, hread'⟩, hlabels⟩
    have hmore : Safe G .plain (items depth kind read') fun r H front =>
        ∃ n, Grown kind F n r.set H front ∧ r.labels.length = read.labels.length + n := by
      refine (ih (hgrows.admits hF) read' hread').mono ?_
      rintro r H front ⟨n, ⟨hn, hfront, hr⟩, hlength⟩
      exact ⟨_, ⟨hgrows.trans hn, hfront, hr⟩, by omega⟩
    have hlast : Safe G .plain (pure read') fun r H front =>
        ∃ n, Grown kind F n r.set H front ∧ r.labels.length = read.labels.length + n :=
      safe_pure ⟨1, ⟨hgrows, rfl, hread'⟩, hlabels⟩
    refine .next_bind fun behind hb => ?_
    split
    · exact hmore
    · split
      · exact .push_bind .plain hb hlast
      · refine .nextIs_bind fun b => ?_
        split
        · exact .next_bind fun _ _ => hmore
        · exact .push_bind .plain hb hlast

section Parts

variable {depth : Nat} {name : Label}

theorem safe_closeTuple {G : Frame} {shaped : Shaped}
    (h : Grown kind F shaped.tuple.size shaped.set G .plain) :
    Safe G .plain (closeTuple name shaped) fun r => Grown kind F r.tuple.size r.set := by
  refine .expectMark_bind (safe_pure ?_)
  rwa [Tuple.size, Tuple.ids_rename]

theorem safe_insideTuple
    (htuple : ∀ {F : Frame} {set : Relation}, F.Admits kind → set.LiesOver F →
      Safe F .plain (tuple depth kind set) fun r => Grown kind F r.tuple.size r.set)
    (hF : F.Admits kind) (hset : set.LiesOver F) (wraps : Bool) :
    Safe F .plain (insideTuple depth kind set name wraps) fun r =>
      Grown kind F r.tuple.size r.set := by
  refine .nextIs_bind fun closes => ?_
  split
  · refine (htuple hF hset).bind ?_
    rintro domain G _ ⟨hG, rfl, hdomain⟩
    refine .expectMark_bind ((htuple (hG.admits hF) hdomain).bind ?_)
    rintro range H _ ⟨hH, rfl, hrange⟩
    refine safe_closeTuple ⟨?_, rfl, hrange⟩
    rw [Tuple.size, Tuple.wrap, Tuple.ids, List.length_append]
    exact hG.trans hH
  · split
    · exact safe_closeTuple ⟨.refl kind F, rfl, hset⟩
    · refine (safe_items depth hF ⟨set, []⟩ hset).bind ?_
      rintro read G _ ⟨n, ⟨hn, rfl, hread⟩, hlength⟩
      rw [List.length_nil, Nat.zero_add] at hlength
      exact safe_closeTuple ⟨by rwa [Tuple.size, Tuple.ids, hlength], rfl, hread⟩

theorem safe_openTuple
    (htuple : ∀ {F : Frame} {set : Relation}, F.Admits kind → set.LiesOver F →
      Safe F .plain (tuple depth kind set) fun r => Grown kind F r.tuple.size r.set)
    (hF : F.Admits kind) (hset : set.LiesOver F) (opening : Token) :
    Safe F .plain (openTuple depth kind set name opening) fun r =>
      Grown kind F r.tuple.size r.set := by
  rw [openTuple]
  split
  · exact safe_stop trivial
  · split
    · exact safe_insideTuple htuple hF hset false
    · exact (safe_startsRelation depth).then fun wraps _ => safe_insideTuple htuple hF hset wraps

end Parts

theorem safe_tuple (depth : Nat) (hF : F.Admits kind) (hset : set.LiesOver F) :
    Safe F .plain (tuple depth kind set) fun r => Grown kind F r.tuple.size r.set := by
  induction depth generalizing F set with
  | zero => exact safe_exhausted
  | succ depth ih =>
    rw [tuple_succ]
    refine .enter_bind (.next_bind fun t _ => ?_)
    split
    · exact .next_bind fun opening _ => safe_openTuple ih hF hset opening
    · exact safe_openTuple ih hF hset t

end Tuples

section Bodies

variable {params : Relation} {depth : Nat}

theorem safe_optionalCondition (hset : set.LiesOver F) :
    Safe F .plain (optionalCondition depth set) (Returns F (Relation.LiesOver F)) := by
  refine .next_bind fun t ht => ?_
  split
  · exact ((steady depth).condition hset).of_any
  · exact .push_bind .plain ht (safe_returns hset)

theorem safe_expectEnd : Safe F .plain expectEnd (Returns F fun _ => True) := by
  refine .next_bind fun t _ => ?_
  split
  · exact safe_stop trivial
  · exact safe_returns trivial

/-- In front of the first body all variables are parameters. -/
theorem safe_parameters : Safe Parse.noFrame .plain (parameters depth) fun r G front =>
    G.params = G.size ∧ front = .plain ∧ r.LiesOver G := by
  have hfull := (Relation.liesOver_full Parse.noFrame).1
  refine .nextIs_bind fun b => ?_
  split
  · refine (safe_tuple depth (.inr ⟨rfl, rfl⟩) hfull).bind ?_
    rintro r G _ ⟨hG, rfl, hr⟩
    rcases hG.admits (.inr ⟨rfl, rfl⟩) with h | ⟨-, hparams⟩
    · cases h
    · exact .expectMark_bind (safe_pure ⟨hparams, rfl, hr⟩)
  · exact safe_pure ⟨rfl, rfl, hfull⟩

theorem safe_parameterNames (hF : F.params = F.size) (hp : params.LiesOver F) :
    Safe F .plain (parameterNames params) (Returns F (· = F.scope.names)) := by
  refine .get_bind fun s hs => safe_returns ?_
  rw [hs.scope, Relation.dim, hp.space, Frame.space, Relation.dim_anonymousSet_param, hF]
  exact List.take_length

structure Placed (F : Frame) (s : Space) (G : Frame) : Prop where
  params : s.params = F.scope.names
  proper : s.Proper
  total : s.total = G.size

theorem safe_located (hF : F.params = F.size) (hp : params.LiesOver F) :
    Safe F .plain (located depth params) fun read G front => F.Extends G ∧ front = .plain ∧
      ∃ H, read.set.LiesOver H ∧ Placed F read.space H := by
  refine (safe_parameterNames hF hp).then ?_
  rintro _ rfl
  refine .nextIs_bind fun b => ?_
  split
  · refine (safe_optionalCondition hp).then fun r hr => safe_pure ⟨⟨rfl, List.prefix_refl _⟩, rfl, F,
      hr, rfl, Space.proper_ofSet _ .unit, rfl⟩
  · refine (safe_tuple depth (.inl rfl) hp).bind ?_
    rintro first G _ ⟨hG, rfl, hfirst⟩
    refine .eatIf_bind ((safe_tuple depth (.inl rfl) hfirst).bind ?_) ?_
    · rintro second H _ ⟨hH, rfl, hsecond⟩
      refine (safe_optionalCondition hsecond).then fun r hr =>
        safe_pure ⟨hG.extends.trans hH.extends, rfl, H, hr, rfl, Space.proper_ofRelation _ _ _, ?_⟩
      rw [hH.size_eq, hG.size_eq]
      rfl
    · refine (safe_optionalCondition hfirst).then fun r hr =>
        safe_pure ⟨hG.extends, rfl, G, hr, rfl, Space.proper_ofSet _ _, ?_⟩
      rw [hG.size_eq]
      rfl

theorem safe_body (config : Config) (hF : F.params = F.size) (hp : params.LiesOver F) :
    Safe F .plain (body config depth params)
      (Returns F (Relation.HasParams F.scope.names)) := by
  refine (safe_located hF hp).inScope.then fun read ⟨G, hset, hspace⟩ =>
    .check_bind (hset.sure_resetSpace hspace.proper hspace.total) fun r ⟨hr, hwf⟩ => safe_returns ?_
  split
  · exact ⟨hr ▸ hspace.params, hwf.proper, (Relation.sortDivs_spec hwf).1⟩
  · exact ⟨hr ▸ hspace.params, hwf.proper, fun b hb => (hwf.basics b hb).total_eq hwf.proper⟩

theorem safe_moreBodies (config : Config) (depth : Nat) (hF : F.params = F.size)
    (hp : params.LiesOver F) {o : Object} (ho : o.HasParams F.scope.names) :
    Safe F .plain (moreBodies config params depth o) (Returns F fun _ => True) := by
  induction depth generalizing o with
  | zero => exact safe_exhausted
  | succ depth ih =>
    rw [moreBodies]
    refine .enter_bind (.eatIf_bind (.nextIs_bind fun b => ?_) (safe_returns trivial))
    split
    · exact safe_returns trivial
    · exact .peek_bind fun start => (safe_body config hF hp).then fun r hr =>
        .check_bind (Object.sure_insert ho hr start.span) fun _ h => ih h

theorem safe_bodies (config : Config) (hF : F.params = F.size) (hp : params.LiesOver F) :
    Safe F .plain (bodies config depth params) (Returns F fun _ => True) :=
  (safe_body config hF hp).then fun first hfirst =>
    (safe_moreBodies config depth hF hp (o := .relation first) hfirst).then fun _ _ =>
      .expectMark_bind (safe_expectEnd.then fun _ _ => safe_returns trivial)

theorem safe_object (config : Config) (depth : Nat) :
    Safe Parse.noFrame .plain (object config depth) fun _ _ _ => True := by
  refine safe_parameters.bind ?_
  rintro params F _ ⟨hF, rfl, hp⟩
  refine .expectMark_bind (.next_bind fun t ht => ?_)
  split
  · refine .expectMark_bind ((safe_tuple depth (.inr ⟨rfl, hF⟩) hp).bind ?_)
    rintro shaped G _ ⟨hG, rfl, hshaped⟩
    rcases hG.admits (.inr ⟨rfl, hF⟩) with h | ⟨-, hparams⟩
    · cases h
    · exact (safe_bodies config hparams hshaped).mono fun _ _ _ _ => trivial
  · exact safe_expectEnd.then fun _ _ => safe_pure trivial
  · exact .push_bind .plain ht ((safe_bodies config hF hp).mono fun _ _ _ _ => trivial)

end Bodies

section Pieces

variable {params : Relation} {depth : Nat}

theorem safe_startsDomain : Safe F .plain startsDomain (Returns F fun _ => True) := by
  refine .get_bind fun s hs => .next_bind fun _ _ => safe_startsTuple.then fun b _ =>
    .nextIs_bind fun b' => ?_
  have hback : ∀ found : Bool, Safe F .plain (do
      tokens (TokenStream.restore s.stream)
      return found) (Returns F fun _ => True) := fun _ =>
    .restore_bind hs.stream (safe_returns trivial)
  split
  · exact hback true
  · split
    · exact hback true
    · exact .peek_bind fun t => (safe_freshName? t).then fun name _ => hback name.isSome

theorem safe_pieceDomain? (hp : params.LiesOver F) :
    Safe F .plain (pieceDomain? depth params) fun domain G front => front = .plain ∧
      (domain = none ∧ G = F ∨ ∃ d, domain = some d ∧ Grown .output F d.tuple.size d.set G front) := by
  have htuple : Safe F .plain (do return some (← tuple depth .output params)) fun domain G front =>
      front = .plain ∧ (domain = none ∧ G = F ∨
        ∃ d, domain = some d ∧ Grown .output F d.tuple.size d.set G front) :=
    (safe_tuple depth (.inl rfl) hp).bind fun d G front hd => by
      obtain rfl := hd.2.1
      exact safe_pure ⟨rfl, .inr ⟨d, rfl, hd⟩⟩
  refine .peek_bind fun t => ?_
  split
  · exact htuple
  · split
    · exact safe_stop_bind trivial
    · refine safe_startsDomain.then fun b _ => ?_
      split
      · exact htuple
      · exact safe_pure ⟨rfl, .inl ⟨rfl, rfl⟩⟩

theorem safe_pieceValue (hset : set.LiesOver F) :
    Safe F .plain (pieceValue depth set) (Returns F (Piecewise.LiesOver F)) := by
  rw [pieceValue, hset.space]
  exact .expectMark_bind ((steady depth).choice.of_any.then fun f hf => .expectMark_bind
    ((safe_optionalCondition hset).then fun r hr => safe_check (hf.sure_intersectDomain hr)))

theorem safe_locatedPiece (hF : F.params = F.size) (hp : params.LiesOver F) :
    Safe F .plain (locatedPiece depth params) fun read G front => F.Extends G ∧ front = .plain ∧
      ∃ H, read.function.LiesOver H ∧ Placed F read.space H := by
  refine (safe_parameterNames hF hp).then ?_
  rintro _ rfl
  refine (safe_pieceDomain? hp).bind ?_
  rintro _ G _ ⟨rfl, ⟨rfl, rfl⟩ | ⟨domain, rfl, hG, -, hdomain⟩⟩
  · exact (safe_pieceValue hp).then fun f hf => safe_pure ⟨⟨rfl, List.prefix_refl _⟩, rfl, G, hf, rfl,
      Space.proper_ofSet _ .unit, rfl⟩
  · refine .expectMark_bind ((safe_pieceValue hdomain).then fun f hf =>
      safe_pure ⟨hG.extends, rfl, G, hf, rfl, Space.proper_ofSet _ _, ?_⟩)
    rw [hG.size_eq]
    rfl

theorem safe_piece (hF : F.params = F.size) (hp : params.LiesOver F) :
    Safe F .plain (piece depth params) (Returns F Piecewise.Regular) :=
  (safe_locatedPiece hF hp).inScope.then fun _ ⟨_, hf, hspace⟩ =>
    safe_check (hf.sure_resetSpace hspace.proper hspace.total)

theorem safe_morePieces (depth : Nat) (hF : F.params = F.size) (hp : params.LiesOver F)
    {whole : Piecewise} (hw : whole.Regular) :
    Safe F .plain (morePieces params depth whole) (Returns F fun _ => True) := by
  induction depth generalizing whole with
  | zero => exact safe_exhausted
  | succ depth ih =>
    rw [morePieces]
    refine .enter_bind (.eatIf_bind (.nextIs_bind fun b => ?_) (safe_returns trivial))
    split
    · exact safe_returns trivial
    · refine .peek_bind fun start => (safe_piece hF hp).then fun part hpart => ?_
      split
      · exact safe_stop_bind trivial
      · rename_i hspace
        rw [Bool.not_eq_true', Bool.not_eq_false] at hspace
        exact .check_bind (hw.sure_unionAdd hpart hspace) fun _ h => ih h

theorem safe_piecewise (depth : Nat) :
    Safe Parse.noFrame .plain (piecewise depth) fun _ _ _ => True := by
  refine safe_parameters.bind ?_
  rintro params F _ ⟨hF, rfl, hp⟩
  exact .expectMark_bind ((safe_piece hF hp).then fun first hfirst =>
    (safe_morePieces depth hF hp hfirst).then fun whole _ => .expectMark_bind
      (safe_expectEnd.then fun _ _ => safe_pure trivial))

end Pieces

end Grammar

namespace Reader

def Orderly {α : Type} (result : Except Stop α) : Prop :=
  (∃ a, result = .ok a) ∨ ∃ e : Error, result = .error (.error e) ∧ ∀ fault, e ≠ .argument fault

theorem orderly_run {α : Type} {source : String} {production : (depth : Nat) → Reading α}
    (hsafe : Reading.Safe Parse.noFrame .plain (production (depthFor source)) fun _ _ _ => True)
    (hends : (run source production).result ≠ .error .exhausted) :
    Orderly (run source production).result := by
  have hstart : Reading.Ahead Parse.noFrame .plain (initial source) :=
    ⟨rfl, .plain (by simp [initial, TokenStream.ofText])⟩
  have h := hsafe (initial source) hstart
  cases hr : production (depthFor source) (initial source) with
  | mk result t =>
    rw [hr] at h
    have hrun : (run source production).result = result := congrArg Prod.fst hr
    rw [hrun] at hends ⊢
    cases result with
    | ok a => exact .inl ⟨a, rfl⟩
    | error stop =>
      cases stop with
      | exhausted => exact absurd rfl hends
      | error e =>
        refine .inr ⟨e, rfl, ?_⟩
        rintro fault rfl
        exact h

/-- Every text is read, or not read for an error in the text or an operation that is not supported;
never for arguments that the reader itself has put together wrongly. -/
theorem reading_orderly (config : Config) (source : String) :
    Orderly (object config source).result ∧ Orderly (piecewise source).result := by
  have hdepth : 32 * source.length + 1 ≤ depthFor source := by
    rw [depthFor]
    omega
  exact ⟨orderly_run (Grammar.safe_object config _)
      (endsWithin_of_affords (Grammar.affords_object config _) hdepth).1,
    orderly_run (Grammar.safe_piecewise _)
      (endsWithin_of_affords (Grammar.affords_piecewise _) hdepth).1⟩

end Reader

end Quasiaffine
