import Quasiaffine.Proofs.Parse.Tuples
import Quasiaffine.Reader.Basic

set_option autoImplicit false

namespace Quasiaffine

namespace Scope

variable {sc : Scope} {x : String}

def Distinct (sc : Scope) : Prop := ∃ xs : List String, xs.Nodup ∧ sc.names = xs.map some

theorem Distinct.declare (h : sc.Distinct) (hx : sc.position? x = none) :
    (sc.declare (some x)).Distinct := by
  obtain ⟨xs, hnodup, hnames⟩ := h
  have hnew : x ∉ xs := by simpa [position?, lastPosition?_eq_none_iff, hnames] using hx
  refine ⟨xs ++ [x], ?_, by rw [Scope.declare, hnames, List.map_append]; rfl⟩
  exact List.nodup_append.2 ⟨hnodup, List.nodup_singleton x,
    by simpa using fun _ h => ne_of_mem_of_not_mem h hnew⟩

theorem Distinct.take (h : sc.Distinct) (n : Nat) :
    ∃ xs : List String, xs.Nodup ∧ sc.names.take n = xs.map some := by
  obtain ⟨xs, hnodup, hnames⟩ := h
  exact ⟨xs.take n, (List.take_sublist n xs).nodup hnodup, by rw [hnames, List.map_take]⟩

end Scope

/-- The space on which a function that is read is defined: the parameters have names of their own,
and the tuple may be written. -/
structure Space.IsDomain (s : Space) : Prop where
  isSet : s.isSet = true
  proper : s.Proper
  params : ∃ xs : List String, xs.Nodup ∧ s.params = xs.map some
  output : s.output.Writable

namespace Reading

variable {α β : Type} {F G : Frame} {b c : Symbols} {P : β → Frame → Symbols → Prop}

theorem Follows.restore_bind {k : Unit → Reading β} {saved : TokenStream} (hreg : saved.Regular F)
    (hc : saved.symbols = c) (h : Follows F c (k ()) P) :
    Follows F b (tokens (TokenStream.restore saved) >>= k) P := by
  intro s hsc _ _ r t hrun
  exact h { s with stream := { saved with mostWaiting := s.stream.mostWaiting } } hsc hreg hc r t hrun

theorem Follows.inScope {m : Reading α} {Q : α → Symbols → Prop}
    (h : Follows F b m fun a G c => F.Extends G ∧ Clear c ∧ Q a c) :
    Follows F b (inScope m) fun a G c => G = F ∧ Clear c ∧ Q a c := by
  rw [Reading.inScope]
  refine .get_bind fun s hsc _ _ => h.bind ?_
  rintro a G c ⟨hext, hc, hQ⟩
  refine .scope_bind (f := (·.rollback s.scope.size)) hc ?_ (follows_pure ⟨rfl, hc, hQ⟩)
  rw [hsc]
  exact hext.rollback

end Reading

namespace Parse

open Reading Grammar

variable {F : Frame} {b : Symbols} {depth : Nat} {set : Relation}

inductive DerivesMore (sc : Scope) (P : Set Row) : Symbols → List Value → Symbols → Prop
  | done {b : Symbols} (h : b.head ≠ .mark .semicolon) : DerivesMore sc P b [] b
  | trailing {b : Symbols} (h : b.head = .mark .semicolon) (hb : b.tail.head = .mark .rightBrace) :
      DerivesMore sc P b [] b.tail
  | piece {b c d : Symbols} {v : Value} {vs : List Value} (h : b.head = .mark .semicolon)
      (hb : b.tail.head ≠ .mark .rightBrace) (hv : DerivesPiece sc P b.tail v c)
      (hs : DerivesMore sc P c vs d) : DerivesMore sc P b (v :: vs) d

theorem follows_optionalCondition (hb : Clear b) (hset : set.LiesOver F) :
    Follows F b (optionalCondition depth set) (Covers F fun Q c =>
      (b.head ≠ .mark .colon ∧ b.head ≠ .mark .pipe) ∧ Q = set.points ∧ c = b ∨
        (b.head = .mark .colon ∨ b.head = .mark .pipe) ∧
          Derives (.condition F.scope set.points) b.tail Q c) := by
  refine .next_bind fun t hs ht => ?_
  have hmark : ∀ m, t.kind = .mark m ↔ b.head = .mark m := fun m => by
    rw [← hs, ← Symbol.kind_eq_mark_iff, Lexeme.kind_symbol]
    rfl
  split
  · rename_i h
    rw [hmark, hmark] at h
    refine ((derivesConditions depth).condition hb.tail.tail hset).mono ?_
    rintro r G c ⟨rfl, hc, hr, hd⟩
    exact ⟨rfl, hc, hr, .inr ⟨h, hd⟩⟩
  · rename_i h
    rw [hmark, hmark, not_or] at h
    exact .back_bind hs ht (follows_pure ⟨rfl, hb, hset, .inl ⟨h, rfl, rfl⟩⟩)

theorem follows_pieceValue (hb : Clear b) (hset : set.LiesOver F) :
    Follows F b (pieceValue depth set) (Yields F (DerivesValue F.scope set.points b)) := by
  rw [pieceValue, hset.space]
  refine .expectMark_bind fun hopen =>
    ((derivesConditions depth).choice hb.tail.tail).bind ?_
  rintro f F c ⟨rfl, hc, hf, hv⟩
  refine .expectMark_bind fun hclose => (follows_optionalCondition hc.tail hset).bind ?_
  rintro r F d ⟨rfl, hd, hr, hQ⟩
  refine follows_check fun g hok => ?_
  obtain ⟨hg, hvalue⟩ := hf.intersectDomain hr.wellFormed hok
  refine ⟨rfl, hd, hg, ?_⟩
  rw [hvalue]
  rcases hQ with ⟨hn, hQ, rfl⟩ | ⟨hn, hQ⟩
  · rw [hQ]
    exact .unconditional hopen hv hclose hn
  · exact .conditional hopen hv hclose hn hQ

theorem follows_startsDomain (ho : b.head = .mark .leftBracket) :
    Follows F b startsDomain fun r G c => (r = true ↔ HasDomain F.scope b) ∧ c = b ∧ G = F := by
  have hdomain : HasDomain F.scope b ↔ StartsTuple b.tail ∨ b.tail.head = .mark .rightBracket ∨
      ∃ x, b.tail.head = .name x ∧ F.scope.position? x = none := by
    simp [HasDomain, ho, Symbol.mayNameTuple]
  rw [hdomain]
  refine .get_bind fun s hsc hreg hb => .next_bind fun _ _ _ => follows_startsTuple.bind ?_
  rintro r F _ ⟨hr, rfl, rfl⟩
  have hback : ∀ found : Bool, (found = true ↔ StartsTuple b.tail ∨
      b.tail.head = .mark .rightBracket ∨ ∃ x, b.tail.head = .name x ∧ F.scope.position? x = none) →
      Follows F b.tail (do
        tokens (TokenStream.restore s.stream)
        return found) fun r G c => (r = true ↔ StartsTuple b.tail ∨
          b.tail.head = .mark .rightBracket ∨
            ∃ x, b.tail.head = .name x ∧ F.scope.position? x = none) ∧ c = b ∧ G = F :=
    fun found h => .restore_bind hreg hb (follows_pure ⟨h, rfl, rfl⟩)
  refine .nextIs_bind (fun hclose => ?_) fun hclose => ?_
  · have hfound := hback true (iff_of_true rfl (.inr (.inl hclose)))
    split
    · exact hfound
    · exact hfound
  · split
    · exact hback true (iff_of_true rfl (.inl (hr.1 ‹_›)))
    · rename_i hstarts
      rw [hr] at hstarts
      refine .peek_bind fun t hs => (follows_freshName? hs).bind ?_
      rintro name F _ ⟨rfl, rfl, hname⟩
      refine hback name.isSome ?_
      rw [or_iff_right hstarts, or_iff_right hclose, Option.isSome_iff_exists]
      exact exists_congr hname

theorem follows_parameterNames {params : Relation} :
    Follows F b (parameterNames params) fun names G c =>
      names = F.scope.names.take (params.dim .param) ∧ G = F ∧ c = b :=
  .get_bind fun _ hsc _ _ => follows_pure ⟨by rw [hsc]; rfl, rfl, rfl⟩

theorem follows_locatedPiece (hb : Clear b) (hsc : F.scope.Distinct) {params : Relation}
    (hp : params.LiesOver F) : Follows F b (locatedPiece depth params) fun read G c =>
      F.Extends G ∧ Clear c ∧ read.space.IsDomain ∧ read.function.Regular ∧
        DerivesPiece F.scope params.points b read.function.valueAt c := by
  have hdomain : Follows F b (do return some (← tuple depth .output params)) fun r G c =>
      ∃ d, r = some d ∧ F.Extends G ∧ Clear c ∧ d.set.LiesOver G ∧ d.tuple.Writable ∧
        DerivesTuple .output F.scope params.points b G.scope d.set.points c := by
    refine (follows_tuple hb (.inl rfl) hp).bind ?_
    rintro d G c ⟨⟨n, hn⟩, -, hc, hd⟩
    exact follows_pure ⟨d, rfl, hn.extends, hc, hd⟩
  have hdomain? : Follows F b (pieceDomain? depth params) fun r G c =>
      HasDomain F.scope b ∧ (∃ d, r = some d ∧ F.Extends G ∧ Clear c ∧ d.set.LiesOver G ∧
        d.tuple.Writable ∧
          DerivesTuple .output F.scope params.points b G.scope d.set.points c) ∨
      ¬HasDomain F.scope b ∧ r = none ∧ G = F ∧ c = b := by
    refine .peek_bind fun t hs => ?_
    have hname : mayNameTuple t.lexeme = b.head.mayNameTuple := by
      rw [← hs, Lexeme.mayNameTuple_symbol]
    have hkind : t.kind = .mark .leftBracket ↔ b.head = .mark .leftBracket := by
      rw [← hs, ← Symbol.kind_eq_mark_iff, Lexeme.kind_symbol]
      rfl
    split
    · rename_i h
      rw [hname] at h
      exact hdomain.mono fun r G c hd => .inl ⟨.inl h, hd⟩
    · by_cases hopen : t.kind ≠ .mark .leftBracket
      · rw [if_pos hopen]
        exact follows_stop_bind _ _
      · rw [if_neg hopen]
        have ho := hkind.1 (not_not.1 hopen)
        refine (follows_startsDomain ho).bind ?_
        rintro r F _ ⟨hr, rfl, rfl⟩
        split
        · exact hdomain.mono fun _ _ _ hd => .inl ⟨hr.1 ‹_›, hd⟩
        · exact follows_pure (.inr ⟨mt hr.2 ‹_›, rfl, rfl, rfl⟩)
  refine follows_parameterNames.bind ?_
  rintro names F b ⟨hnames, rfl, rfl⟩
  have hspace : ∀ t : Tuple, t.Writable → (Space.ofSet names t).IsDomain := fun t ht =>
    ⟨rfl, Space.proper_ofSet names t, hnames ▸ hsc.take _, ht⟩
  refine hdomain?.bind ?_
  rintro domain G c (⟨hd, d, rfl, hext, hc, hset, hw, ht⟩ | ⟨hd, rfl, rfl, rfl⟩)
  · refine .expectMark_bind fun ha => (follows_pieceValue hc.tail hset).bind ?_
    rintro f G e ⟨rfl, he, hf, hv⟩
    exact follows_pure ⟨hext, he, hspace _ hw, hf, .onDomain hd ht ha hv⟩
  · refine (follows_pieceValue hb hp).bind ?_
    rintro f G e ⟨rfl, he, hf, hv⟩
    exact follows_pure ⟨⟨rfl, List.prefix_refl _⟩, he, hspace .unit Tuple.writable_flat_none, hf,
      .onParams hd hv⟩

theorem follows_piece (hb : Clear b) (hsc : F.scope.Distinct) {params : Relation}
    (hp : params.LiesOver F) : Follows F b (piece depth params) fun f G c => G = F ∧ Clear c ∧
      f.space.IsDomain ∧ f.Regular ∧ DerivesPiece F.scope params.points b f.valueAt c := by
  refine (Follows.inScope (Q := fun read c => read.space.IsDomain ∧ read.function.Regular ∧
    DerivesPiece F.scope params.points b read.function.valueAt c)
    (follows_locatedPiece hb hsc hp)).bind ?_
  rintro read G c ⟨rfl, hc, hs, hf, hd⟩
  refine follows_check fun f hok => ?_
  obtain ⟨hreg, hv⟩ := hf.resetSpace hs.proper hok
  exact ⟨rfl, hc, Piecewise.space_resetSpace hok ▸ hs, hreg, hv ▸ hd⟩

theorem follows_morePieces (hb : Clear b) (hsc : F.scope.Distinct) {params : Relation}
    (hp : params.LiesOver F) {whole : Piecewise} (hspace : whole.space.IsDomain)
    (hw : whole.Regular) {ws : List Value} (hws : whole.valueAt = Value.total ws) :
    Follows F b (morePieces params depth whole) fun f G c => G = F ∧ f.space.IsDomain ∧ f.Regular ∧
      ∃ vs, f.valueAt = Value.total (ws ++ vs) ∧ DerivesMore F.scope params.points b vs c := by
  induction depth generalizing b whole ws with
  | zero => exact follows_throw _
  | succ depth ih =>
    rw [morePieces]
    refine .enter_bind (.eatMark_bind (fun hsemi => .nextIs_bind (fun hclose => ?_) fun hclose => ?_)
      fun hsemi => ?_)
    · exact follows_pure ⟨rfl, hspace, hw, [], by rw [List.append_nil, hws],
        .trailing hsemi hclose⟩
    · refine .peek_bind fun start _ => (follows_piece hb.tail hsc hp).bind ?_
      rintro f F c ⟨rfl, hc, -, hf, hd⟩
      dsimp only
      by_cases hdiffer : (!whole.space.agrees f.space) = true
      · rw [if_pos hdiffer]
        exact follows_stop_bind _ _
      · rw [if_neg hdiffer]
        refine .check_bind fun g hok => ?_
        obtain ⟨hg, hv⟩ := hw.unionAdd hf hok
        rw [hws, ← Value.total_concat] at hv
        refine (ih hc (hw.space_unionAdd hf hok ▸ hspace) hg hv).mono ?_
        rintro h F e ⟨rfl, hs, hh, vs, hvs, hmore⟩
        exact ⟨rfl, hs, hh, f.valueAt :: vs, by simpa using hvs, .piece hsemi hclose hd hmore⟩
    · exact follows_pure ⟨rfl, hspace, hw, [], by rw [List.append_nil, hws], .done hsemi⟩

def noFrame : Frame := ⟨0, .empty, Nat.le_refl 0⟩

section Parameters

variable {sc sc' : Scope} {P Q : Set Row} {c : Symbols}

theorem DerivesItem.distinct (h : DerivesItem .param sc P b sc' Q c) (hsc : sc.Distinct) :
    sc'.Distinct := by
  cases h with
  | fresh h =>
    cases h with
    | free _ hx | defined _ hx => exact hsc.declare hx
  | value hk => exact absurd rfl hk

theorem DerivesItems.distinct (h : DerivesItems .param sc P b sc' Q c) (hsc : sc.Distinct) :
    sc'.Distinct := by
  induction h with
  | last h => exact h.distinct hsc
  | comma h _ _ ih | brackets h _ _ _ ih => exact ih (h.distinct hsc)

theorem DerivesTuple.distinct (h : DerivesTuple .param sc P b sc' Q c) (hsc : sc.Distinct) :
    sc'.Distinct := by
  induction h with
  | named _ _ _ ih => exact ih hsc
  | unit => exact hsc
  | flat _ _ _ hi => exact hi.distinct hsc
  | wrap _ hw => exact absurd rfl hw.1

theorem DerivesHeader.distinct (h : DerivesHeader b sc P c) : sc.Distinct := by
  have hempty : Scope.empty.Distinct := ⟨[], List.nodup_nil, rfl⟩
  cases h with
  | none => exact hempty
  | some _ ht => exact ht.distinct hempty

end Parameters

theorem follows_parameters (hb : Clear b) : Follows noFrame b (parameters depth) fun r G c =>
    (G.Admits .param ∧ G.scope.Named) ∧ Clear c ∧ r.LiesOver G ∧
      DerivesHeader b G.scope r.points c := by
  obtain ⟨hfull, hpoints⟩ := Relation.liesOver_full noFrame
  change (Relation.full (.ofParams [])).points = everywhere 0 at hpoints
  have hempty : noFrame.Admits .param := .inr ⟨rfl, rfl⟩
  have hnamed : noFrame.scope.Named := nofun
  refine .nextIs_bind (fun hopen => (follows_tuple hb hempty hfull).bind ?_)
    fun hopen => follows_pure ⟨⟨hempty, hnamed⟩, hb, hfull, ?_⟩
  · rintro r G c ⟨⟨n, hn⟩, hworded, hc, hr, -, ht⟩
    refine .expectMark_bind fun ha => follows_pure
      ⟨⟨hn.admits hempty, hworded.scope hnamed⟩, hc.tail, hr, .some hopen ?_ ha⟩
    rw [show (Relation.full noFrame.space).points = everywhere 0 from hpoints] at ht
    exact ht
  · rw [hpoints]
    exact .none hopen

theorem follows_expectEnd : Follows F b expectEnd fun _ G c =>
    G = F ∧ b.head = .finish ∧ c = b.tail := by
  refine .next_bind fun t hs _ => ?_
  by_cases hend : (!t.isEnd) = true
  · rw [if_pos hend]
    exact follows_stop _
  · rw [if_neg hend]
    refine follows_pure ⟨rfl, ?_, rfl⟩
    rw [Bool.not_eq_true, Bool.not_eq_false', Token.isEnd, beq_iff_eq] at hend
    rw [← hs]
    cases hl : t.lexeme <;> simp_all [Token.kind, Lexeme.kind, Lexeme.symbol]

theorem follows_piecewise (hb : Clear b) : Follows noFrame b (piecewise depth) fun f _ e =>
    f.space.IsDomain ∧ f.Regular ∧ ∃ sc P c v vs d, DerivesHeader b sc P c ∧ c.head = .mark .leftBrace ∧
      DerivesPiece sc P c.tail v d ∧ f.valueAt = Value.total (v :: vs) ∧
        ∃ e', DerivesMore sc P d vs e' ∧ e'.head = .mark .rightBrace ∧
          e'.tail.head = .finish ∧ e = e'.tail.tail := by
  refine (follows_parameters hb).bind ?_
  rintro params F c ⟨-, hc, hp, hheader⟩
  have hsc := hheader.distinct
  refine .expectMark_bind fun hopen => (follows_piece hc.tail hsc hp).bind ?_
  rintro f F d ⟨rfl, hd, hs, hf, hpiece⟩
  refine (follows_morePieces hd hsc hp hs hf (Value.total_singleton _).symm).bind ?_
  rintro g F e ⟨rfl, hs, hg, vs, hvs, hmore⟩
  refine .expectMark_bind fun hclose => follows_expectEnd.bind ?_
  rintro _ F _ ⟨rfl, hend, rfl⟩
  exact follows_pure
    ⟨hs, hg, _, _, _, _, _, _, hheader, hopen, hpiece, hvs, _, hmore, hclose, hend, rfl⟩

end Parse

end Quasiaffine
