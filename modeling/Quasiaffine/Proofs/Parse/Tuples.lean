import Quasiaffine.Proofs.Parse.Conditions
import Quasiaffine.Proofs.Parse.Shape
import Quasiaffine.Proofs.Reader.TupleParts

set_option autoImplicit false

namespace Quasiaffine

@[simp] theorem Lexeme.mayNameTuple_symbol (l : Lexeme) :
    l.symbol.mayNameTuple = Grammar.mayNameTuple l := by cases l <;> rfl

section Words

theorem isTitle_of_isWord {x : String} (h : Lexeme.IsWord x.toList) : IsTitle x := by
  have hscan := Lexeme.scan_word [] h (by simp)
  rw [List.append_nil, String.ofList_toList, Lexeme.ofWord] at hscan
  cases hword : Keyword.ofText? x with
  | none =>
    rw [hword] at hscan
    exact .inl hscan
  | some w =>
    have hfound := List.find?_some (p := (Keyword.text · == x)) hword
    exact .inr ⟨w, (beq_iff_eq.1 hfound).symm⟩

theorem Lexeme.IsWord.of_beginning {word text : List Char} (h : IsWord text) (hp : word <+: text)
    (hne : word ≠ []) : IsWord word := by
  obtain ⟨c, body, primes, rfl, hc, hbody, hprimes⟩ := h.parts
  obtain ⟨a, word, rfl⟩ := List.exists_cons_of_ne_nil hne
  obtain ⟨rfl, hrest⟩ := List.cons_prefix_cons.1 hp
  rw [List.prefix_iff_eq_take, List.take_append] at hrest
  exact ⟨a, _, _, congrArg _ hrest, hc, fun b hb => hbody b (List.mem_of_mem_take hb),
    fun b hb => hprimes b (List.mem_of_mem_take hb)⟩

theorem isTitle_dimensionName {x : String} (h : IsName x) : IsTitle (Grammar.dimensionName x) := by
  rw [Grammar.dimensionName]
  split
  · exact .inl h
  · rename_i hne
    refine isTitle_of_isWord ((Lexeme.isWord_of_isName h).of_beginning ?_ ?_)
    · rw [String.toList_ofList]
      exact List.rdropWhile_prefix _ _
    · simpa using hne

def Scope.Named (sc : Scope) : Prop := ∀ x, some x ∈ sc.names → IsName x

theorem Scope.Named.declare {sc : Scope} {label : Label} (h : sc.Named)
    (hl : ∀ x ∈ label, IsName x) : (sc.declare label).Named := by
  intro x hx
  rcases List.mem_append.1 hx with hx | hx
  · exact h x hx
  · exact hl x (List.mem_singleton.1 hx).symm

/-- The labels that an action puts behind others are words, and the variables that it declares have
names that are words. -/
structure Worded (F G : Frame) (before after : List Label) : Prop where
  scope : F.scope.Named → G.scope.Named
  labels : (∀ x, some x ∈ before → IsTitle x) → ∀ x, some x ∈ after → IsTitle x

variable {F G H : Frame} {before after last : List Label}

theorem Worded.refl (F : Frame) (labels : List Label) : Worded F F labels labels := ⟨id, id⟩

theorem Worded.trans (h : Worded F G before after) (h' : Worded G H after last) :
    Worded F H before last :=
  ⟨h'.scope ∘ h.scope, h'.labels ∘ h.labels⟩

theorem Worded.append (h : Worded F G [] before) (h' : Worded G H [] after) :
    Worded F H [] (before ++ after) :=
  ⟨h'.scope ∘ h.scope, fun hnil x hx => (List.mem_append.1 hx).elim
    (h.labels hnil x) (h'.labels hnil x)⟩

theorem Worded.concat {label name : Label} (hname : ∀ x ∈ name, IsName x)
    (hlabel : ∀ x ∈ label, IsTitle x) (hG : G.scope = F.scope.declare name) :
    Worded F G before (before ++ [label]) := by
  refine ⟨fun h => hG ▸ h.declare hname, fun h x hx => ?_⟩
  rcases List.mem_append.1 hx with hx | hx
  · exact h x hx
  · exact hlabel x (List.mem_singleton.1 hx).symm

end Words

namespace TokenStream

open Parse

variable {F : Frame} {b : Symbols}

theorem follows_startsTuple : Follows F b (lookingAhead do
    let t ← next
    if t.kind = .mark .leftBracket then return true
    if Grammar.mayNameTuple t.lexeme then nextIs (.mark .leftBracket) else return false)
    fun r c => (r = true ↔ StartsTuple b) ∧ c = b := by
  refine (Follows.lookingAhead (Q := fun r _ => r = true ↔ StartsTuple b) ?_).mono
    fun r c h => ⟨h.1.elim fun _ => id, h.2⟩
  refine follows_next.bind ?_
  rintro t _ ⟨hs, -, rfl⟩
  have hkind : t.kind = .mark .leftBracket ↔ b.head = .mark .leftBracket := by
    rw [← hs, ← Symbol.kind_eq_mark_iff, Lexeme.kind_symbol]
    rfl
  have hname : Grammar.mayNameTuple t.lexeme = b.head.mayNameTuple := by
    rw [← hs, Lexeme.mayNameTuple_symbol]
  rw [hname]
  split
  · rename_i h
    exact follows_pure (iff_of_true rfl (.inl (hkind.1 h)))
  · rename_i h
    rw [hkind] at h
    split
    · rename_i hn
      refine follows_nextIs.mono ?_
      rintro r c ⟨rfl, rfl⟩
      rw [beq_iff_eq, Symbol.kind_eq_mark_iff, StartsTuple, or_iff_right h, and_iff_right hn]
    · rename_i hn
      refine follows_pure (iff_of_false Bool.false_ne_true ?_)
      exact fun hstarts => hstarts.elim h fun h => hn h.1

theorem follows_arrowBehind (depth n : Nat) : Follows F b (Grammar.arrowBehind depth n)
    fun r _ => ∀ found, r = some found → (found = true ↔ ArrowBehind n b) := by
  induction depth generalizing b n with
  | zero => exact follows_pure nofun
  | succ depth ih =>
    refine follows_next.bind ?_
    rintro t _ ⟨hs, -, rfl⟩
    split
    · rename_i hl
      have hb : b.head = .mark .leftBracket := Symbol.eq_of_lexeme hs hl
      rw [arrowBehind_opens_iff hb]
      exact ih (n + 1)
    · rename_i hl
      have hb : b.head = .mark .rightBracket := Symbol.eq_of_lexeme hs hl
      split
      · rename_i hn
        rw [arrowBehind_found_iff hb hn]
        refine follows_nextIs.bind ?_
        rintro r _ ⟨rfl, rfl⟩
        refine follows_pure fun found hr => ?_
        obtain rfl := Option.some.inj hr
        rw [beq_iff_eq, Symbol.kind_eq_mark_iff]
      · rename_i hn
        rw [arrowBehind_closes_iff hb (Nat.lt_of_not_le hn)]
        exact ih (n - 1)
    · rename_i hl
      have hb : b.head = .finish := Symbol.eq_of_lexeme hs hl
      refine follows_pure fun found hr => ?_
      obtain rfl := Option.some.inj hr
      exact iff_of_false Bool.false_ne_true (not_arrowBehind_finish hb)
    · rename_i ho hc he
      have ho : b.head ≠ .mark .leftBracket := by
        rw [← hs, Ne, Lexeme.symbol_eq_mark_iff]
        exact ho
      have hc : b.head ≠ .mark .rightBracket := by
        rw [← hs, Ne, Lexeme.symbol_eq_mark_iff]
        exact hc
      have he : b.head ≠ .finish := by
        rw [← hs]
        intro h
        cases hl : t.lexeme <;> simp_all [Lexeme.symbol]
      rw [arrowBehind_other_iff ho hc he]
      exact ih n

end TokenStream

namespace Parse

open Reading Grammar

variable {F : Frame} {b : Symbols} {depth : Nat} {kind : DimKind} {set : Relation}

theorem follows_startsTuple :
    Follows F b startsTuple fun r G c => (r = true ↔ StartsTuple b) ∧ c = b ∧ G = F :=
  (follows_tokens TokenStream.follows_startsTuple).mono fun _ _ _ h => ⟨h.1.1, h.1.2, h.2⟩

theorem follows_startsRelation : Follows F b (startsRelation depth) fun r G c =>
    (r = true ↔ StartsTuple b ∧ ArrowBehind 0 b) ∧ c = b ∧ G = F := by
  refine follows_startsTuple.bind ?_
  rintro r G c ⟨hr, rfl, rfl⟩
  split
  · refine (follows_tokens (TokenStream.follows_arrowBehind depth 0).lookingAhead).bind ?_
    rintro found G d ⟨⟨⟨_, hfound⟩, rfl⟩, rfl⟩
    split
    · exact follows_pure ⟨by rw [hfound _ rfl, and_iff_right (hr.1 ‹_›)], rfl, rfl⟩
    · exact follows_throw _
  · exact follows_pure ⟨iff_of_false Bool.false_ne_true fun h => ‹¬_› (hr.2 h.1), rfl, rfl⟩

theorem follows_freshName? {t : Token} {l : Symbol} (hs : t.lexeme.symbol = l) :
    Follows F b (freshName? t) fun r G c => c = b ∧ G = F ∧
      ∀ x, r = some x ↔ l = .name x ∧ F.scope.position? x = none := by
  subst hs
  rw [freshName?]
  split
  · rename_i x hl
    refine .position?_bind (follows_pure ⟨rfl, rfl, fun y => ?_⟩)
    rw [hl]
    cases hx : F.scope.position? x with
    | none =>
      simp only [Option.isSome_none, Bool.false_eq_true, if_false, Option.some_inj, Lexeme.symbol,
        Symbol.name.injEq, iff_self_and]
      rintro rfl
      exact hx
    | some pos =>
      simp only [Option.isSome_some, if_true, Lexeme.symbol, Symbol.name.injEq, reduceCtorEq,
        false_iff, not_and]
      rintro rfl
      rw [hx]
      exact Option.some_ne_none _
  · rename_i hl
    refine follows_pure ⟨rfl, rfl, fun y => iff_of_false (Option.some_ne_none y).symm fun h => ?_⟩
    cases ht : t.lexeme <;> simp_all [Lexeme.symbol]

theorem follows_item {read : Items} (hb : Clear b) (hF : F.Admits kind)
    (hset : read.set.LiesOver F) {t : Token} (hs : t.lexeme.symbol = b.head)
    (ht : t.lexeme.Regular F) : Follows F b.tail (item depth kind read t) fun r G c =>
      Frame.Grows kind F G 1 ∧ Worded F G read.labels r.labels ∧ Clear c ∧ r.set.LiesOver G ∧
        DerivesItem kind F.scope read.set.points b G.scope r.set.points c := by
  have hsize : ∀ label, F.size < (F.declareAs kind label).size := fun label => by
    rw [Frame.size_declareAs]
    exact Nat.lt_succ_self _
  have hscope : ∀ label, F.scope.declare label = (F.declareAs kind label).scope := fun label =>
    Frame.scope_declareAs.symm
  rw [item]
  refine (follows_freshName? hs).bind ?_
  rintro name F _ ⟨rfl, rfl, hname⟩
  split
  · rename_i x
    obtain ⟨hx, hfresh⟩ := (hname x).1 rfl
    refine .declare_bind hb.tail (hscope (some x)) (.check_bind fun r hok => ?_)
    obtain ⟨hr, hpoints⟩ := hset.addDim hF (some x) hok
    have hgrows := Frame.grows_declareAs hF (some x)
    have hword := hb.isName hx
    have hworded : Worded F (F.declareAs kind (some x)) read.labels
        (read.labels ++ [some (dimensionName x)]) :=
      .concat (by simpa using hword) (by simpa using isTitle_dimensionName hword)
        (hscope (some x)).symm
    refine .eatMark_bind (fun heq =>
      ((derivesConditions depth).definition hb.tail.tail.tail hr (hsize _)).bind ?_) fun heq => ?_
    · rintro r' G c ⟨rfl, hc, hr', v, hv, hd⟩
      refine follows_pure ⟨hgrows, hworded, hc, hr', ?_⟩
      rw [← hscope] at hd ⊢
      rw [hv, hpoints]
      exact .fresh (.defined hx hfresh heq hd)
    · refine follows_pure ⟨hgrows, hworded, hb.tail, hr, ?_⟩
      rw [← hscope, hpoints]
      exact .fresh (.free hx hfresh heq)
  · split
    · split
      · exact follows_stop _
      · exact follows_stop _
    · rename_i hk
      refine .back_bind hs ht (.declare_bind hb (hscope none) (.check_bind fun r hok => ?_))
      obtain ⟨hr, hpoints⟩ := hset.addDim hF none hok
      refine ((derivesConditions depth).definition hb.tail hr (hsize _)).bind ?_
      rintro r' G c ⟨rfl, hc, hr', v, hv, hd⟩
      refine follows_pure ⟨Frame.grows_declareAs hF none,
        .concat (by simp) (by simp) (hscope none).symm, hc, hr', ?_⟩
      rw [← hscope] at hd ⊢
      rw [hv, hpoints]
      exact .value hk (fun x hx hfresh =>
        absurd ((hname x).2 ⟨hx, hfresh⟩).symm (Option.some_ne_none x)) hd

theorem follows_items (read : Items) (hb : Clear b) (hF : F.Admits kind)
    (hset : read.set.LiesOver F) : Follows F b (items depth kind read) fun r G c =>
      (∃ n, Frame.Grows kind F G n) ∧ Worded F G read.labels r.labels ∧ Clear c ∧
        r.set.LiesOver G ∧
          DerivesItems kind F.scope read.set.points b G.scope r.set.points c := by
  induction depth generalizing F b read with
  | zero => exact follows_throw _
  | succ depth ih =>
    rw [items]
    refine .enter_bind (.next_bind fun t hs ht => (follows_item hb hF hset hs ht).bind ?_)
    rintro read' G c ⟨hgrows, hworded, hc, hset', hitem⟩
    have hmore : ∀ {d : Symbols}, Clear d →
        (∀ {sc Q e}, DerivesItems kind G.scope read'.set.points d sc Q e →
          DerivesItems kind F.scope read.set.points b sc Q e) →
        Follows G d (items depth kind read') fun r H e => (∃ n, Frame.Grows kind F H n) ∧
          Worded F H read.labels r.labels ∧ Clear e ∧ r.set.LiesOver H ∧
            DerivesItems kind F.scope read.set.points b H.scope r.set.points e := by
      intro d hd hgive
      refine (ih read' hd (hgrows.admits hF) hset').mono ?_
      rintro r H e ⟨⟨n, hn⟩, hw, he, hr, hi⟩
      exact ⟨⟨_, hgrows.trans hn⟩, hworded.trans hw, he, hr, hgive hi⟩
    refine .next_bind fun behind hs' ht' => ?_
    have hkind : behind.kind = c.head.kind := by rw [← hs', Lexeme.kind_symbol]; rfl
    have hmark : ∀ m, behind.kind = .mark m ↔ c.head = .mark m := fun m => by
      rw [hkind, Symbol.kind_eq_mark_iff]
    split
    · rename_i hcomma
      exact hmore hc.tail fun hs => .comma hitem ((hmark _).1 hcomma) hs
    · rename_i hcomma
      rw [hmark] at hcomma
      split
      · rename_i hclose
        rw [Ne, hmark] at hclose
        exact .back_bind hs' ht' (follows_pure ⟨⟨_, hgrows⟩, hworded, hc, hset',
          .last hitem hcomma fun h => absurd h hclose⟩)
      · rename_i hclose
        rw [ne_eq, not_not, hmark] at hclose
        refine .nextIs_bind (fun hopen => .next_bind fun _ _ _ => ?_) fun hopen => ?_
        · exact hmore hc.tail.tail fun hs => .brackets hitem hclose hopen hs
        · exact .back_bind hs' ht' (follows_pure ⟨⟨_, hgrows⟩, hworded, hc, hset',
            .last hitem hcomma fun _ => hopen⟩)

/-- What a tuple that starts at `b` has become when it has been read up to `c`. -/
abbrev Shapes (kind : DimKind) (F : Frame) (set : Relation) (b : Symbols) (r : Shaped) (G : Frame)
    (c : Symbols) : Prop :=
  (∃ n, Frame.Grows kind F G n) ∧ Worded F G [] r.tuple.ids ∧ Clear c ∧ r.set.LiesOver G ∧
    r.tuple.Writable ∧ DerivesTuple kind F.scope set.points b G.scope r.set.points c

section Parts

variable {name : Label}

theorem follows_insideTuple
    (htuple : ∀ {F : Frame} {b : Symbols} {set : Relation}, Clear b → F.Admits kind →
      set.LiesOver F → Follows F b (tuple depth kind set) (Shapes kind F set b))
    (hF : F.Admits kind) (hset : set.LiesOver F) {wraps : Bool} (hname : ∀ x ∈ name, IsTitle x)
    (hb : Clear b) (ho : b.head = .mark .leftBracket) (hw : wraps = true ↔ Wraps kind b.tail) :
    Follows F b.tail (insideTuple depth kind set name wraps) (Shapes kind F set b) := by
  have hwrap : wraps = true → Follows F b.tail (do
      let domain ← tuple depth kind set
      expectMark .arrow
      let range ← tuple depth kind domain.set
      closeTuple name ⟨range.set, .wrap none domain.tuple range.tuple⟩) (Shapes kind F set b) := by
    intro hwraps
    refine (htuple hb.tail hF hset).bind ?_
    rintro domain G c ⟨⟨n, hn⟩, hdworded, hc, hdomain, hdw, hs⟩
    refine .expectMark_bind fun ha => (htuple hc.tail (hn.admits hF) hdomain).bind ?_
    rintro range H e ⟨⟨m, hm⟩, hrworded, he, hrange, hrw, ht⟩
    exact .expectMark_bind fun hclose => follows_pure
      ⟨⟨_, hn.trans hm⟩, by rw [Tuple.ids_rename]; exact hdworded.append hrworded, he.tail,
        hrange, (hdw.wrap hrw).rename hname, .wrap ho (hw.1 hwraps) hs ha ht hclose⟩
  refine .nextIs_bind (fun hclose => ?_) fun hclose => ?_
  · split
    · exact hwrap ‹_›
    · exact .expectMark_bind fun _ =>
        follows_pure ⟨⟨0, .refl kind F⟩, .refl F [], hb.tail.tail, hset,
          Tuple.writable_flat_none.rename hname, .unit ho hclose⟩
  · split
    · exact hwrap ‹_›
    · refine (follows_items ⟨set, []⟩ hb.tail hF hset).bind ?_
      rintro read G c ⟨hgrows, hworded, hc, hread, hi⟩
      exact .expectMark_bind fun hclose' =>
        follows_pure ⟨hgrows, by rwa [Tuple.ids_rename], hc.tail, hread,
          Tuple.writable_flat_none.rename hname, .flat ho (mt hw.2 ‹_›) hclose hi hclose'⟩

theorem follows_openTuple
    (htuple : ∀ {F : Frame} {b : Symbols} {set : Relation}, Clear b → F.Admits kind →
      set.LiesOver F → Follows F b (tuple depth kind set) (Shapes kind F set b))
    (hF : F.Admits kind) (hset : set.LiesOver F) {opening : Token}
    (hname : ∀ x ∈ name, IsTitle x) (hb : Clear b) (hs : opening.lexeme.symbol = b.head) :
    Follows F b.tail (openTuple depth kind set name opening) fun r G c =>
      b.head = .mark .leftBracket ∧ Shapes kind F set b r G c := by
  have hkind : opening.kind = .mark .leftBracket ↔ b.head = .mark .leftBracket := by
    rw [← hs, ← Symbol.kind_eq_mark_iff, Lexeme.kind_symbol]
    rfl
  rw [openTuple]
  split
  · exact follows_stop _
  · rename_i hopening
    have ho := hkind.1 (not_not.1 hopening)
    split
    · rename_i hk
      exact (follows_insideTuple htuple hF hset hname hb ho
        (iff_of_false Bool.false_ne_true fun h => h.1 hk)).mono fun _ _ _ h => ⟨ho, h⟩
    · rename_i hk
      refine follows_startsRelation.bind ?_
      rintro wraps F _ ⟨hwraps, rfl, rfl⟩
      exact (follows_insideTuple htuple hF hset hname hb ho
        (hwraps.trans (and_iff_right hk).symm)).mono fun _ _ _ h => ⟨ho, h⟩

end Parts

theorem follows_tuple (hb : Clear b) (hF : F.Admits kind) (hset : set.LiesOver F) :
    Follows F b (tuple depth kind set) (Shapes kind F set b) := by
  induction depth generalizing F b set with
  | zero => exact follows_throw _
  | succ depth ih =>
    rw [tuple_succ]
    refine .enter_bind (.next_bind fun t hs ht => ?_)
    have hnamed : mayNameTuple t.lexeme = b.head.mayNameTuple := by
      rw [← hs, Lexeme.mayNameTuple_symbol]
    split
    · rename_i h
      have htitle : ∀ x ∈ t.lexeme.tupleName, IsTitle x :=
        Lexeme.isTitle_of_tupleName fun x hx => hb.isName (by rw [← hs, hx]; rfl)
      refine .next_bind fun opening hs' _ =>
        (follows_openTuple ih hF hset htitle hb.tail hs').mono ?_
      rintro r G c ⟨ho, hgrows, hworded, hc, hr, hw, ht⟩
      exact ⟨hgrows, hworded, hc, hr, hw, .named (hnamed ▸ h) ho ht⟩
    · have htitle : ∀ x ∈ (none : Label), IsTitle x := by simp
      exact (follows_openTuple ih hF hset htitle hb hs).mono fun _ _ _ h => h.2

end Parse

end Quasiaffine
