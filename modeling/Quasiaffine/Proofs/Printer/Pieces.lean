import Quasiaffine.Proofs.Parse.Texts
import Quasiaffine.Proofs.Printer.Spaces
import Quasiaffine.Proofs.Reader.Pieces
import Quasiaffine.Proofs.Reader.Separation

set_option autoImplicit false

namespace Quasiaffine

open Phrase Printer

namespace Phrase

variable {kind : DimKind} {F G : Frame} {ls : List Lexeme} {t : Tuple} {D : Row → Prop}
  {label : Label} {labels : List Label} {xs : List String}

theorem Item.starts_fresh (h : Item kind F ls G label D) (hG : none ∉ G.scope.names) :
    ∃ x ls', ls = .identifier x :: ls' ∧ F.scope.position? x = none := by
  cases h with
  | free hn | defined hn => exact ⟨_, _, rfl, hn⟩
  | expression => exact absurd (by simp [Scope.declare]) hG

theorem Items.starts_fresh (h : Items kind F ls G labels D) (hF : F.Admits kind)
    (hG : none ∉ G.scope.names) :
    ∃ x ls', ls = .identifier x :: ls' ∧ F.scope.position? x = none := by
  cases h with
  | last h => exact h.starts_fresh hG
  | more h hs =>
    obtain ⟨later, -, hlater⟩ := (hs.grows ((h.grows hF).admits hF)).names
    rw [hlater, List.mem_append, not_or] at hG
    obtain ⟨x, ls', rfl, hx⟩ := h.starts_fresh hG.1
    exact ⟨x, _, rfl, hx⟩

/-- A tuple all of whose variables have names is taken for the domain of a piece. -/
theorem Shape.startsDomain (h : Shape kind F ls G t D) (hF : F.Admits kind) (hG : G.Lists xs) :
    StartsDomain F.scope ls := by
  have hnamed : none ∉ G.scope.names := by
    rw [show G.scope.names = xs.map some from hG]
    simp
  cases h with
  | named hl => exact .titled hl
  | unnamed h =>
    cases h with
    | unit => exact .unit
    | flat h =>
      obtain ⟨x, ls', rfl, hx⟩ := h.starts_fresh hF hnamed
      exact .fresh hx
    | wrap _ h _ =>
      cases h with
      | unnamed h =>
        obtain ⟨inner, rfl, -⟩ := h.inside
        cases inner <;> exact .wrapping (.inl rfl)
      | named hl h =>
        obtain ⟨inner, rfl, -⟩ := h.inside
        exact .wrapping (.inr ⟨hl, rfl⟩)

end Phrase

namespace Printer

variable {F G : Frame} {dims : List String} {a : Affine}

def quotientText (a : Affine) (names : List String) : String :=
  if a.denominator = 1 then affineText a.numerator names
  else "(" ++ (affineText a.numerator names ++ ")") ++ ("/" ++ toString a.denominator)

theorem valueText_eq (a : Affine) (dims : List String) : valueText a dims =
    "[" ++ ("(" ++ (quotientText a (ColumnNames.ofLocalSpace dims a.ls).columns ++ ")") ++ "]") := by
  rw [valueText, quotientText]
  split
  all_goals
    rw [← String.toList_inj]
    simp [toString]

theorem quotientText_spec {names : List String} {us : List (Row → ℤ)}
    (h : List.Forall₂ (Column G) names us) (hm : 0 < a.denominator) :
    ∃ ls v, Writes (quotientText a names) ls ∧ Sum G ls v ∧
      ∀ x, v x = (a.numerator.dot (1 :: valuesAt us x) : ℚ) / a.denominator := by
  obtain ⟨ls, hls, hsum⟩ := affineText_spec h a.numerator
  rw [quotientText]
  split
  · rename_i hone
    exact ⟨ls, _, hls, hsum, fun x => by rw [hone, Int.cast_one, div_one]⟩
  · have hquotient := Sum.summands (.term (.factor (.divided hm (.paren hsum))) .done)
    exact ⟨_, _, hls.inParens.append (writes_over hm) (separated_over _),
      by simpa using hquotient, fun x => rfl⟩

theorem valueText_spec (ha : a.WellFormed) (hG : G.Lists dims) (hdims : dims.Nodup)
    (hnames : ∀ x ∈ dims, IsName x) :
    ∃ ls v, Writes (valueText a dims) (.mark .leftBracket :: .mark .leftParen ::
      (ls ++ [.mark .rightBracket])) ∧ Sum G (.mark .leftParen :: ls) v ∧
        ∀ x : Row, x.length = dims.length → v x = a.valueAt x := by
  have hknown : ∀ r ∈ a.ls.divs.rows, Division.isKnown r = true := List.all_eq_true.1 ha.allKnown
  have hquantified : (ColumnNames.ofLocalSpace dims a.ls).quantified = [] := by
    rw [← List.length_eq_zero_iff, length_quantified_ofLocalSpace]
    exact List.countP_eq_zero.2 fun r hr => by simp [hknown r hr]
  obtain ⟨us, hus, hvalues⟩ := columns_ofLocalSpace (G := G) hdims hnames
    (fun r hr => (ha.positive r hr).le) (by rwa [hquantified, List.append_nil])
  have hat : ∀ x : Row, x.length = dims.length →
      (a.numerator.dot (1 :: valuesAt us x) : ℚ) / a.denominator = a.valueAt x := by
    intro x hx
    have hassigned := hvalues x [] hx
    rw [List.append_nil] at hassigned
    rw [hassigned, ← LocalSpace.floors_eq_assigned hknown]
    rfl
  obtain ⟨ls, v, hls, hsum, hv⟩ := quotientText_spec hus ha.denominator
  have hparen := Sum.summands (.term (.factor (.operand (.paren hsum))) .done)
  rw [List.append_nil] at hparen
  refine ⟨_, _, ?_, hparen, fun x hx => by rw [add_zero, hv, hat x hx]⟩
  rw [valueText_eq]
  exact hls.inParens.inBrackets

end Printer

namespace Piece

variable {fails : Prop} {F : Frame} {P : Row → Prop} {s t : Space} {p : Piece}

theorem valueAt_eq_under {C : Row → Prop} {v : Row → ℚ} (hs : s.Proper) (hp : p.LiesIn s)
    (ht : t.Proper) (hagrees : s.agrees t = true)
    (hC : ∀ x : Row, x.length = s.total → (C x ↔ x ∈ p.domain))
    (hv : ∀ x : Row, x.length = s.total → v x = p.value.valueAt x) :
    p.valueAt = Value.under t.total C v := by
  rw [← Space.total_eq_of_agrees hagrees hs ht]
  funext x
  rw [Piece.valueAt, Value.under]
  by_cases hx : x ∈ p.domain
  · have hlength := (hp.domain.length_of_mem hx).trans
      (Space.total_eq_of_agrees hp.agrees hs hp.domain.proper).symm
    rw [if_pos hx, if_pos ⟨hlength, (hC x hlength).2 hx⟩, hv x hlength]
  · rw [if_neg hx, if_neg]
    rintro ⟨hlength, hcx⟩
    exact hx ((hC x hlength).1 hcx)

theorem pieceText_spec (fails : Prop) (hs : s.Writable) (hset : s.isSet = true) (hp : p.LiesIn s)
    (ht : p.domain.Tidy) (hF : F.Lists (s.namesOf s.names .param)) (hP : ∀ x, P x) :
    ∃ ls t C v, Writes (pieceText s p s.names) ls ∧ Phrase.Piece fails F P ls t C v ∧
      s.agrees t = true ∧
        p.valueAt = Value.under t.total (fun x => P (x.take F.size) ∧ C x) v := by
  have hnames : ∀ x ∈ s.names, IsName x := fun x => Space.isName_of_mem_names hs.names
  have hvalue := fun (G : Frame) (hG : G.Lists s.names) =>
    valueText_spec hp.value.wellFormed hG s.nodup_names hnames
  have hrestriction := fun (G : Frame) (hG : G.Lists s.names) (Q : Row → Prop) =>
    restrictionText_spec fails hG s.nodup_names hnames
      (Space.fits_names hs.proper hp.agrees hp.domain fun b hb => (ht b hb).consistent)
      (fun hfull : p.domain.isPlainlyFull = true => hfull) Q
  rw [s.length_names] at hvalue hrestriction
  have htext : pieceText s p s.names = s.mappedText s.names (valueText p.value s.names) ++
    restrictionText p.domain.isPlainlyFull p.domain.basics s.names := rfl
  have hparams := hs.params_eq_of_lists hF
  cases hblank : s.isParams with
  | true =>
    obtain ⟨-, hlists, houtput⟩ := hs.lists_of_isParams hblank hF
    obtain ⟨ls, v, hls, hsum, hv⟩ := hvalue F hlists
    obtain ⟨ls', C, hls', hsep, hC, hiff⟩ := hrestriction F hlists P
    have hagrees : s.agrees (.ofParams F.scope.names) = true :=
      (Space.agrees_iff _ _).2 ⟨hset, hparams, by rw [houtput]; rfl, .inl hset⟩
    refine ⟨_, _, C, v, ?_, .params hsum hC, hagrees, valueAt_eq_under hs.proper hp (fun _ => rfl)
      hagrees (fun x hx => by simp [hP, hiff x hx]; rfl) hv⟩
    rw [htext, Space.mappedText, Space.headText_of_isParams hblank]
    simpa using hls.append hls' hsep
  | false =>
    obtain ⟨ls, t, hls, ht, G, D, hD, hG, hall⟩ := Space.declares_set hs hset hF
    obtain ⟨ls', v, hls', hsum, hv⟩ := hvalue G hG
    obtain ⟨ls'', C, hls'', hsep, hC, hiff⟩ := hrestriction G hG fun x => P (x.take F.size) ∧ D x
    have hagrees : s.agrees (.ofSet F.scope.names t) = true :=
      (Space.agrees_iff _ _).2 ⟨hset, hparams, ht, .inl hset⟩
    obtain ⟨hhead, hne⟩ := Space.headText_of_not_isParams hblank s.names
    refine ⟨_, _, _, v, ?_, .domain hD (hD.startsDomain (.inl rfl) hG) hsum hC, hagrees,
      valueAt_eq_under hs.proper hp (Space.proper_ofSet _ _) hagrees
        (fun x hx => by simp [hP, hall, hiff x hx]; rfl) hv⟩
    have htuple : s.tuplesText s.names = s.output.text (s.namesOf s.names .output) := by
      rw [Space.tuplesText, if_pos hset]
    rw [htext, Space.mappedText, hne, hhead, htuple]
    simpa [toString, String.append_assoc] using
      separator_arrow.between hls (hls'.append hls'' hsep)

end Piece

/-- A space on which a function is defined may be written if its dimensions have names and a tuple
that is left out wraps nothing. -/
theorem Space.IsDomain.writable {s : Space} (h : s.IsDomain)
    (hnames : ∀ x, some x ∈ s.params ++ s.output.ids → IsName x)
    (hflat : s.isParams = true → s.output.parts? = none) : s.Writable where
  proper := h.proper
  params := h.params
  names x hx := by
    have hinput : s.input.ids = [] := List.length_eq_zero_iff.1 (h.proper h.isSet)
    rw [hinput, List.append_nil] at hx
    exact hnames x hx
  input hrelation := by
    rw [h.isSet] at hrelation
    cases hrelation
  output := h.output
  flat := hflat

namespace Piecewise

variable {f g : Piecewise} {s t : Space}

/-- The pieces that are written. A function without pieces is written as a value on the empty set. -/
def written (f : Piecewise) : List Piece :=
  if f.isEmpty then [⟨.empty f.space, .zero (.ofSpace f.space)⟩] else f.pieces

theorem text_eq (f : Piecewise) : f.text = f.space.braced f.space.names
    ("; ".intercalate (f.written.map (pieceText f.space · f.space.names))) := by
  rw [text, written]
  split <;> rfl

theorem exists_written (f : Piecewise) :
    ∃ p ps, f.written = p :: ps ∧ (ps ≠ [] → 1 < f.pieces.length) := by
  rw [written]
  cases hpieces : f.pieces with
  | nil => exact ⟨_, [], if_pos (List.isEmpty_iff.2 hpieces), fun hne => absurd rfl hne⟩
  | cons p ps =>
    refine ⟨p, ps, if_neg fun hempty => ?_, fun hne => ?_⟩
    · rw [List.isEmpty_iff.1 hempty] at hpieces
      cases hpieces
    · rw [List.length_cons]
      exact Nat.succ_lt_succ (List.length_pos_of_ne_nil hne)

/-- What is written is as well-formed as the function, and has the same values. -/
theorem Separate.sound_written (hf : f.Separate) (ht : f.Tidy) :
    (∀ p ∈ f.written, p.LiesIn f.space ∧ p.domain.Tidy) ∧
      Value.total (f.written.map Piece.valueAt) = f.valueAt := by
  rw [hf.valueAt_eq_total, written]
  cases hempty : f.isEmpty with
  | false => exact ⟨fun p hp => ⟨hf.pieces p hp, ht p hp⟩, rfl⟩
  | true =>
    have hzero : (Affine.zero (.ofSpace f.space)).WellFormed :=
      Affine.wellFormed_zero (Affine.denotes_const f.space 0).wellFormed
    have hlies : Piece.LiesIn f.space ⟨.empty f.space, .zero (.ofSpace f.space)⟩ :=
      ⟨Relation.wellFormed_empty hf.proper, f.space.agrees_refl, hzero, hf.proper,
        f.space.agrees_refl⟩
    refine ⟨List.forall_mem_singleton.2 ⟨hlies, Relation.tidy_empty _⟩, ?_⟩
    rw [List.isEmpty_iff.1 hempty]
    funext x
    refine Value.total_eq_none (List.forall_mem_singleton.2 (if_neg ?_))
    simp [Relation.mem_iff, Relation.empty]

theorem piecesText_spec (fails : Prop) {F : Frame} {P : Row → Prop} (hs : s.Writable)
    (hset : s.isSet = true) (hF : F.Lists (s.namesOf s.names .param)) (hP : ∀ x, P x) {p : Piece}
    {ps : List Piece} (h : ∀ p' ∈ p :: ps, p'.LiesIn s ∧ p'.domain.Tidy) :
    ∃ ls qs, Writes ("; ".intercalate ((p :: ps).map (pieceText s · s.names))) ls ∧
      Pieces fails F P ls qs ∧
        List.Forall₂ (fun p q => s.agrees q.1 = true ∧ p.valueAt = q.2) (p :: ps) qs := by
  induction ps generalizing p with
  | nil =>
    obtain ⟨hlies, ht⟩ := h p List.mem_cons_self
    obtain ⟨ls, t, C, v, hls, hpiece, hsaid⟩ := Piece.pieceText_spec fails hs hset hlies ht hF hP
    exact ⟨ls, _, by simpa using hls, .last hpiece, .cons hsaid .nil⟩
  | cons p' ps ih =>
    rw [List.forall_mem_cons] at h
    obtain ⟨ls, t, C, v, hls, hpiece, hsaid⟩ :=
      Piece.pieceText_spec fails hs hset h.1.1 h.1.2 hF hP
    obtain ⟨ls', qs, hls', hqs, hrest⟩ := ih h.2
    refine ⟨_, _, ?_, .more hpiece hqs, .cons hsaid hrest⟩
    simpa [String.append_assoc] using separator_semicolon.between hls hls'

/-- The text of a function on pieces that lie apart is read as the same function, unless two of its
pieces cannot be added. -/
theorem Separate.read_back (hf : f.Separate) (ht : f.Tidy) (hs : f.space.Writable)
    (hset : f.space.isSet = true) :
    (∃ g, (Reader.piecewise f.text).result = .ok g ∧ f.space.agrees g.space = true ∧
      g.valueAt = f.valueAt) ∨ 1 < f.pieces.length ∧
        (Reader.piecewise f.text).result = .error (.error (.unsupported .subtractingQuantified)) := by
  obtain ⟨hlies, hvalue⟩ := hf.sound_written ht
  obtain ⟨header, F, P, hheader, hF, hP, hspells⟩ := Space.braced_spec hs
  obtain ⟨p, ps, hps, hmany⟩ := f.exists_written
  rw [hps] at hlies hvalue
  obtain ⟨ls, qs, hls, hqs, hsaid⟩ := piecesText_spec (1 < f.pieces.length) hs hset hF hP hlies
  have hvalues : (p :: ps).map Piece.valueAt = qs.map Prod.snd := by
    rw [← List.forall₂_eq_eq_eq, List.forall₂_map_left_iff, List.forall₂_map_right_iff]
    exact hsaid.imp fun _ _ h => h.2
  cases hsaid with
  | @cons _ q _ qs hq hrest =>
    rw [hvalues, List.map_cons] at hvalue
    have hagrees : ∀ q' ∈ qs, q.1.agrees q'.1 = true :=
      forall_mem_of_forall₂ hrest fun _ _ _ h =>
        Space.agrees_trans (Space.agrees_symm hq.1) h.1
    have hne : qs ≠ [] → 1 < f.pieces.length := fun hne => hmany fun hnil => by
      rw [hnil] at hrest
      exact hne (List.forall₂_nil_left_iff.1 hrest)
    rw [text_eq, hps]
    refine (Reader.piecewise_spec hheader hqs hne hagrees (hspells hls)).imp_left ?_
    rintro ⟨g, hok, hg⟩
    exact ⟨g, hok, hg.space ▸ hq.1, hg.valueAt.trans hvalue⟩

end Piecewise

namespace Reader

/-- The text of a function that was read is read as the same partial function, if it is read at all;
and it is if the function has one piece at most. A dimension has to be called by one name, and a
tuple that is left out may not wrap others. -/
theorem piecewise_read_back {source : String} {f : Piecewise}
    (h : (piecewise source).result = .ok f)
    (hnames : ∀ x, some x ∈ f.space.params ++ f.space.output.ids → IsName x)
    (hflat : f.space.isParams = true → f.space.output.parts? = none) :
    (∀ g, (piecewise f.text).result = .ok g →
      f.space.agrees g.space = true ∧ ∀ x, g.valueAt x = f.valueAt x) ∧
    (f.pieces.length ≤ 1 → ∃ g, (piecewise f.text).result = .ok g) := by
  obtain ⟨hdomain, hregular⟩ := regular_of_piecewise h
  rcases (separate_piecewise h).read_back hregular.tidy (hdomain.writable hnames hflat) hdomain.isSet
    with ⟨g, hok, hspace, hvalue⟩ | ⟨hmany, herr⟩
  · refine ⟨fun g' hok' => ?_, fun _ => ⟨g, hok⟩⟩
    obtain rfl := Except.ok.inj (hok.symm.trans hok')
    exact ⟨hspace, fun x => congrFun hvalue x⟩
  · refine ⟨fun g hok => ?_, fun hone => absurd hmany (Nat.not_lt.2 hone)⟩
    rw [herr] at hok
    cases hok

def slopes : Piecewise :=
  let space := Space.ofSet [some "n"] (.flat (some "T") [some "x"])
  let set (row : Row) : Relation := ⟨space, [⟨.ofSpace space, [⟨row, .inequality⟩], false⟩]⟩
  ⟨space, [⟨set [-1, 0, 1], ⟨⟨space, ⟨5, [[3, 0, 1, 0, 0]]⟩⟩, [2, 0, 0, 1, 1]⟩⟩,
    ⟨set [0, 0, -1], ⟨.ofSpace space, [1, 0, 1, 0]⟩⟩]⟩

def slopesText : String :=
  "[n] -> \x7b T[x] -> [(x + [n/3])/2] : x > 0; T[x] -> [n] : x <= 0 \x7d"

theorem piecewise_read_back_slopes : (piecewise slopesText).result = .ok slopes ∧
    ∃ g, (piecewise slopes.text).result = .ok g ∧ slopes.space.agrees g.space = true ∧
      (∀ x, g.valueAt x = slopes.valueAt x) ∧ g.valueAt [7, 4] = some 3 := by
  have hread : (piecewise slopesText).result = .ok slopes := by
    have h : (match (piecewise slopesText).result with
      | .ok f => decide (f = slopes)
      | .error _ => false) = true := by decide +kernel
    split at h
    · rename_i f hf
      rw [hf, of_decide_eq_true h]
    · cases h
  have htext : slopes.text =
      "[n] -> \x7b T[x] -> [((x + [(n)/3])/2)] : x >= 1; T[x] -> [(n)] : 0 >= x \x7d" := by rfl
  have hagain : (piecewise slopes.text).result.isOk = true := by
    rw [htext]
    decide +kernel
  obtain ⟨g, hg⟩ : ∃ g, (piecewise slopes.text).result = .ok g := by
    cases hresult : (piecewise slopes.text).result with
    | ok g => exact ⟨g, rfl⟩
    | error e =>
      rw [hresult] at hagain
      cases hagain
  have hnames : ∀ x, some x ∈ slopes.space.params ++ slopes.space.output.ids → IsName x := by
    intro x hx
    simp [slopes, Space.ofSet, Tuple.ids] at hx
    rcases hx with rfl | rfl <;> rfl
  obtain ⟨hspace, hvalue⟩ := (piecewise_read_back hread hnames fun h => absurd h (by decide)).1 g hg
  refine ⟨hread, g, hg, hspace, hvalue, ?_⟩
  rw [hvalue, (separate_piecewise hread).valueAt_eq_some_iff]
  refine ⟨_, List.mem_cons_self, ⟨_, List.mem_singleton_self _, rfl, [], .nil _ _, rfl, ?_⟩, ?_⟩
  · decide
  · decide +kernel

end Reader

end Quasiaffine
