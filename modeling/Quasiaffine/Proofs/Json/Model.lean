import Quasiaffine.Json.Model
import Quasiaffine.Proofs.Json.Text

/-!
Whatever is written as JSON is read back as it was, compact or indented, as far as lists and objects
may be nested. What is nested more deeply is refused.
-/

set_option autoImplicit false

namespace Quasiaffine

namespace Json

/-- What is written for a value is read as the value, and no longer once a part of it is cut off. -/
structure Codes {α : Type} (read : Json → Option α) (j : Json) (x : α) : Prop where
  plain : j.isPlain = true
  within : ∀ room, read (j.within room) = if j.depth ≤ room then some x else none

variable {α β : Type} {read : Json → Option α} {j : Json} {x : α} {xs : List α}
  {json : α → Json} {layout : Layout}

theorem Codes.parse (h : Codes read j x) (hl : layout.Blank) :
    (parse? (String.ofList (j.write layout 0))).bind read =
      if j.depth ≤ maxNesting then some x else none := by
  rw [parse?_write hl h.plain, Option.bind_some, h.within]

theorem Codes.parse_texts (h : Codes read j x) :
    ∀ text ∈ [j.compact, j.indented],
      (parse? text).bind read = if j.depth ≤ maxNesting then some x else none := by
  intro text htext
  rcases List.mem_cons.1 htext with rfl | htext
  · exact h.parse Layout.blank_compact
  · rw [List.mem_singleton.1 htext]
    exact h.parse Layout.blank_indented

theorem bind_ite_some {p : Prop} [Decidable p] (x : α) (f : α → Option β) :
    (if p then some x else none).bind f = if p then f x else none := by
  split <;> rfl

theorem codes_list {js : List Json} (hplain : arePlain js = true) (hforeign : read foreign = none)
    (hwithin : ∀ room, read (list (elementsWithin room js)) =
      if depthOfElements js ≤ room then some x else none) : Codes read (list js) x := by
  refine ⟨by rw [isPlain, hplain], fun room => ?_⟩
  cases room with
  | zero => simp [within, hforeign, depth]
  | succ room => simp [within, hwithin, depth]

theorem codes_object {fs : List (String × Json)} (hplain : fieldsArePlain fs = true)
    (hforeign : read foreign = none)
    (hwithin : ∀ room, read (object (fieldsWithin room fs)) =
      if depthOfFields fs ≤ room then some x else none) : Codes read (object fs) x := by
  refine ⟨by rw [isPlain, hplain], fun room => ?_⟩
  cases room with
  | zero => simp [within, hforeign, depth]
  | succ room => simp [within, hwithin, depth]

theorem codes_pair {γ : Type} {a b : String} {f : α → β → γ} {readLeft : Json → Option α}
    {readRight : Json → Option β} {readBoth : Json → Option γ} {k : Json} {y : β}
    (hread : ∀ j k, readBoth (object [(a, j), (b, k)]) =
      (readLeft j).bind fun x => (readRight k).bind fun y => some (f x y))
    (hforeign : readBoth foreign = none) (hx : Codes readLeft j x) (hy : Codes readRight k y) :
    Codes readBoth (object [(a, j), (b, k)]) (f x y) := by
  refine codes_object (by simp [fieldsArePlain, hx.plain, hy.plain]) hforeign fun room => ?_
  simp [fieldsWithin, hread, hx.within, hy.within, depthOfFields, bind_ite_some, ite_and]

theorem codes_elements (h : ∀ x ∈ xs, Codes read (json x) x) :
    Codes (elements? read) (list (xs.map json)) xs := by
  refine codes_list ?_ rfl fun room => ?_
  · induction xs with
    | nil => rfl
    | cons x xs ih =>
      rw [List.forall_mem_cons] at h
      rw [List.map_cons, arePlain, h.1.plain, ih h.2]
      rfl
  · rw [elements?]
    induction xs with
    | nil => simp [elementsWithin, depthOfElements]
    | cons x xs ih =>
      rw [List.forall_mem_cons] at h
      simp only [List.map_cons, elementsWithin, List.mapM_cons, h.1.within, ih h.2,
        Option.bind_eq_bind, bind_ite_some, depthOfElements, Nat.max_le, ite_and]
      rfl

theorem codes_boolean (b : Bool) : Codes boolean? (boolean b) b :=
  ⟨rfl, fun room => by simp [within, boolean?, depth]⟩

theorem codes_natural {bound n : Nat} (h : n < bound) : Codes (natural? bound) (integer n) n :=
  ⟨rfl, fun room => by simp [within, natural?_natCast h, depth]⟩

theorem codes_int (n : Int) : Codes int? (ofInt n) n := by
  have hwords : Codes (elements? (natural? Words.base))
      (list ((Words.ofNat n.natAbs).map fun w : Nat => integer w)) (Words.ofNat n.natAbs) :=
    codes_elements fun w hw => codes_natural (Words.lt_base_of_mem_ofNat hw)
  have hread := int?_ofInt n
  have hroom := hwords.within (list ((Words.ofNat n.natAbs).map fun w : Nat => integer w)).depth
  rw [within_of_depth_le (Nat.le_refl _), if_pos (Nat.le_refl _)] at hroom
  simp only [ofInt, int?, hroom, Option.bind_eq_bind, Option.bind_some] at hread
  refine codes_list (by simp [arePlain, hwords.plain, isPlain.eq_def (integer n.sign)]) rfl
    fun room => ?_
  have hsign : (integer n.sign).within room = integer n.sign := within_of_depth_le (Nat.zero_le _)
  simp only [elementsWithin, hsign, int?, hwords.within, Option.bind_eq_bind, bind_ite_some, hread]
  simp [depthOfElements, depth.eq_def (integer n.sign)]

end Json

theorem Label.codes (l : Label) : Json.Codes Label.ofJson? l.json l := by
  cases l <;> exact ⟨rfl, fun room => by simp [Label.json, Json.within, Label.ofJson?, Json.depth]⟩

theorem Label.codes_list (labels : List Label) :
    Json.Codes Label.listOfJson? (Label.listJson labels) labels :=
  Json.codes_elements fun l _ => l.codes

theorem Row.codes (r : Row) : Json.Codes Row.ofJson? r.json r :=
  Json.codes_elements fun n _ => Json.codes_int n

theorem Matrix.codes {m : Matrix} (h : m.columns < Matrix.columnBound) :
    Json.Codes Matrix.ofJson? m.json m := by
  refine Json.codes_pair (f := Matrix.mk) (fun columns rows => ?_) rfl (Json.codes_natural h)
    (Json.codes_elements fun r _ => r.codes)
  have hfields : Json.fields? ["n_col", "rows"] (.object [("n_col", columns), ("rows", rows)]) =
      some [some columns, some rows] := by
    simp [Json.fields?, Json.fieldsFrom?, List.lookup_cons]
  rw [Matrix.ofJson?, hfields]
  rfl

namespace Tuple

theorem plain_json (t : Tuple) : t.json.isPlain = true := by
  induction t with
  | flat name ids =>
    simp [json, Json.isPlain.eq_def (.object _), Json.fieldsArePlain, name.codes.plain,
      (Label.codes_list ids).plain, Json.isPlain.eq_def .null]
  | wrapping name ids domain range hdomain hrange =>
    simp [json, Json.isPlain.eq_def (.object _), Json.fieldsArePlain, name.codes.plain,
      (Label.codes_list ids).plain, Json.isPlain.eq_def (.list _), Json.arePlain, hdomain, hrange]

theorem ofJsonWithin?_object (depth : Nat) (name ids nested : Json) :
    ofJsonWithin? (depth + 1) (.object [("name", name), ("ids", ids), ("nested", nested)]) =
      (Label.ofJson? name).bind fun name => (Label.listOfJson? ids).bind fun ids =>
        match nested with
        | .null => some (flat name ids)
        | .list [domain, range] =>
          (ofJsonWithin? depth domain).bind fun domain =>
            (ofJsonWithin? depth range).bind fun range => some (wrapping name ids domain range)
        | _ => none := by
  have hfields : Json.fields? ["name", "ids", "nested"]
      (.object [("name", name), ("ids", ids), ("nested", nested)]) =
        some [some name, some ids, some nested] := by
    simp [Json.fields?, Json.fieldsFrom?, List.lookup_cons]
  rw [ofJsonWithin?, hfields]
  rfl

def wraps : Tuple → Nat
  | flat _ _ => 0
  | wrapping _ _ domain range => max domain.wraps range.wraps + 1

theorem depth_label (l : Label) : l.json.depth = 0 := by cases l <;> rfl

/-- The names of dimensions are cut off before any tuple that is wrapped. -/
theorem ofJsonWithin?_of_labels {name : Label} {ids : List Label} {nested : Json} {room : Nat}
    (h : room < (Label.listJson ids).depth) (depth : Nat) :
    ofJsonWithin? (depth + 1) (.object (Json.fieldsWithin room
      [("name", name.json), ("ids", Label.listJson ids), ("nested", nested)])) = none := by
  have hids : ¬(Label.listJson ids).depth ≤ room := by omega
  simp only [Json.fieldsWithin, ofJsonWithin?_object, name.codes.within,
    (Label.codes_list ids).within, hids, if_false, Option.bind_none]
  cases (if name.json.depth ≤ room then some name else none : Option Label) <;> rfl

/-- A tuple of which a part is cut off is refused. -/
theorem ofJsonWithin?_within {t : Tuple} {room : Nat} (h : room < t.json.depth) (depth : Nat) :
    ofJsonWithin? depth (t.json.within room) = none := by
  induction t generalizing room depth with
  | flat name ids =>
    rcases depth with - | depth
    · rfl
    · rcases room with - | room
      · rfl
      · simp only [json, Json.depth.eq_def (.object _), Json.depthOfFields, depth_label] at h
        simp only [Json.depth.eq_def .null] at h
        exact ofJsonWithin?_of_labels (by omega) depth
  | wrapping name ids domain range ihDomain ihRange =>
    rcases depth with - | depth
    · rfl
    · rcases room with - | room
      · rfl
      · by_cases hids : room < (Label.listJson ids).depth
        · exact ofJsonWithin?_of_labels hids depth
        · obtain ⟨room, rfl⟩ : ∃ m, room = m + 1 := ⟨room - 1, by
            simp only [Label.listJson, Json.depth] at hids
            omega⟩
          simp only [json, Json.depth.eq_def (.object _), Json.depth.eq_def (.list [_, _]),
            Json.depthOfFields, Json.depthOfElements, depth_label] at h
          have hparts : ofJsonWithin? depth (domain.json.within room) = none ∨
              ofJsonWithin? depth (range.json.within room) = none := by
            by_cases hdomain : room < domain.json.depth
            · exact .inl (ihDomain hdomain depth)
            · exact .inr (ihRange (by omega) depth)
          have hnested : (Json.list [domain.json, range.json]).within (room + 1) =
              .list [domain.json.within room, range.json.within room] := by
            simp [Json.within.eq_def _ (.list [_, _]), Json.elementsWithin]
          simp only [json, Json.within.eq_def _ (.object _), Nat.succ_ne_zero, if_false,
            Nat.add_sub_cancel, Json.fieldsWithin, ofJsonWithin?_object, hnested, name.codes.within,
            (Label.codes_list ids).within, Json.bind_ite_some]
          rcases hparts with hnone | hnone
          · simp [hnone]
          · cases ofJsonWithin? depth (domain.json.within room) <;> simp [hnone]

theorem depth_labels (labels : List Label) : (Label.listJson labels).depth = 1 := by
  have helements : Json.depthOfElements (labels.map Label.json) = 0 := by
    induction labels with
    | nil => rfl
    | cons l labels ih => rw [List.map_cons, Json.depthOfElements, depth_label, ih, Nat.max_self]
  rw [Label.listJson, Json.depth, helements]

theorem depth_json (t : Tuple) : t.json.depth = 2 * t.wraps + 2 := by
  induction t with
  | flat name ids =>
    simp [json, wraps, Json.depth.eq_def (.object _), Json.depthOfFields, depth_label, depth_labels,
      Json.depth.eq_def .null]
  | wrapping name ids domain range hdomain hrange =>
    simp only [json, wraps, Json.depth.eq_def (.object _), Json.depth.eq_def (.list [_, _]),
      Json.depthOfFields, Json.depthOfElements, depth_label, depth_labels, hdomain, hrange]
    omega

theorem codes (t : Tuple) : Json.Codes ofJson? t.json t := by
  refine ⟨t.plain_json, fun room => ?_⟩
  split
  · rename_i h
    rw [Json.within_of_depth_le h, ofJson?_json]
  · rename_i h
    exact ofJsonWithin?_within (by omega) _

end Tuple

theorem Space.codes (s : Space) : Json.Codes Space.ofJson? s.json s := by
  refine Json.codes_object (by simp [Json.fieldsArePlain, (Label.codes_list s.params).plain,
    s.input.codes.plain, s.output.codes.plain, (Json.codes_boolean s.isSet).plain]) rfl fun room => ?_
  simp [Space.ofJson?, Json.fieldsWithin, Json.fields?, Json.fieldsFrom?, List.lookup_cons,
    (Label.codes_list s.params).within, s.input.codes.within, s.output.codes.within,
    (Json.codes_boolean s.isSet).within, Json.depthOfFields, Json.bind_ite_some, ite_and]

def LocalSpace.Sized (ls : LocalSpace) : Prop := ls.divs.columns < Matrix.columnBound

theorem LocalSpace.Sized.codes {ls : LocalSpace} (h : ls.Sized) :
    Json.Codes LocalSpace.ofJson? ls.json ls := by
  refine Json.codes_pair (f := LocalSpace.mk) (fun space divs => ?_) rfl ls.space.codes
    (Matrix.codes h)
  simp [LocalSpace.ofJson?, Json.fields?, Json.fieldsFrom?, List.lookup_cons]

theorem Affine.codes {a : Affine} (h : a.ls.Sized) : Json.Codes Affine.ofJson? a.json a := by
  refine Json.codes_pair (f := Affine.mk) (fun ls row => ?_) rfl h.codes a.row.codes
  simp [Affine.ofJson?, Json.fields?, Json.fieldsFrom?, List.lookup_cons]

theorem ConstraintKind.codes (kind : ConstraintKind) :
    Json.Codes ConstraintKind.ofJson? kind.json kind := by
  cases kind <;> exact ⟨rfl, fun room => by
    simp [ConstraintKind.json, Json.within, ConstraintKind.ofJson?, Json.depth]⟩

theorem Constraint.codes (c : Constraint) : Json.Codes Constraint.ofJson? c.json c := by
  refine Json.codes_pair (f := Constraint.mk) (fun row kind => ?_) rfl c.row.codes c.kind.codes
  simp [Constraint.ofJson?, Json.fields?, Json.fieldsFrom?, List.lookup_cons]

theorem BasicRelation.codes {b : BasicRelation} (h : b.ls.Sized) :
    Json.Codes BasicRelation.ofJson? b.json b := by
  have hls := h.codes
  have hconstraints := Json.codes_elements fun c (_ : c ∈ b.constraints) => c.codes
  have hcontradictory := Json.codes_boolean b.contradictory
  refine Json.codes_object (by
    simp [Json.fieldsArePlain, hls.plain, hconstraints.plain, hcontradictory.plain]) rfl
    fun room => ?_
  simp [BasicRelation.ofJson?, Json.fieldsWithin, Json.fields?, Json.fieldsFrom?, List.lookup_cons,
    hls.within, hconstraints.within, hcontradictory.within, Json.depthOfFields, Json.bind_ite_some,
    ite_and]

def Relation.Sized (r : Relation) : Prop := ∀ b ∈ r.basics, b.ls.Sized

theorem Relation.Sized.codes {r : Relation} (h : r.Sized) :
    Json.Codes Relation.ofJson? r.json r := by
  refine Json.codes_pair (f := Relation.mk) (fun space basics => ?_) rfl r.space.codes
    (Json.codes_elements fun b hb => BasicRelation.codes (h b hb))
  simp [Relation.ofJson?, Json.fields?, Json.fieldsFrom?, List.lookup_cons]

def RelationUnion.Sized (u : RelationUnion) : Prop := ∀ r ∈ u.members, r.Sized

theorem RelationUnion.Sized.codes {u : RelationUnion} (h : u.Sized) :
    Json.Codes RelationUnion.ofJson? u.json u := by
  have hmembers := Json.codes_elements fun r hr => (h r hr).codes
  refine Json.codes_object (by simp [Json.fieldsArePlain, hmembers.plain]) rfl fun room => ?_
  simp [RelationUnion.ofJson?, Json.fieldsWithin, Json.fields?, Json.fieldsFrom?, List.lookup_cons,
    hmembers.within, Json.depthOfFields, Json.bind_ite_some]

def Piece.Sized (p : Piece) : Prop := p.domain.Sized ∧ p.value.ls.Sized

theorem Piece.Sized.codes {p : Piece} (h : p.Sized) : Json.Codes Piece.ofJson? p.json p := by
  have hdomain := h.1.codes
  have hvalue := Affine.codes h.2
  refine Json.codes_list (by simp [Json.arePlain, hdomain.plain, hvalue.plain]) rfl fun room => ?_
  simp [Piece.ofJson?, Json.elementsWithin, hdomain.within, hvalue.within, Json.depthOfElements,
    Json.bind_ite_some, ite_and]

def Piecewise.Sized (f : Piecewise) : Prop := ∀ p ∈ f.pieces, p.Sized

theorem Piecewise.Sized.codes {f : Piecewise} (h : f.Sized) :
    Json.Codes Piecewise.ofJson? f.json f := by
  refine Json.codes_pair (f := Piecewise.mk) (fun space pieces => ?_) rfl f.space.codes
    (Json.codes_elements fun p hp => (h p hp).codes)
  simp [Piecewise.ofJson?, Json.fields?, Json.fieldsFrom?, List.lookup_cons]

/-- Relations, unions and piecewise functions, with any names, integers and tuples, are read back from
both of their texts if no more than `maxNesting` lists and objects stand one inside the other. Every
tuple that wraps others adds two of them. A value that is nested more deeply is refused. -/
theorem json_read_back :
    (∀ r : Relation, r.Sized → ∀ text ∈ [r.json.compact, r.json.indented],
      (Json.parse? text).bind Relation.ofJson? =
        if r.json.depth ≤ Json.maxNesting then some r else none) ∧
    (∀ u : RelationUnion, u.Sized → ∀ text ∈ [u.json.compact, u.json.indented],
      (Json.parse? text).bind RelationUnion.ofJson? =
        if u.json.depth ≤ Json.maxNesting then some u else none) ∧
    (∀ f : Piecewise, f.Sized → ∀ text ∈ [f.json.compact, f.json.indented],
      (Json.parse? text).bind Piecewise.ofJson? =
        if f.json.depth ≤ Json.maxNesting then some f else none) ∧
    ∀ t : Tuple, t.json.depth = 2 * t.wraps + 2 := by
  refine ⟨fun r h => h.codes.parse_texts, fun u h => h.codes.parse_texts,
    fun f h => h.codes.parse_texts, Tuple.depth_json⟩

def halfLine : Relation :=
  let space : Space := .ofSet [some "N"] (.flat (some "a\tb") [some "é"])
  ⟨space, [⟨.ofSpace space, [⟨[-4294967296, 1, -1], .inequality⟩], false⟩]⟩

theorem json_read_back_halfLine :
    halfLine.Sized ∧ (Json.parse? halfLine.json.compact).bind Relation.ofJson? = some halfLine ∧
      (Json.parse? halfLine.json.indented).bind Relation.ofJson? = some halfLine := by
  have hsized : halfLine.Sized := List.forall_mem_singleton.2 (by
    rw [LocalSpace.Sized]
    decide)
  have hdepth : halfLine.json.depth ≤ Json.maxNesting := by decide +kernel
  have hread := json_read_back.1 halfLine hsized
  rw [if_pos hdepth] at hread
  exact ⟨hsized, hread _ (by simp), hread _ (by simp)⟩

def wrapped : Nat → Tuple
  | 0 => .unit
  | n + 1 => .wrapping none [] (wrapped n) .unit

def deepSet : Relation := .empty (.ofSet [] (wrapped 62))

/-- Texts that nest lists and objects too deeply for the reader are still written. -/
theorem deepSet_refused :
    deepSet.Sized ∧ (Json.parse? deepSet.json.compact).bind Relation.ofJson? = none ∧
      (Json.parse? deepSet.json.indented).bind Relation.ofJson? = none := by
  have hsized : deepSet.Sized := nofun
  have hdepth : ¬deepSet.json.depth ≤ Json.maxNesting := by decide +kernel
  have hread := hsized.codes.parse_texts
  rw [if_neg hdepth] at hread
  exact ⟨hsized, hread _ (by simp), hread _ (by simp)⟩

end Quasiaffine
