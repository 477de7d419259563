import Quasiaffine.Printer.Object
import Quasiaffine.Proofs.Printer.Columns
import Quasiaffine.Proofs.Relation.Subtraction

/-!
Written conditions. The condition of a basic relation quantifies the divisions that have no
definition, and leaves out what only says how the others are defined. It holds at the points of the
relation.
-/

set_option autoImplicit false

namespace Quasiaffine

/-- The points of a basic relation, by values for the divisions without a definition alone. -/
theorem BasicRelation.mem_iff_assigned {b : BasicRelation} {x : Row} (hb : b.WellFormed)
    (hcon : b.contradictory = false) (hx : x.length = b.space.total) :
    x ∈ b ↔ ∃ unknowns : Row, unknowns.length = LocalSpace.unknownCount b.ls.divs.rows ∧
      ∀ c ∈ b.constraints.filter fun c => !b.isDivBound c,
        c.isSatisfied (1 :: LocalSpace.assigned b.ls.divs.rows x unknowns) = true := by
  have hfollows := fun d : Row => LocalSpace.assigns_iff_follows (d := d) hb.divisions hx
  constructor
  · rintro ⟨-, d, hassigns, hadmits⟩
    obtain ⟨unknowns, hlength, hvalues⟩ := ((hfollows d).1 hassigns).exists_assigned
    refine ⟨unknowns, hlength, fun c hc => ?_⟩
    rw [hvalues]
    exact hadmits.satisfied c (List.mem_of_mem_filter hc)
  · rintro ⟨unknowns, -, hsat⟩
    obtain ⟨d, hvalues, hd⟩ := LocalSpace.exists_follows_assigned b.ls.divs.rows x unknowns
    have hassigns := (hfollows d).2 hd
    refine ⟨hx, d, hassigns, hcon, fun c hc => ?_⟩
    by_cases hbound : b.isDivBound c = true
    · exact isSatisfied_of_isDivBound hb (hb.width c hc) hbound hx hassigns
    · rw [← hvalues]
      exact hsat c (List.mem_filter.2 ⟨hc, by simpa using hbound⟩)

namespace Printer

open Phrase

variable {fails q : Prop} {F G : Frame} {P : Row → Prop} {dims columns : List String}
  {us : List (Row → ℤ)}

section Conjunctions

def conjunctionText (columns : List String) (cs : List Constraint) : String :=
  " and ".intercalate (cs.map fun c => constraintText c.row c.isEquality columns)

theorem conjunctionText_cons (h : List.Forall₂ (Column G) columns us) (c : Constraint)
    (cs : List Constraint) (P : Row → Prop) (last : Bool) :
    ∃ ls C, Writes (conjunctionText columns (c :: cs)) ls ∧ Conjunction fails q G P last ls C ∧
      ∀ x, C x ↔ ∀ c' ∈ c :: cs, c'.isSatisfied (1 :: valuesAt us x) = true := by
  induction cs generalizing c with
  | nil =>
    obtain ⟨ls, hls, hc⟩ := constraintText_spec h c
    exact ⟨ls, _, hls, .single (.plain (.comparisons hc)), fun x => by simp⟩
  | cons c' cs ih =>
    obtain ⟨ls, hls, hc⟩ := constraintText_spec h c
    obtain ⟨ls', C, hls', hC, hiff⟩ := ih c'
    refine ⟨_, _, ?_, .cons (.plain (.comparisons hc)) hC, fun x => ?_⟩
    · have hboth := separator_and.between hls hls'
      simpa [conjunctionText, String.append_assoc] using hboth
    · rw [hiff, List.forall_mem_cons (a := c)]

theorem conjunctionText_spec (h : List.Forall₂ (Column G) columns us) (cs : List Constraint)
    (P : Row → Prop) (last : Bool) :
    ∃ ls C, Writes (if cs.isEmpty then "true" else conjunctionText columns cs) ls ∧
      Conjunction fails q G P last ls C ∧
        ∀ x, C x ↔ ∀ c ∈ cs, c.isSatisfied (1 :: valuesAt us x) = true := by
  cases cs with
  | nil => exact ⟨_, _, writes_keyword .always, .single (.plain .always), fun x => by simp⟩
  | cons c cs => exact conjunctionText_cons h c cs P last

end Conjunctions

section Basics

theorem writes_exists {text : String} {xs : List String} {ls : List Lexeme}
    (hxs : ∀ x ∈ xs, IsName x) (h : Writes text ls) :
    Writes ("exists (" ++ ", ".intercalate xs ++ " : " ++ text ++ ")")
      (.keyword .exist true :: .mark .leftParen ::
        (nameTokens xs ++ .mark .colon :: (ls ++ [.mark .rightParen]))) := by
  have hinner := (separator_colon.between (writes_names hxs) h).inParens.blank
  have hword := hinner.cons (l := .keyword .exist true) (.keyword _) (fun a ha => ?_) fun _ => nofun
  · rw [List.append_assoc, List.cons_append] at hword
    have htext : "exists (" ++ ", ".intercalate xs ++ " : " ++ text ++ ")" =
        "exists" ++ (" " ++ ("(" ++ (", ".intercalate xs ++ (" : " ++ text) ++ ")"))) := by
      simp only [← String.append_assoc]
      rfl
    exact htext ▸ hword
  · rw [String.toList_append] at ha
    obtain ⟨⟩ := ha
    exact (Lexeme.Written.keyword .exist).endsBefore_blank

/-- What a basic relation has to be like to be written under names for its dimensions. -/
structure Fits (dims : List String) (b : BasicRelation) : Prop where
  wellFormed : b.WellFormed
  consistent : b.contradictory = false
  total : b.space.total = dims.length

theorem basicText_eq (b : BasicRelation) (dims : List String) :
    basicText b dims =
      let names := ColumnNames.ofLocalSpace dims b.ls
      let cs := b.constraints.filter fun c => !b.isDivBound c
      let body := if cs.isEmpty then "true" else conjunctionText names.columns cs
      if names.quantified.isEmpty then body
      else "exists (" ++ ", ".intercalate names.quantified ++ " : " ++ body ++ ")" := by
  simp only [basicText, conjunctionText, List.isEmpty_map]

/-- The text of a basic relation says which points belong to it. -/
theorem basicText_spec {b : BasicRelation} (hF : F.Lists dims) (hdims : dims.Nodup)
    (hnames : ∀ x ∈ dims, IsName x) (hb : Fits dims b) (P : Row → Prop) (last : Bool) :
    ∃ ls C, Writes (basicText b dims) ls ∧ Conjunction fails True F P last ls C ∧
      ∀ x : Row, x.length = dims.length → (C x ↔ x ∈ b) := by
  have hnew := new_ofLocalSpace hdims b.ls
  have hcount := length_quantified_ofLocalSpace dims b.ls
  rw [basicText_eq]
  by_cases hq : (ColumnNames.ofLocalSpace dims b.ls).quantified = []
  · obtain ⟨us, hus, hvalues⟩ := columns_ofLocalSpace (G := F) hdims hnames hb.wellFormed.positive
      (by rwa [hq, List.append_nil])
    obtain ⟨ls, C, hls, hC, hiff⟩ := conjunctionText_spec hus
      (b.constraints.filter fun c => !b.isDivBound c) P last
    refine ⟨ls, C, by simpa only [hq, List.isEmpty_nil, if_true] using hls, hC, fun x hx => ?_⟩
    have hat := hvalues x [] hx
    rw [List.append_nil] at hat
    rw [hiff, hat, BasicRelation.mem_iff_assigned hb.wellFormed hb.consistent
      (hx.trans hb.total.symm), ← hcount, hq]
    simp
  · obtain ⟨G, D, hD, hG, hall⟩ := declares_variables hF hnew.nodup hq
    obtain ⟨us, hus, hvalues⟩ := columns_ofLocalSpace hdims hnames hb.wellFormed.positive hG
    obtain ⟨ls, C, hls, hC, hiff⟩ := conjunctionText_spec hus
      (b.constraints.filter fun c => !b.isDivBound c) (fun x => P (x.take F.size) ∧ D x) true
    refine ⟨_, _, ?_, .single (.plain (.existParen trivial hD (.single hC))), fun x hx => ?_⟩
    · simpa only [List.isEmpty_iff, hq, if_false] using writes_exists hnew.names hls
    · have hsize : G.size - F.size = LocalSpace.unknownCount b.ls.divs.rows := by
        rw [hG.size, hF.size, List.length_append, Nat.add_sub_cancel_left, hcount]
      rw [BasicRelation.mem_iff_assigned hb.wellFormed hb.consistent (hx.trans hb.total.symm)]
      simp only [hsize, hall, true_and, hiff, hvalues x _ hx]

end Basics

theorem disjunctionText_spec (fails : Prop) {bs : List BasicRelation} (hF : F.Lists dims)
    (hdims : dims.Nodup) (hnames : ∀ x ∈ dims, IsName x) (hbs : ∀ b ∈ bs, Fits dims b)
    (P : Row → Prop) :
    ∃ ls C, Writes (disjunctionText bs dims) ls ∧ Condition fails True F P ls C ∧
      ∀ x : Row, x.length = dims.length → (C x ↔ ∃ b ∈ bs, x ∈ b) := by
  cases bs with
  | nil => exact ⟨_, _, writes_keyword .never, .single (.single (.plain .never)), by simp⟩
  | cons b bs =>
    rw [disjunctionText, if_neg (by simp)]
    induction bs generalizing b with
    | nil =>
      obtain ⟨ls, C, hls, hC, hiff⟩ := basicText_spec hF hdims hnames (hbs b (by simp)) P true
      exact ⟨ls, C, by simpa using hls, .single hC, fun x hx => by simp [hiff x hx]⟩
    | cons b' bs ih =>
      rw [List.forall_mem_cons] at hbs
      obtain ⟨ls, C, hls, hC, hiff⟩ := basicText_spec hF hdims hnames hbs.1 P false
      obtain ⟨ls', C', hls', hC', hiff'⟩ := ih b' hbs.2
      refine ⟨_, _, ?_, .cons hC hC', fun x hx => ?_⟩
      · simpa [String.append_assoc] using separator_or.between hls hls'
      · rw [hiff x hx, hiff' x hx, List.exists_mem_cons_iff (a := b)]

def restrictionText (full : Bool) (bs : List BasicRelation) (dims : List String) : String :=
  if full then "" else " : " ++ disjunctionText bs dims

theorem mem_of_isPlainlyFull {b : BasicRelation} {x : Row} (h : b.isPlainlyFull = true)
    (hx : x.length = b.space.total) : x ∈ b := by
  simp only [BasicRelation.isPlainlyFull, Bool.and_eq_true, Bool.not_eq_true', List.isEmpty_iff,
    beq_iff_eq] at h
  obtain ⟨⟨hcon, hconstraints⟩, hdivs⟩ := h
  obtain hrows := List.eq_nil_of_length_eq_zero hdivs
  refine ⟨hx, [], ⟨by rw [hrows]; rfl, by simp [hrows]⟩, hcon, by simp [hconstraints]⟩

theorem restrictionText_spec (fails : Prop) {bs : List BasicRelation} {full : Bool}
    (hF : F.Lists dims) (hdims : dims.Nodup) (hnames : ∀ x ∈ dims, IsName x)
    (hbs : ∀ b ∈ bs, Fits dims b) (hfull : full = true → bs.any (·.isPlainlyFull) = true)
    (P : Row → Prop) :
    ∃ ls C, Writes (restrictionText full bs dims) ls ∧ Separated (restrictionText full bs dims) ∧
      Restriction fails F P ls C ∧
        ∀ x : Row, x.length = dims.length → (C x ↔ ∃ b ∈ bs, x ∈ b) := by
  cases full with
  | true =>
    obtain ⟨b, hb, hall⟩ := List.any_eq_true.1 (hfull rfl)
    exact ⟨_, _, writes_empty, nofun, .none, fun x hx => iff_of_true trivial
      ⟨b, hb, mem_of_isPlainlyFull hall (hx.trans (hbs b hb).total.symm)⟩⟩
  | false =>
    obtain ⟨ls, C, hls, hC, hiff⟩ := disjunctionText_spec fails hF hdims hnames hbs P
    exact ⟨_, C, separator_colon.writes hls, separator_colon.separated _, .condition hC, hiff⟩

end Printer

end Quasiaffine
