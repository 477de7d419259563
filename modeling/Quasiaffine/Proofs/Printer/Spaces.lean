import Quasiaffine.Proofs.Printer.Conditions
import Quasiaffine.Proofs.Printer.Names

set_option autoImplicit false

namespace Quasiaffine

open Phrase

/-- A space that its text tells in full: parameters have names of their own, each name is one word,
and a tuple that is left out wraps nothing. -/
structure Space.Writable (s : Space) : Prop where
  proper : s.Proper
  params : ∃ xs : List String, xs.Nodup ∧ s.params = xs.map some
  names : ∀ x, some x ∈ s.params ++ s.input.ids ++ s.output.ids → IsName x
  input : s.isSet = false → s.input.Writable
  output : s.output.Writable
  flat : s.isParams = true → s.output.parts? = none

namespace Space

variable {s : Space}

section Parts

theorem length_namesOf (s : Space) (kind : DimKind) (hk : kind ≠ .div) :
    (s.namesOf s.names kind).length = s.dim kind := by
  rw [namesOf, List.length_take, List.length_drop, s.length_names]
  have hle := s.offset_add_dim_le hk
  omega

theorem names_eq_append (s : Space) : s.names =
    s.namesOf s.names .param ++ s.namesOf s.names .input ++ s.namesOf s.names .output := by
  have hlast : s.namesOf s.names .output = s.names.drop (s.offset .output) := by
    refine List.take_of_length_le ?_
    rw [List.length_drop, s.length_names]
    exact Nat.le_of_eq (Nat.sub_eq_of_eq_add' rfl)
  have hoffset : s.offset .output = s.offset .input + s.dim .input := rfl
  rw [hlast, hoffset, ← List.drop_drop, List.append_assoc, namesOf, namesOf,
    List.take_append_drop]
  exact (List.take_append_drop _ _).symm

theorem namesOf_input_of_isSet (hs : s.Proper) (hset : s.isSet = true) :
    s.namesOf s.names .input = [] := by
  rw [← List.length_eq_zero_iff, s.length_namesOf .input nofun]
  exact hs hset

theorem isName_of_mem_namesOf (h : s.Writable) (kind : DimKind) :
    ∀ x ∈ s.namesOf s.names kind, IsName x := fun _ hx =>
  isName_of_mem_names h.names (List.mem_of_mem_drop (List.mem_of_mem_take hx))

theorem Writable.params_eq (h : s.Writable) : s.params = (s.namesOf s.names .param).map some := by
  obtain ⟨xs, hnodup, hparams⟩ := h.params
  have htake : s.namesOf s.names .param = xs := take_names hparams hnodup
  rw [htake, hparams]

theorem Writable.params_eq_of_lists {F : Frame} (h : s.Writable)
    (hF : F.Lists (s.namesOf s.names .param)) : s.params = F.scope.names :=
  h.params_eq.trans hF.symm

theorem Writable.lists_of_isParams {F : Frame} (h : s.Writable) (hblank : s.isParams = true)
    (hF : F.Lists (s.namesOf s.names .param)) :
    s.isSet = true ∧ F.Lists s.names ∧ s.output = .unit := by
  have hflat := h.flat hblank
  simp only [isParams, Bool.and_eq_true, List.isEmpty_iff, Option.isNone_iff_eq_none] at hblank
  obtain ⟨⟨hset, hids⟩, hname⟩ := hblank
  have houtput : s.namesOf s.names .output = [] := by
    rw [← List.length_eq_zero_iff, s.length_namesOf .output nofun]
    exact congrArg List.length hids
  refine ⟨hset, ?_, ?_⟩
  · rwa [s.names_eq_append, namesOf_input_of_isSet h.proper hset, houtput, List.append_nil,
      List.append_nil]
  · cases ht : s.output with
    | flat name ids =>
      rw [ht] at hids hname
      exact congrArg₂ Tuple.flat hname hids
    | wrapping =>
      rw [ht] at hflat
      cases hflat

end Parts

theorem fits_names {r : Relation} (hs : s.Proper) (hagrees : s.agrees r.space = true)
    (hr : r.WellFormed) (hconsistent : ∀ b ∈ r.basics, b.contradictory = false) :
    ∀ b ∈ r.basics, Printer.Fits s.names b := fun b hb => by
  have hlies := hr.basics b hb
  refine ⟨hlies.wellFormed, hconsistent b hb, ?_⟩
  rw [s.length_names, total_eq_of_agrees hagrees hs hr.proper, hlies.total_eq hr.proper]

section Heads

theorem headText_of_isParams (h : s.isParams = true) (names : List String) :
    s.headText names = "" := by
  simp [headText, h]

theorem headText_of_not_isParams (h : s.isParams = false) (names : List String) :
    s.headText names = s.tuplesText names ∧ (s.headText names).isEmpty = false := by
  have hhead : s.headText names = s.tuplesText names := by simp [headText, h]
  have htext : ∀ (t : Tuple) (names : List String), t.text names ≠ "" := fun t names => by
    cases t <;> simp [Tuple.text]
  refine ⟨hhead, ?_⟩
  rw [hhead, Bool.eq_false_iff, Ne, String.isEmpty_iff, tuplesText]
  split <;> simp [htext]

end Heads

section Header

theorem braced_spec (h : s.Writable) : ∃ header F P, Header header F P ∧
    F.Lists (s.namesOf s.names .param) ∧ (∀ x, P x) ∧
      ∀ {body : String} {ls : List Lexeme}, Writes body ls →
        Spells (s.braced s.names body).toList
          (header ++ .mark .leftBrace :: (ls ++ [.mark .rightBrace, .endOfInput])) := by
  have hbraces : ∀ {body : String} {ls : List Lexeme}, Writes body ls →
      Writes ("\x7b " ++ (body ++ " \x7d")) (.mark .leftBrace :: (ls ++ [.mark .rightBrace])) := by
    intro body ls hw
    have hclose := (writes_token (l := .mark .rightBrace) (.mark nofun) nofun).blank
    exact (hw.append hclose (separated_blank _)).markBlank .leftBrace (by decide)
  by_cases hparams : s.params = []
  · have hnames : s.namesOf s.names .param = [] := by
      rw [← List.length_eq_zero_iff, s.length_namesOf .param nofun]
      exact congrArg List.length hparams
    refine ⟨[], _, _, .none, by rw [hnames]; rfl, fun _ => trivial, fun {body ls} hw => ?_⟩
    have hspells := (hbraces hw).spells
    simpa [braced, paramsText, hparams, String.append_assoc] using hspells
  · have hempty : Frame.Lists ⟨0, .empty, Nat.le_refl 0⟩ [] := rfl
    have hnodup : ([] ++ s.namesOf s.names .param).Nodup :=
      ((List.take_sublist _ _).trans (List.drop_sublist _ _)).nodup s.nodup_names
    obtain ⟨F, D, hD, hF, hall⟩ := declares_bracketed .param hempty hnodup
    refine ⟨_, F, D, .params hD, hF, hall, fun {body ls} hw => ?_⟩
    have hlist := (writes_names (isName_of_mem_namesOf h .param)).inBrackets
    have hspells := (separator_arrow.between hlist (hbraces hw)).spells
    simpa [braced, paramsText, hparams, String.append_assoc] using hspells

end Header

section Tuples

variable {F : Frame}

theorem declares_set (h : s.Writable) (hset : s.isSet = true)
    (hF : F.Lists (s.namesOf s.names .param)) :
    ∃ ls t, Writes (s.output.text (s.namesOf s.names .output)) ls ∧ s.output.sameShape t = true ∧
      Declares s.names (Shape .output F ls · t) := by
  have hnames := s.names_eq_append
  rw [namesOf_input_of_isSet h.proper hset, List.append_nil] at hnames
  have hnodup := s.nodup_names
  rw [hnames] at hnodup
  obtain ⟨ls, t, hls, ht, hdeclares⟩ := declares_tuple h.output hF
    (s.length_namesOf .output nofun) hnodup (isName_of_mem_namesOf h .output)
  exact ⟨ls, t, hls, ht, hnames ▸ hdeclares⟩

theorem declares_relation (h : s.Writable) (hset : s.isSet = false)
    (hF : F.Lists (s.namesOf s.names .param)) :
    ∃ ls t, Writes (s.input.text (s.namesOf s.names .input)) ls ∧ s.input.sameShape t = true ∧
      ∃ G D, Shape .output F ls G t D ∧ (∀ x, D x) ∧
        ∃ ls' t', Writes (s.output.text (s.namesOf s.names .output)) ls' ∧
          s.output.sameShape t' = true ∧ Declares s.names (Shape .output G ls' · t') := by
  have hnames := s.names_eq_append
  have hnodup := s.nodup_names
  rw [hnames] at hnodup
  obtain ⟨ls, t, hls, ht, G, D, hD, hG, hall⟩ := declares_tuple (h.input hset) hF
    (s.length_namesOf .input nofun) (List.nodup_append.1 hnodup).1 (isName_of_mem_namesOf h .input)
  obtain ⟨ls', t', hls', ht', hdeclares⟩ := declares_tuple h.output hG
    (s.length_namesOf .output nofun) hnodup (isName_of_mem_namesOf h .output)
  exact ⟨ls, t, hls, ht, G, D, hD, hall, ls', t', hls', ht', hnames ▸ hdeclares⟩

end Tuples

end Space

end Quasiaffine
