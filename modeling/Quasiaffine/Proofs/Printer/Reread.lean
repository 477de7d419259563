import Quasiaffine.Proofs.Parse.Objects
import Quasiaffine.Proofs.Printer.Texts

/-!
Spaces that come from a text, written and read again. Dimensions are written under different names.
A label loses the primes at its end when it is read, so it may be a keyword, which is not read as a
name again. All other labels are; then the space is read again, except where the text begins with a
tuple `Sym`, or where a tuple of two tuples without dimensions is left out.
-/

set_option autoImplicit false

namespace Quasiaffine

theorem Keyword.not_isName (w : Keyword) : ¬IsName w.text := by
  intro h
  have hscan := Lexeme.scan_word [] (Lexeme.isWord_keyword w) (by simp)
  rw [List.append_nil, String.ofList_toList, Lexeme.ofWord, Keyword.ofText?_text] at hscan
  cases (congrArg Lexeme.Scan.result h).symm.trans (congrArg Lexeme.Scan.result hscan)

namespace Space

variable {s : Space}

def AvoidsKeywords (s : Space) : Prop :=
  ∀ w : Keyword, some w.text ∉ s.input.ids ++ s.output.ids

theorem Declared.isName_of_label (h : s.Declared) (hw : s.AvoidsKeywords) :
    ∀ x, some x ∈ s.params ++ s.input.ids ++ s.output.ids → IsName x := by
  intro x hx
  rw [List.append_assoc, List.mem_append] at hx
  rcases hx with hx | hx
  · obtain ⟨xs, -, hxs, hparams⟩ := h.params
    rw [hparams, List.mem_map_of_injective (Option.some_injective _)] at hx
    exact hxs x hx
  · rcases h.labels x hx with hname | ⟨w, rfl⟩
    · exact hname
    · exact absurd hx (hw w)

theorem Declared.isName_names_iff (h : s.Declared) :
    (∀ x ∈ s.names, IsName x) ↔ s.AvoidsKeywords := by
  constructor
  · intro hnames w hw
    refine w.not_isName (hnames _ (mem_names_of_label ?_))
    rw [List.append_assoc]
    exact List.mem_append_right _ hw
  · exact fun hw x => isName_of_mem_names (h.isName_of_label hw)

theorem Declared.writable (h : s.Declared) (hw : s.AvoidsKeywords)
    (hflat : s.isParams = true → s.output.parts? = none) : s.Writable where
  proper := h.proper
  params := h.params.imp fun _ hxs => ⟨hxs.1, hxs.2.2⟩
  names := h.isName_of_label hw
  input _ := h.input
  output := h.output
  flat := hflat

end Space

namespace Reader

/-- A relation that is read from a text has different names for its dimensions. They are names
again just if no label is a keyword; then the text of the relation is read as a relation over an
equal space with the same points, unless it would begin with a tuple `Sym` or leave out two tuples
without dimensions. -/
theorem object_reread {config : Config} {source : String} {r : Relation}
    (h : (object config source).result = .ok (.relation r)) :
    (r.space.names.Nodup ∧ r.space.names.length = r.space.total) ∧
      ((∀ x ∈ r.space.names, IsName x) ↔ r.space.AvoidsKeywords) ∧
      ∀ config' : Config, r.space.AvoidsKeywords → r.space.firstName ≠ some "Sym" →
        (r.space.isParams = true → r.space.output.parts? = none) →
          ∃ r', (object config' r.text).result = .ok (.relation r') ∧ r.SameAs r' := by
  have hr : r.Declared := declared_of_object h r (List.mem_singleton_self r)
  refine ⟨⟨r.space.nodup_names, r.space.length_names⟩, hr.space.isName_names_iff,
    fun config' hw hsym hflat => ?_⟩
  have hwritable : r.Writable := ⟨hr.space.writable hw hflat, hr.wellFormed, hr.consistent⟩
  exact hwritable.read_text config' hsym

def relation? (source : String) : Option Relation :=
  match (object {} source).result with
  | .ok (.relation r) => some r
  | _ => none

theorem object_eq_ok_of_relation? {source : String} {r : Relation} (h : relation? source = some r) :
    (object {} source).result = .ok (.relation r) := by
  rw [relation?] at h
  split at h
  · rename_i hok
    rw [hok, Option.some.inj h]
  · cases h

def primedText : String := "[n] -> \x7b S[x\x27, x] -> [[x] -> T[]] : x\x27 >= n \x7d"

theorem object_reread_primed : ∃ r r', relation? primedText = some r ∧
    r.space.names = ["n", "x", "i1", "o0"] ∧ (object {} r.text).result = .ok (.relation r') ∧
      r.SameAs r' := by
  have hread : (relation? primedText).any (fun r => r.space = .ofRelation [some "n"]
      (.flat (some "S") [some "x", some "x"])
      (.wrap none (.flat none [none]) (.flat (some "T") []))) = true := by
    decide +kernel
  obtain ⟨r, hr, hspace⟩ := (Option.any_eq_true _ _).1 hread
  rw [decide_eq_true_eq] at hspace
  obtain ⟨-, -, hagain⟩ := object_reread (object_eq_ok_of_relation? hr)
  have hwords : r.space.AvoidsKeywords := by
    rw [hspace]
    intro w
    cases w <;> decide
  obtain ⟨r', hok, hsame⟩ := hagain {} hwords (by rw [hspace]; decide) (by rw [hspace]; decide)
  exact ⟨r, r', hr, by rw [hspace]; decide +kernel, hok, hsame⟩

/-- A label that is a keyword without its primes, a tuple that is taken for parameters, and two
tuples without dimensions that are left out. -/
theorem object_space_lost :
    (∃ r, relation? "\x7b [min\x27] \x7d" = some r ∧ r.space.names = ["min"] ∧ ¬IsName "min" ∧
      relation? r.text = none) ∧
    (∃ r, relation? "\x7b Sym = [M] Sym[i] \x7d" = some r ∧ relation? r.text = none) ∧
    ∃ r r', relation? "\x7b [[] -> []] \x7d" = some r ∧ relation? r.text = some r' ∧
      r.space.agrees r'.space = false := by
  have hprimes : (relation? "\x7b [min\x27] \x7d").any (fun r =>
      r.space.names = ["min"] ∧ relation? r.text = none) = true := by decide +kernel
  have hsym : (relation? "\x7b Sym = [M] Sym[i] \x7d").any (fun r =>
      relation? r.text = none) = true := by decide +kernel
  have hnested : (relation? "\x7b [[] -> []] \x7d").any (fun r =>
      (relation? r.text).any fun r' => r.space.agrees r'.space = false) = true := by decide +kernel
  simp only [Option.any_eq_true, decide_eq_true_eq] at hprimes hsym hnested
  obtain ⟨r, hr, hnames, hno⟩ := hprimes
  obtain ⟨s, hs, s', hs', hlost⟩ := hnested
  exact ⟨⟨r, hr, hnames, Keyword.min.not_isName, hno⟩, hsym, s, s', hs, hs', hlost⟩

end Reader

end Quasiaffine
