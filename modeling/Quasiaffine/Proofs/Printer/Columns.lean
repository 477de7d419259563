import Quasiaffine.Proofs.Printer.Declarations
import Quasiaffine.Proofs.Printer.Rows

set_option autoImplicit false

namespace Quasiaffine.Printer

open Phrase

structure New (dims quantified : List String) : Prop where
  nodup : (dims ++ quantified).Nodup
  names : ∀ x ∈ quantified, IsName x

variable {G : Frame} {dims ys : List String} {divs : List Row} {names : ColumnNames}
  {us : List (Row → ℤ)}

section Names

theorem new_nil (h : dims.Nodup) : New dims [] := ⟨by simpa using h, nofun⟩

theorem New.addDiv (h : New dims names.quantified) (div : Row) :
    New dims (names.addDiv dims div).quantified := by
  rw [ColumnNames.addDiv]
  split
  · exact h
  · have hfresh := fresh_notMem (dims ++ names.quantified) "e" names.quantified.length
    obtain ⟨k, hk⟩ := freshFrom_eq (dims ++ names.quantified) "e"
      (dims ++ names.quantified).length names.quantified.length
    refine ⟨?_, fun x hx => ?_⟩
    · rw [← List.append_assoc]
      exact List.nodup_append.2 ⟨h.nodup, List.nodup_singleton _, by
        rintro a ha b hb rfl
        exact hfresh (List.mem_singleton.1 hb ▸ ha)⟩
    · rcases List.mem_append.1 hx with hx | hx
      · exact h.names x hx
      · rw [List.mem_singleton.1 hx, fresh, hk]
        exact isName_append_toString ⟨'e', rfl, by decide⟩ k

theorem New.foldl (h : New dims names.quantified) (divs : List Row) :
    New dims (divs.foldl (ColumnNames.addDiv dims) names).quantified := by
  induction divs generalizing names with
  | nil => exact h
  | cons div divs ih => exact ih (h.addDiv div)

theorem quantified_prefix (dims : List String) (divs : List Row) (names : ColumnNames) :
    names.quantified <+: (divs.foldl (ColumnNames.addDiv dims) names).quantified := by
  induction divs generalizing names with
  | nil => exact List.prefix_refl _
  | cons div divs ih =>
    refine List.IsPrefix.trans ?_ (ih _)
    rw [ColumnNames.addDiv]
    split
    · exact List.prefix_refl _
    · exact List.prefix_append _ _

theorem length_quantified (dims : List String) (divs : List Row) (names : ColumnNames) :
    (divs.foldl (ColumnNames.addDiv dims) names).quantified.length =
      names.quantified.length + LocalSpace.unknownCount divs := by
  induction divs generalizing names with
  | nil => rfl
  | cons div divs ih =>
    rw [List.foldl_cons, ih, ColumnNames.addDiv, LocalSpace.unknownCount, LocalSpace.unknownCount]
    split
    · simp [*]
    · simp [*, Nat.add_assoc, Nat.add_comm]

theorem new_ofLocalSpace (h : dims.Nodup) (ls : LocalSpace) :
    New dims (ColumnNames.ofLocalSpace dims ls).quantified := (new_nil h).foldl _

theorem length_quantified_ofLocalSpace (dims : List String) (ls : LocalSpace) :
    (ColumnNames.ofLocalSpace dims ls).quantified.length =
      LocalSpace.unknownCount ls.divs.rows := by
  rw [ColumnNames.ofLocalSpace, length_quantified]
  exact Nat.zero_add _

end Names

section Columns

def coordinates (n : ℕ) : List (Row → ℤ) := (List.range n).map fun k r => r.entry k

theorem valuesAt_coordinates {n : ℕ} {x : Row} (hx : x.length = n) (y : Row) :
    valuesAt (coordinates n) (x ++ y) = x := by
  refine List.ext_getElem (by simp [valuesAt, coordinates, hx]) fun k hk hk' => ?_
  simp [valuesAt, coordinates, Row.entry, List.getElem?_append_left hk',
    List.getElem?_eq_getElem hk']

theorem columns_dims (hG : G.Lists (dims ++ ys)) (hnodup : (dims ++ ys).Nodup)
    (hnames : ∀ x ∈ dims, IsName x) : List.Forall₂ (Column G) dims (coordinates dims.length) := by
  rw [List.forall₂_iff_get]
  refine ⟨by simp [coordinates], fun k hk hk' => ?_⟩
  have hsplit : dims ++ ys = dims.take k ++ dims[k] :: (dims.drop (k + 1) ++ ys) := by
    rw [← List.cons_append, ← List.drop_eq_getElem_cons hk, ← List.append_assoc,
      List.take_append_drop]
  rw [hsplit] at hG hnodup
  have hposition := hG.position? (List.nodup_cons.1 (List.nodup_append.1 hnodup).2.1).1
  rw [List.length_take, Nat.min_eq_left (Nat.le_of_lt hk)] at hposition
  simpa [coordinates] using Column.name (hnames _ (List.getElem_mem hk)) hposition

theorem valuesAt_concat (us : List (Row → ℤ)) (u : Row → ℤ) (y : Row) :
    valuesAt (us ++ [u]) y = valuesAt us y ++ [u y] := by
  simp [valuesAt]

/-- Each division is written as its definition or under its name. The columns before it have been
written already. -/
theorem columns_foldl (hnew : New dims (divs.foldl (ColumnNames.addDiv dims) names).quantified)
    (hG : G.Lists (dims ++ (divs.foldl (ColumnNames.addDiv dims) names).quantified))
    (hpos : ∀ r ∈ divs, 0 ≤ r.entry 0) (h : List.Forall₂ (Column G) names.columns us) :
    ∃ us', List.Forall₂ (Column G) (divs.foldl (ColumnNames.addDiv dims) names).columns us' ∧
      ∀ y, valuesAt us' y = LocalSpace.assigned divs (valuesAt us y)
        (y.drop (dims.length + names.quantified.length)) := by
  induction divs generalizing names us with
  | nil => exact ⟨us, h, fun y => rfl⟩
  | cons div divs ih =>
    rw [List.forall_mem_cons] at hpos
    rw [List.foldl_cons] at hnew hG ⊢
    by_cases hk : Division.isKnown div = true
    · have hm : 0 < div.entry 0 := lt_of_le_of_ne hpos.1 (Ne.symm ((Division.isKnown_iff div).1 hk))
      have hadd : names.addDiv dims div =
          { names with columns := names.columns ++ [divisionText div names.columns] } := by
        rw [ColumnNames.addDiv, if_pos hk, divisionText]
        simp [String.append_assoc]
        rfl
      rw [hadd] at hnew hG ⊢
      obtain ⟨us', hus', hvalues⟩ := ih hnew hG hpos.2
        (List.rel_append h (.cons (column_divisionText h hm) .nil))
      refine ⟨us', hus', fun y => ?_⟩
      rw [hvalues, LocalSpace.assigned, if_pos hk, valuesAt_concat]
    · have hadd : ∃ x, names.addDiv dims div = ⟨names.columns ++ [x], names.quantified ++ [x]⟩ :=
        ⟨_, by rw [ColumnNames.addDiv, if_neg hk]⟩
      obtain ⟨x, hadd⟩ := hadd
      rw [hadd] at hnew hG ⊢
      obtain ⟨rest, hrest⟩ :=
        quantified_prefix dims divs ⟨names.columns ++ [x], names.quantified ++ [x]⟩
      have hx : IsName x := hnew.names x (by rw [← hrest]; simp)
      have hlists := hG
      have hnodup := hnew.nodup
      rw [← hrest, ← List.append_cons, ← List.append_assoc] at hlists hnodup
      have hposition := hlists.position? (List.nodup_cons.1 (List.nodup_append.1 hnodup).2.1).1
      rw [List.length_append] at hposition
      obtain ⟨us', hus', hvalues⟩ := ih hnew hG hpos.2
        (List.rel_append h (.cons (.name hx hposition) .nil))
      refine ⟨us', hus', fun y => ?_⟩
      rw [hvalues, LocalSpace.assigned, if_neg hk, valuesAt_concat, List.drop_drop,
        List.length_append, List.length_singleton, ← Nat.add_assoc, Row.entry_drop]
      rfl

theorem columns_ofLocalSpace {ls : LocalSpace} (hdims : dims.Nodup)
    (hnames : ∀ x ∈ dims, IsName x) (hpos : ∀ r ∈ ls.divs.rows, 0 ≤ r.entry 0)
    (hG : G.Lists (dims ++ (ColumnNames.ofLocalSpace dims ls).quantified)) :
    ∃ us, List.Forall₂ (Column G) (ColumnNames.ofLocalSpace dims ls).columns us ∧
      ∀ x unknowns : Row, x.length = dims.length →
        valuesAt us (x ++ unknowns) = LocalSpace.assigned ls.divs.rows x unknowns := by
  have hnew := new_ofLocalSpace hdims ls
  have hdivs : ColumnNames.ofLocalSpace dims ls =
    ls.divs.rows.foldl (ColumnNames.addDiv dims) ⟨dims, []⟩ := rfl
  rw [hdivs] at hnew hG ⊢
  obtain ⟨us, hus, hvalues⟩ := columns_foldl hnew hG hpos (columns_dims hG hnew.nodup hnames)
  refine ⟨us, hus, fun x unknowns hx => ?_⟩
  rw [hvalues, valuesAt_coordinates hx]
  simp [← hx]

end Columns

end Quasiaffine.Printer
