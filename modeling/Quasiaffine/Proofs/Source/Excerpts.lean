import Mathlib
import Quasiaffine.Proofs.Source.Places
import Quasiaffine.Source.Excerpt

set_option autoImplicit false

namespace Quasiaffine.Source

variable {c : Char} {cs left line right before rest : List Char}

structure IsLine (left line right : List Char) : Prop where
  left : ∀ c ∈ left.getLast?, c = '\n'
  line : '\n' ∉ line
  right : ∀ c ∈ right.head?, c = '\n'

theorem lines_newline (cs : List Char) : lines ('\n' :: cs) = [] :: lines cs := by simp [lines]

theorem lines_cons (hc : c ≠ '\n') (cs : List Char) :
    ∃ l ls, lines cs = l :: ls ∧ lines (c :: cs) = (c :: l) :: ls := by
  obtain ⟨l, ls, h⟩ := List.exists_cons_of_ne_nil (lines_ne_nil cs)
  exact ⟨l, ls, h, by simp [lines, hc, h]⟩

theorem head?_lines (hline : '\n' ∉ line) (hright : ∀ c ∈ right.head?, c = '\n') :
    (lines (line ++ right)).head? = some line := by
  induction line with
  | nil =>
    cases right with
    | nil => rfl
    | cons c right =>
      obtain rfl := hright c rfl
      rw [List.nil_append, lines_newline, List.head?_cons]
  | cons c line ih =>
    rw [List.mem_cons, not_or] at hline
    obtain ⟨l, ls, hl, hcons⟩ := lines_cons (Ne.symm hline.1) (line ++ right)
    have ih := ih hline.2
    rw [hl, List.head?_cons, Option.some.injEq] at ih
    rw [List.cons_append, hcons, List.head?_cons, ih]

theorem IsLine.getElem?_lines (h : IsLine left line right) :
    (lines (left ++ (line ++ right)))[left.count '\n']? = some line := by
  have hleft := h.left
  induction left with
  | nil => simpa [List.head?_eq_getElem?] using head?_lines h.line h.right
  | cons c left ih =>
    have hlast : ∀ c ∈ left.getLast?, c = '\n' := fun d hd => hleft d (by
      rw [List.getLast?_cons, Option.mem_def.1 hd]
      rfl)
    have ih := ih ⟨hlast, h.line, h.right⟩ hlast
    by_cases hc : c = '\n'
    · subst hc
      rw [List.cons_append, lines_newline, List.count_cons_self, List.getElem?_cons_succ, ih]
    · -- The last character in front of the line is a line end, so this is not that character.
      have hmem : '\n' ∈ left := by
        obtain ⟨d, hd⟩ := Option.isSome_iff_exists.1 (List.getLast?_isSome.2 fun hnil : left = [] =>
          hc (hleft c (by rw [hnil]; rfl)))
        exact hlast d hd ▸ List.mem_of_getLast? hd
      obtain ⟨n, hn⟩ := Nat.exists_eq_add_of_lt (List.count_pos_iff.2 hmem)
      obtain ⟨l, ls, hl, hcons⟩ := lines_cons hc (left ++ (line ++ right))
      rw [hl] at ih
      rw [List.cons_append, hcons, List.count_cons_of_ne hc]
      rw [hn, Nat.zero_add, List.getElem?_cons_succ] at ih ⊢
      exact ih

theorem eq_newline_of_dropWhile (h : c ∈ (cs.dropWhile (· != '\n')).head?) : c = '\n' := by
  have hnot := List.head?_dropWhile_not (· != '\n') cs
  rw [Option.mem_def.1 h] at hnot
  simpa using hnot

theorem exists_isLine (before rest : List Char) : ∃ left start stop right,
    before = left ++ start ∧ rest = stop ++ right ∧ IsLine left (start ++ stop) right := by
  have hbefore := List.takeWhile_append_dropWhile (p := (· != '\n')) (l := before.reverse)
  have hrest := List.takeWhile_append_dropWhile (p := (· != '\n')) (l := rest)
  have hline : ∀ cs : List Char, '\n' ∉ cs.takeWhile (· != '\n') := fun cs h => by
    simpa using List.mem_takeWhile_imp h
  refine ⟨(before.reverse.dropWhile (· != '\n')).reverse,
    (before.reverse.takeWhile (· != '\n')).reverse, rest.takeWhile (· != '\n'),
    rest.dropWhile (· != '\n'), ?_, hrest.symm, ⟨?_, ?_, ?_⟩⟩
  · rw [← List.reverse_append, hbefore, List.reverse_reverse]
  · intro c hc
    rw [List.getLast?_reverse] at hc
    exact eq_newline_of_dropWhile hc
  · simp [hline]
  · exact fun c hc => eq_newline_of_dropWhile hc

/-- The line of a place is the line around it. -/
theorem IsLine.line?_eq {p : Location} {start stop : List Char}
    (h : IsLine left (start ++ stop) right) (hp : p.Behind (left ++ start)) :
    line? (String.ofList (left ++ ((start ++ stop) ++ right))) p.line =
      some (String.ofList (start ++ stop)) := by
  have hstart : start.count '\n' = 0 :=
    List.count_eq_zero.2 fun hmem => h.line (List.mem_append_left _ hmem)
  rw [line?, hp.line, if_neg (Nat.succ_ne_zero _), String.toList_ofList, Nat.add_sub_cancel,
    List.count_append, hstart, Nat.add_zero, h.getElem?_lines, Option.map_some]

variable {source : String} {s : Span}

/-- A span of a source with the excerpt under which an error quotes it: the line on which the span
starts, and a marker that stands under its first character and, if the span lies on one line, under
all the others too. -/
structure Quoted (source : String) (s : Span) : Prop where
  within : s.Within source.toList
  order : s.start.offset ≤ s.stop.offset
  bound : s.stop.offset ≤ source.utf8ByteSize
  excerpt : ∃ (left line right : List Char) (width : Nat),
    left ++ (line ++ right) = source.toList ∧ IsLine left line right ∧
      (String.ofList left).utf8ByteSize ≤ s.start.offset ∧
      s.start.offset ≤ (String.ofList (left ++ line)).utf8ByteSize ∧
      excerpt? source s = some (String.ofList line ++ "\n" ++
        String.ofList (List.replicate (s.start.column - 1) ' ') ++
          String.ofList (List.replicate width '^')) ∧
      1 ≤ width ∧
      ∀ before text behind : List Char, before ++ text ++ behind = source.toList →
        s.start.Behind before → s.stop.Behind (before ++ text) → text ≠ [] → '\n' ∉ text →
          width = text.length

theorem one_le_markerWidth (s : Span) : 1 ≤ markerWidth s := by
  unfold markerWidth
  split_ifs <;> omega

theorem markerWidth_eq {text : List Char} (hstart : s.start.Behind before)
    (hstop : s.stop.Behind (before ++ text)) (hne : text ≠ []) (hline : '\n' ∉ text) :
    markerWidth s = text.length := by
  have hlines : s.stop.line = s.start.line := by
    rw [hstop.line, hstart.line, List.count_append, List.count_eq_zero.2 hline, Nat.add_zero]
  have hall : ∀ c ∈ text.reverse, (c != '\n') = true := by
    intro c hc
    rw [List.mem_reverse] at hc
    simpa using fun h : c = '\n' => hline (h ▸ hc)
  have hcolumns : s.stop.column = s.start.column + text.length := by
    rw [hstop.column, hstart.column, List.reverse_append, List.takeWhile_append_of_pos hall]
    simp
    omega
  have := List.length_pos_iff.2 hne
  rw [markerWidth, if_pos hlines, if_pos (by omega), hcolumns, Nat.add_sub_cancel_left]

/-- Every span of a source can be quoted. -/
theorem quoted_of_within (h : s.Within source.toList) : Quoted source s := by
  obtain ⟨horder, hbound⟩ := h.offset_le
  rw [String.ofList_toList] at hbound
  obtain ⟨before, text, behind, hsource, hstart, -⟩ := h.places
  obtain ⟨left, start, stop, right, rfl, hrest, hline⟩ := exists_isLine before (text ++ behind)
  have hwhole : left ++ ((start ++ stop) ++ right) = source.toList := by
    rw [← hsource, List.append_assoc (left ++ start), hrest]
    simp [List.append_assoc]
  refine ⟨h, horder, hbound, left, start ++ stop, right, markerWidth s, hwhole, hline, ?_, ?_, ?_,
    one_le_markerWidth s, fun _ _ _ _ => markerWidth_eq⟩
  · rw [hstart.offset, String.ofList_append, String.utf8ByteSize_append]
    exact Nat.le_add_right _ _
  · have hsplit : String.ofList (left ++ (start ++ stop)) =
        String.ofList (left ++ start) ++ String.ofList stop := by
      rw [← String.ofList_append, List.append_assoc]
    rw [hstart.offset, hsplit, String.utf8ByteSize_append]
    exact Nat.le_add_right _ _
  · have hline? := hline.line?_eq hstart
    rw [hwhole, String.ofList_toList] at hline?
    rw [excerpt?, hline?, Option.map_some]

theorem intercalate_line? (source : String) : ∃ ls : List String,
    (∀ i, line? source (i + 1) = ls[i]?) ∧ "\n".intercalate ls = source := by
  refine ⟨(lines source.toList).map String.ofList, fun i => ?_, ?_⟩
  · rw [line?, if_neg (Nat.succ_ne_zero i), Nat.add_sub_cancel, List.getElem?_map]
  · have hmap :
        ((lines source.toList).map String.ofList).map String.toList = lines source.toList := by
      simp [Function.comp_def]
    apply String.toList_inj.1
    rw [String.toList_intercalate, hmap]
    exact intercalate_lines source.toList

end Quasiaffine.Source
