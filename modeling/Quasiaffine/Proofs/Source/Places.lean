import Mathlib
import Quasiaffine.Source.Span

/-!
Places told by the text in front of them. The line of a place counts the line ends of that text, its
column the characters behind the last of them, and its offset the bytes of all of it.
-/

set_option autoImplicit false

namespace Quasiaffine

namespace Location

variable {p q : Location} {before text behind source : List Char}

structure Behind (p : Location) (before : List Char) : Prop where
  line : p.line = before.count '\n' + 1
  column : p.column = (before.reverse.takeWhile (· != '\n')).length + 1
  offset : p.offset = (String.ofList before).utf8ByteSize

theorem behind_first : first.Behind [] := ⟨rfl, rfl, rfl⟩

theorem Behind.after (h : p.Behind before) (c : Char) : (p.after c).Behind (before ++ [c]) := by
  have hsize : (String.ofList (before ++ [c])).utf8ByteSize = p.offset + c.utf8Size := by
    rw [String.ofList_append, String.utf8ByteSize_append, ← h.offset, ← String.singleton_eq_ofList,
      String.utf8ByteSize_singleton]
  by_cases hc : c = '\n'
  · subst hc
    exact ⟨by simp [Location.after, h.line], by simp [Location.after], hsize.symm⟩
  · refine ⟨?_, ?_, ?_⟩
    · simp [Location.after, hc, h.line]
    · simp [Location.after, hc, h.column]
    · rw [offset_after, hsize]

theorem Behind.afterAll (h : p.Behind before) (text : List Char) :
    (p.afterAll text).Behind (before ++ text) := by
  induction text generalizing p before with
  | nil => simpa [Location.afterAll] using h
  | cons c text ih => simpa [Location.afterAll] using ih (h.after c)

theorem Behind.unique (hp : p.Behind before) (hq : q.Behind before) : p = q := by
  cases p
  cases q
  simp only [mk.injEq]
  exact ⟨hp.line.trans hq.line.symm, hp.column.trans hq.column.symm, hp.offset.trans hq.offset.symm⟩

theorem Behind.offset_append (hp : p.Behind before) (hq : q.Behind (before ++ text)) :
    q.offset = p.offset + (String.ofList text).utf8ByteSize := by
  rw [hq.offset, hp.offset, String.ofList_append, String.utf8ByteSize_append]

/-- Of two places of one source, that with the lesser offset comes first. -/
theorem Behind.prefix_of_offset_le (hp : p.Behind before) (hq : q.Behind behind)
    (hbefore : before <+: source) (hbehind : behind <+: source) (hle : p.offset ≤ q.offset) :
    before <+: behind := by
  rcases List.prefix_or_prefix_of_prefix hbefore hbehind with h | ⟨text, rfl⟩
  · exact h
  · have hempty : (String.ofList text).utf8ByteSize = 0 := by
      have := hq.offset_append hp
      omega
    rw [String.utf8ByteSize_eq_zero_iff, String.ofList_eq_empty_iff] at hempty
    simp [hempty]

end Location

namespace Span

variable {a b s : Span} {p q : Location} {before text source : List Char}

/-- A span that starts and ends at places of a source text, in this order. -/
structure Within (s : Span) (source : List Char) : Prop where
  places : ∃ before text behind, before ++ text ++ behind = source ∧ s.start.Behind before ∧
    s.stop.Behind (before ++ text)

theorem Within.of_places {before behind : List Char} (hp : p.Behind before) (hq : q.Behind behind)
    (hbefore : before <+: behind) (hbehind : behind <+: source) : Within ⟨p, q⟩ source := by
  obtain ⟨text, rfl⟩ := hbefore
  obtain ⟨rest, rfl⟩ := hbehind
  exact ⟨before, text, rest, rfl, hp, hq⟩

theorem Within.offset_le (h : s.Within source) : s.start.offset ≤ s.stop.offset ∧
    s.stop.offset ≤ (String.ofList source).utf8ByteSize := by
  obtain ⟨before, text, behind, rfl, hstart, hstop⟩ := h.places
  have htext := hstart.offset_append hstop
  rw [String.ofList_append, String.utf8ByteSize_append, ← hstop.offset]
  omega

theorem Within.cover (ha : a.Within source) (hb : b.Within source) : (cover a b).Within source := by
  obtain ⟨beforeA, textA, behindA, hsourceA, hstartA, hstopA⟩ := ha.places
  obtain ⟨beforeB, textB, behindB, hsourceB, hstartB, hstopB⟩ := hb.places
  have hA : beforeA ++ textA <+: source := ⟨behindA, hsourceA⟩
  have hB : beforeB ++ textB <+: source := ⟨behindB, hsourceB⟩
  obtain ⟨start, hstart, hprefix, hle⟩ : ∃ start, (Span.cover a b).start.Behind start ∧
      start <+: source ∧
      (Span.cover a b).start.offset ≤ min a.start.offset b.start.offset := by
    unfold Span.cover
    by_cases h : a.start.offset ≤ b.start.offset
    · refine ⟨beforeA, by simpa [h] using hstartA, (List.prefix_append _ _).trans hA, ?_⟩
      simp [h]
    · refine ⟨beforeB, by simpa [h] using hstartB, (List.prefix_append _ _).trans hB, ?_⟩
      simp only [h, if_false]
      omega
  obtain ⟨stop, hstop, hprefix', hle'⟩ : ∃ stop, (Span.cover a b).stop.Behind stop ∧
      stop <+: source ∧ a.stop.offset ≤ (Span.cover a b).stop.offset := by
    unfold Span.cover
    by_cases h : b.stop.offset ≤ a.stop.offset
    · exact ⟨beforeA ++ textA, by simpa [h] using hstopA, hA, by simp [h]⟩
    · refine ⟨beforeB ++ textB, by simpa [h] using hstopB, hB, ?_⟩
      simp only [h, if_false]
      omega
  have horder := ha.offset_le.1
  exact .of_places hstart hstop
    (hstart.prefix_of_offset_le hstop hprefix hprefix' (by omega)) hprefix'

end Span

end Quasiaffine
