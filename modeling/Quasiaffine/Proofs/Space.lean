import Mathlib
import Quasiaffine.Space.Edit

set_option autoImplicit false

namespace Quasiaffine

namespace Tuple

theorem sameShape_symm {s t : Tuple} (h : s.sameShape t = true) : t.sameShape s = true := by
  induction s generalizing t with
  | flat n ids =>
    cases t with
    | flat n' ids' =>
      simp only [sameShape, Bool.and_eq_true, beq_iff_eq] at h ⊢
      exact ⟨h.1.symm, h.2.symm⟩
    | wrapping => simp [sameShape] at h
  | wrapping n ids d r hd hr =>
    cases t with
    | flat => simp [sameShape] at h
    | wrapping n' ids' d' r' =>
      simp only [sameShape, Bool.and_eq_true, beq_iff_eq] at h ⊢
      exact ⟨⟨h.1.1.symm, h.1.2.symm⟩, hd h.2.1, hr h.2.2⟩

theorem sameShape_trans {s t u : Tuple} (h : s.sameShape t = true) (h' : t.sameShape u = true) :
    s.sameShape u = true := by
  induction s generalizing t u with
  | flat n ids =>
    cases t with
    | flat n' ids' =>
      cases u with
      | flat n'' ids'' =>
        simp only [sameShape, Bool.and_eq_true, beq_iff_eq] at h h' ⊢
        exact ⟨h.1.trans h'.1, h.2.trans h'.2⟩
      | wrapping => simp [sameShape] at h'
    | wrapping => simp [sameShape] at h
  | wrapping n ids d r hd hr =>
    cases t with
    | flat => simp [sameShape] at h
    | wrapping n' ids' d' r' =>
      cases u with
      | flat => simp [sameShape] at h'
      | wrapping n'' ids'' d'' r'' =>
        simp only [sameShape, Bool.and_eq_true, beq_iff_eq] at h h' ⊢
        exact ⟨⟨h.1.1.trans h'.1.1, h.1.2.trans h'.1.2⟩, hd h.2.1 h'.2.1, hr h.2.2 h'.2.2⟩

theorem sameShape_insert {s t : Tuple} {pos n : Nat} (h : s.sameShape t = true) :
    (s.insert pos n).sameShape (t.insert pos n) = true := by
  have hsize : s.ids.length = t.ids.length := size_eq_of_sameShape h
  simp [insert, sameShape, name_eq_of_sameShape h, hsize]

theorem sameShape_remove {s t : Tuple} {first n : Nat} (h : s.sameShape t = true) :
    (s.remove first n).sameShape (t.remove first n) = true := by
  have hsize : s.ids.length = t.ids.length := size_eq_of_sameShape h
  simp [remove, sameShape, name_eq_of_sameShape h, hsize]

end Tuple

namespace Space

def Proper (s : Space) : Prop := s.isSet = true → s.input.size = 0

theorem proper_ofSet (params : List Label) (tuple : Tuple) : (ofSet params tuple).Proper :=
  fun _ => rfl

theorem proper_ofRelation (params : List Label) (input output : Tuple) :
    (ofRelation params input output).Proper := nofun

theorem agrees_iff (s t : Space) : s.agrees t = true ↔
    s.isSet = t.isSet ∧ s.params = t.params ∧ s.output.sameShape t.output = true ∧
      (s.isSet = true ∨ s.input.sameShape t.input = true) := by
  simp [agrees, and_assoc]

theorem agrees_symm {s t : Space} (h : s.agrees t = true) : t.agrees s = true := by
  rw [agrees_iff] at h ⊢
  obtain ⟨hs, hp, ho, hi⟩ := h
  exact ⟨hs.symm, hp.symm, Tuple.sameShape_symm ho, hi.imp (hs ▸ ·) Tuple.sameShape_symm⟩

theorem agrees_trans {s t u : Space} (h : s.agrees t = true) (h' : t.agrees u = true) :
    s.agrees u = true := by
  rw [agrees_iff] at h h' ⊢
  obtain ⟨hs, hp, ho, hi⟩ := h
  obtain ⟨hs', hp', ho', hi'⟩ := h'
  refine ⟨hs.trans hs', hp.trans hp', Tuple.sameShape_trans ho ho', ?_⟩
  rcases hi with hi | hi
  · exact .inl hi
  · exact hi'.imp (hs.symm ▸ ·) (Tuple.sameShape_trans hi)

theorem input_size_eq_of_agrees {s t : Space} (h : s.agrees t = true) (hs : s.Proper)
    (ht : t.Proper) : s.input.size = t.input.size := by
  obtain ⟨hset, -, -, hi⟩ := (agrees_iff s t).1 h
  rcases hi with hi | hi
  · rw [hs hi, ht (hset ▸ hi)]
  · exact Tuple.size_eq_of_sameShape hi

theorem total_eq_of_agrees {s t : Space} (h : s.agrees t = true) (hs : s.Proper)
    (ht : t.Proper) : s.total = t.total := by
  obtain ⟨-, hp, ho, -⟩ := (agrees_iff s t).1 h
  rw [total, total, hp, input_size_eq_of_agrees h hs ht, Tuple.size_eq_of_sameShape ho]

section Dimensions

variable {s : Space} {kind : DimKind} {first n : Nat}

theorem offset_add_dim_le (hk : kind ≠ .div) : s.offset kind + s.dim kind ≤ s.total := by
  cases kind <;> simp [offset, dim, labels, total, Tuple.size] at hk ⊢
  omega

theorem total_insertUnchecked (hk : kind ≠ .div) (hf : first ≤ s.dim kind) :
    (s.insertUnchecked first n kind).total = s.total + n := by
  cases kind <;>
    simp [insertUnchecked, total, Tuple.size, Tuple.insert, Tuple.ids, dim, labels] at hk hf ⊢ <;>
    omega

theorem total_dropUnchecked (hk : kind ≠ .div) (hf : first + n ≤ s.dim kind) :
    (s.dropUnchecked first n kind).total + n = s.total := by
  cases kind <;>
    simp [dropUnchecked, total, Tuple.size, Tuple.remove, Tuple.ids, dim, labels] at hk hf ⊢ <;>
    omega

theorem Proper.insertUnchecked (h : s.Proper) (ht : kind = .param ∨ s.hasTuple kind = true) :
    (s.insertUnchecked first n kind).Proper := by
  cases kind with
  | param | output | div => exact h
  | input =>
    intro hset
    simp [hasTuple] at ht
    simp [Space.insertUnchecked, ht] at hset

theorem Proper.dropUnchecked (h : s.Proper) (ht : kind = .param ∨ s.hasTuple kind = true) :
    (s.dropUnchecked first n kind).Proper := by
  cases kind with
  | param | output | div => exact h
  | input =>
    intro hset
    simp [hasTuple] at ht
    simp [Space.dropUnchecked, ht] at hset

theorem size_setIds (t : Tuple) (ids : List Label) : (t.setIds ids).size = ids.length := by
  cases t <;> rfl

theorem total_setLabels {labels : List Label} (hl : labels.length = s.dim kind) :
    (s.setLabels labels kind).total = s.total := by
  cases kind with
  | param => exact congrArg (· + s.input.size + s.output.size) hl
  | input => exact congrArg (s.params.length + · + s.output.size) ((size_setIds _ _).trans hl)
  | output => exact congrArg (s.params.length + s.input.size + ·) ((size_setIds _ _).trans hl)
  | div => rfl

theorem Proper.setLabels {labels : List Label} (h : s.Proper) (hl : labels.length = s.dim kind) :
    (s.setLabels labels kind).Proper := by
  cases kind with
  | param | output | div => exact h
  | input => exact fun hset => (size_setIds _ _).trans (hl.trans (h hset))

variable {t : Space}

theorem dim_eq_of_agrees (kind : DimKind) (h : s.agrees t = true) (hs : s.Proper) (ht : t.Proper) :
    s.dim kind = t.dim kind := by
  have hinput := input_size_eq_of_agrees h hs ht
  obtain ⟨-, hp, ho, -⟩ := (agrees_iff s t).1 h
  cases kind with
  | param => rw [dim, dim, labels, labels, hp]
  | input => exact hinput
  | output => exact Tuple.size_eq_of_sameShape ho
  | div => rfl

theorem offset_eq_of_agrees (kind : DimKind) (h : s.agrees t = true) (hs : s.Proper) (ht : t.Proper) :
    s.offset kind = t.offset kind := by
  have hinput := input_size_eq_of_agrees h hs ht
  have htotal := total_eq_of_agrees h hs ht
  obtain ⟨-, hp, -⟩ := (agrees_iff s t).1 h
  cases kind <;> simp [offset, hp, hinput, htotal]

theorem hasTuple_eq_of_agrees (kind : DimKind) (h : s.agrees t = true) :
    s.hasTuple kind = t.hasTuple kind := by
  obtain ⟨hset, -⟩ := (agrees_iff s t).1 h
  cases kind <;> simp [hasTuple, hset]

theorem agrees_insertUnchecked (h : s.agrees t = true) :
    (s.insertUnchecked first n kind).agrees (t.insertUnchecked first n kind) = true := by
  rw [agrees_iff] at h ⊢
  obtain ⟨hset, hp, ho, hi⟩ := h
  cases kind with
  | param => exact ⟨hset, by simp [insertUnchecked, hp], ho, hi⟩
  | input => exact ⟨hset, hp, ho, hi.imp id Tuple.sameShape_insert⟩
  | output => exact ⟨hset, hp, Tuple.sameShape_insert ho, hi⟩
  | div => exact ⟨hset, hp, ho, hi⟩

theorem agrees_dropUnchecked (h : s.agrees t = true) :
    (s.dropUnchecked first n kind).agrees (t.dropUnchecked first n kind) = true := by
  rw [agrees_iff] at h ⊢
  obtain ⟨hset, hp, ho, hi⟩ := h
  cases kind with
  | param => exact ⟨hset, by simp [dropUnchecked, hp], ho, hi⟩
  | input => exact ⟨hset, hp, ho, hi.imp id Tuple.sameShape_remove⟩
  | output => exact ⟨hset, hp, Tuple.sameShape_remove ho, hi⟩
  | div => exact ⟨hset, hp, ho, hi⟩

end Dimensions

end Space

end Quasiaffine
