import Quasiaffine.Proofs.Relation.Subtraction

set_option autoImplicit false

namespace Quasiaffine.Relation

structure Describes (r : Relation) (s : Space) (P : Row → Prop) : Prop where
  space : r.space = s
  wellFormed : r.WellFormed
  tidy : r.Tidy
  points : ∀ x, x ∈ r ↔ x.length = s.total ∧ P x

variable {a b r : Relation} {s : Space} {P Q : Row → Prop}

theorem Describes.proper (h : r.Describes s P) : s.Proper := h.space ▸ h.wellFormed.proper

theorem Describes.congr (h : r.Describes s P) (hPQ : ∀ x, x.length = s.total → (P x ↔ Q x)) :
    r.Describes s Q where
  space := h.space
  wellFormed := h.wellFormed
  tidy := h.tidy
  points x := (h.points x).trans (and_congr_right (hPQ x))

theorem Describes.agrees (ha : a.Describes s P) (hb : b.Describes s Q) :
    a.space.agrees b.space = true := by
  rw [ha.space, hb.space]
  exact s.agrees_refl

theorem describes_full (h : s.Proper) : (full s).Describes s fun _ => True where
  space := rfl
  wellFormed := wellFormed_full h
  tidy := tidy_full s
  points x := by rw [mem_full_iff, and_true]

theorem describes_empty (h : s.Proper) : (empty s).Describes s fun _ => False where
  space := rfl
  wellFormed := wellFormed_empty h
  tidy := tidy_empty s
  points x := by simp [notMem_empty]

theorem Describes.intersect_eq_ok (ha : a.Describes s P) (hb : b.Describes s Q) :
    ∃ r, a.intersect b = .ok r ∧ r.Describes s (fun x => P x ∧ Q x) ∧
      (a.Known → b.Known → r.Known) := by
  obtain ⟨r, hok, hspace, hwf, htidy, hknown, hmem⟩ :=
    Relation.intersect_eq_ok ha.wellFormed hb.wellFormed (ha.agrees hb)
  refine ⟨r, hok, ⟨hspace.trans ha.space, hwf, htidy, fun x => ?_⟩, hknown⟩
  rw [hmem, ha.points, hb.points]
  tauto

theorem Describes.union_eq_ok (ha : a.Describes s P) (hb : b.Describes s Q) :
    ∃ r, a.union b = .ok r ∧ r.Describes s (fun x => P x ∨ Q x) ∧
      (a.Known → b.Known → r.Known) := by
  obtain ⟨r, hok, hspace, hwf, htidy, hknown, hmem⟩ :=
    ha.wellFormed.union_eq_ok hb.wellFormed (ha.agrees hb)
  refine ⟨r, hok, ⟨hspace.trans ha.space, hwf, htidy ha.tidy hb.tidy, fun x => ?_⟩, hknown⟩
  rw [hmem, ha.points, hb.points, and_or_left]

theorem Describes.subtract_spec (ha : a.Describes s P) (hb : b.Describes s Q) :
    (∃ r, a.subtract b = .ok r ∧ r.Describes s (fun x => P x ∧ ¬Q x) ∧ (a.Known → r.Known)) ∨
      a.subtract b = .error (.unsupported .subtractingQuantified) ∧ ¬b.Known := by
  rcases Relation.subtract_spec ha.wellFormed hb.wellFormed (ha.agrees hb) with
    ⟨r, hok, -, hspace, hwf, htidy, hknown, hmem, hall⟩ | ⟨herr, q, hq, hdef⟩
  · refine .inl ⟨r, hok, ⟨hspace.trans ha.space, hwf, htidy ha.tidy, fun x => ?_⟩, hknown⟩
    have hiff : x ∈ r ↔ x ∈ a ∧ x ∉ b := ⟨hmem x, fun h => hall hb.tidy x h.1 h.2⟩
    rw [hiff, ha.points, hb.points]
    tauto
  · exact .inr ⟨herr, fun hk => hdef (BasicRelation.definable_of_allKnown (hk q hq))⟩

theorem Describes.recoverDefinitions_eq_ok (h : r.Describes s P) :
    ∃ r', r.recoverDefinitions = .ok r' ∧ r'.relation.Describes s P ∧
      (r.Known → r'.relation.Known) := by
  obtain ⟨r', hok, hspace, hwf, htidy, hknown, hmem⟩ :=
    Relation.recoverDefinitions_eq_ok h.wellFormed
  exact ⟨r', hok, ⟨hspace.trans h.space, hwf, htidy h.tidy, fun x => (hmem x).trans (h.points x)⟩,
    hknown⟩

section Success

theorem agrees_of_requireSameSpace {u : Unit} (h : a.requireSameSpace b = .ok u) :
    a.space.agrees b.space = true := require_eq_ok_iff.1 h

theorem WellFormed.intersect (ha : a.WellFormed) (hb : b.WellFormed) (hok : a.intersect b = .ok r) :
    r.space = a.space ∧ r.WellFormed ∧ ∀ x, x ∈ r ↔ x ∈ a ∧ x ∈ b := by
  obtain ⟨_, hs, -⟩ := bind_eq_ok_iff.1 hok
  obtain ⟨r', hok', hspace, hwf, -, -, hmem⟩ :=
    intersect_eq_ok ha hb (agrees_of_requireSameSpace hs)
  obtain rfl := Except.ok.inj (hok'.symm.trans hok)
  exact ⟨hspace, hwf, hmem⟩

theorem WellFormed.union (ha : a.WellFormed) (hb : b.WellFormed) (hok : a.union b = .ok r) :
    r.space = a.space ∧ r.WellFormed ∧ ∀ x, x ∈ r ↔ x ∈ a ∨ x ∈ b := by
  obtain ⟨hspace, hwf, hmem⟩ := union_spec hok
  exact ⟨hspace, hwf ha hb, hmem⟩

theorem WellFormed.subtract (ha : a.WellFormed) (hb : b.WellFormed) (hok : a.subtract b = .ok r) :
    r.space = a.space ∧ r.WellFormed ∧ ∀ x, x ∈ r → x ∈ a ∧ x ∉ b := by
  obtain ⟨_, hs, -⟩ := bind_eq_ok_iff.1 hok
  rcases subtract_spec ha hb (agrees_of_requireSameSpace hs) with
    ⟨r', hok', -, hspace, hwf, -, -, hmem, -⟩ | ⟨herr, -⟩
  · obtain rfl := Except.ok.inj (hok'.symm.trans hok)
    exact ⟨hspace, hwf, hmem⟩
  · rw [herr] at hok
    cases hok

theorem WellFormed.resetSpace (h : r.WellFormed) (hs : s.Proper) (hok : r.resetSpace s = .ok a) :
    a.space = s ∧ a.WellFormed ∧ ∀ x, x ∈ a ↔ x ∈ r := by
  obtain ⟨_, ht, -⟩ := bind_eq_ok_iff.1 hok
  obtain ⟨r', hok', hspace, hwf, -, hmem⟩ :=
    resetSpace_eq_ok h hs (beq_iff_eq.1 (require_eq_ok_iff.1 ht))
  obtain rfl := Except.ok.inj (hok'.symm.trans hok)
  exact ⟨hspace, hwf, hmem⟩

end Success

section Anonymous

variable {p n : Nat}

@[simp] theorem total_anonymousSet : (Space.anonymousSet p n).total = p + n := by
  simp [Space.anonymousSet, Space.ofSet, Space.total, Tuple.size, Tuple.ids, Tuple.unit,
    Tuple.anonymous]

@[simp] theorem dim_anonymousSet_param : (Space.anonymousSet p n).dim .param = p := by
  simp [Space.anonymousSet, Space.ofSet, Space.dim, Space.labels]

@[simp] theorem dim_anonymousSet_output : (Space.anonymousSet p n).dim .output = n := by
  simp [Space.anonymousSet, Space.ofSet, Space.dim, Space.labels, Tuple.ids, Tuple.anonymous]

@[simp] theorem offset_anonymousSet_output : (Space.anonymousSet p n).offset .output = p := by
  simp [Space.anonymousSet, Space.ofSet, Space.offset, Tuple.size, Tuple.ids, Tuple.unit]

theorem proper_anonymousSet : (Space.anonymousSet p n).Proper := fun _ => rfl

theorem insertUnchecked_anonymousSet_output : (Space.anonymousSet p n).insertUnchecked n 1 .output =
    Space.anonymousSet p (n + 1) := by
  simp [Space.anonymousSet, Space.ofSet, Space.insertUnchecked, Tuple.insert, Tuple.anonymous,
    Tuple.name, Tuple.ids, List.replicate_succ']

theorem insertUnchecked_anonymousSet_param : (Space.anonymousSet p n).insertUnchecked p 1 .param =
    Space.anonymousSet (p + 1) n := by
  simp [Space.anonymousSet, Space.ofSet, Space.insertUnchecked, List.replicate_succ']

theorem dropUnchecked_anonymousSet {k : Nat} :
    (Space.anonymousSet p (n + k)).dropUnchecked n k .output = Space.anonymousSet p n := by
  simp [Space.anonymousSet, Space.ofSet, Space.dropUnchecked, Tuple.remove, Tuple.anonymous,
    Tuple.name, Tuple.ids, List.take_replicate, List.drop_replicate]

theorem mem_iff_take {r r' : Relation} {m : Nat}
    (hl : ∀ x ∈ r', x.length = m + 1)
    (h : ∀ u v w, u.length = m → v.length = 1 → (u ++ v ++ w ∈ r' ↔ u ++ w ∈ r)) (x : Row) :
    x ∈ r' ↔ x.length = m + 1 ∧ x.take m ∈ r := by
  have hsplit : x.length = m + 1 → (x ∈ r' ↔ x.take m ∈ r) := by
    intro hx
    obtain ⟨u, v, hu, rfl⟩ := Row.exists_split (r := x) (n := m) (by omega)
    have hv : v.length = 1 := by
      rw [List.length_append] at hx
      omega
    simpa [hu] using h u v [] hu hv
  exact ⟨fun hx => ⟨hl x hx, (hsplit (hl x hx)).1 hx⟩, fun hx => (hsplit hx.1).2 hx.2⟩

theorem Describes.addOutput_eq_ok (h : r.Describes (.anonymousSet p n) P) :
    ∃ r', r.addDims .output 1 = .ok r' ∧
      r'.Describes (.anonymousSet p (n + 1)) (fun x => P (x.take (p + n))) ∧
      (r.Known → r'.Known) := by
  obtain ⟨r', hok, hspace, hwf, htidy, hknown, hmem⟩ := addDims_eq_ok .output 1
    h.wellFormed (by simp) (by simp [Space.hasTuple]) Nat.one_pos
  simp only [h.space, dim_anonymousSet_output, offset_anonymousSet_output,
    insertUnchecked_anonymousSet_output] at hspace hmem
  refine ⟨r', hok, ⟨hspace, hwf, htidy h.tidy, fun x => ?_⟩, hknown⟩
  rw [mem_iff_take (m := p + n)
    (fun x hx => by simpa [hspace, Nat.add_assoc] using hwf.length_of_mem hx) hmem, h.points,
    total_anonymousSet, total_anonymousSet]
  exact and_congr_right fun hx => and_iff_right (by simp [hx])

theorem Describes.addParam_eq_ok (h : r.Describes (.anonymousSet p 0) P) :
    ∃ r', r.addDims .param 1 = .ok r' ∧
      r'.Describes (.anonymousSet (p + 1) 0) (fun x => P (x.take p)) ∧ (r.Known → r'.Known) := by
  obtain ⟨r', hok, hspace, hwf, htidy, hknown, hmem⟩ := addDims_eq_ok .param 1
    h.wellFormed (by simp) (.inl rfl) Nat.one_pos
  simp only [h.space, dim_anonymousSet_param, insertUnchecked_anonymousSet_param, Space.offset,
    Nat.zero_add] at hspace hmem
  refine ⟨r', hok, ⟨hspace, hwf, htidy h.tidy, fun x => ?_⟩, hknown⟩
  rw [mem_iff_take (m := p) (fun x hx => by simpa [hspace] using hwf.length_of_mem hx) hmem,
    h.points, total_anonymousSet, total_anonymousSet]
  exact and_congr_right fun hx => and_iff_right (by simp [hx])

theorem WellFormed.projectOut_zero (h : r.WellFormed) (hs : r.space = .anonymousSet p n) :
    r.projectOut .output n 0 = .ok r := by
  have hspace : r.space.dropDims .output n 0 = .ok r.space := by
    have hdrop := dropUnchecked_anonymousSet (p := p) (n := n) (k := 0)
    simp only [Space.dropDims, require, hs, dim_anonymousSet_output, Nat.add_zero, Nat.le_refl,
      decide_true, if_true, bind, Except.bind, Space.hasTuple, Bool.or_true, pure,
      Except.pure] at hdrop ⊢
    rw [hdrop]
  have hbasic : ∀ b ∈ r.basics, b.projectOut .output n 0 = .ok b := by
    intro b hb
    have hb' := h.basics b hb
    have hdim := Space.dim_eq_of_agrees .output hb'.agrees h.proper hb'.proper
    rw [hs, dim_anonymousSet_output] at hdim
    have hmove : ∀ c : Constraint,
        c.moveEntries (1 + b.ls.offset .output + n) 0 (1 + b.space.total - 0) = c := by
      intro c
      simp [Constraint.moveEntries, Row.moveEntries, Row.dropEntries]
    have hls : b.ls.dimsToDivs .output n 0 = .ok b.ls := by
      have : b.ls.dim .output = n := hdim.symm
      simp [LocalSpace.dimsToDivs, require, this, bind, Except.bind, pure, Except.pure]
    simp only [BasicRelation.projectOut, hls, bind, Except.bind, pure, Except.pure,
      BasicRelation.mapConstraints, hmove, List.map_id']
  rw [projectOut, hspace]
  simp only [bind, Except.bind, mapBasics]
  rw [mapM_eq_ok_map (g := id) hbasic, List.map_id]
  rfl

theorem Describes.projectOut_eq_ok {k : Nat} (h : r.Describes (.anonymousSet p (n + k)) P) :
    ∃ r', r.projectOut .output n k = .ok r' ∧
      r'.Describes (.anonymousSet p n) fun x => ∃ y : Row, y.length = k ∧ P (x ++ y) := by
  rcases Nat.eq_zero_or_pos k with rfl | hk
  · refine ⟨r, h.wellFormed.projectOut_zero h.space, h.congr fun x _ => ?_⟩
    constructor
    · exact fun hx => ⟨[], rfl, by simpa using hx⟩
    · rintro ⟨y, hy, hx⟩
      obtain rfl := List.eq_nil_of_length_eq_zero hy
      simpa using hx
  obtain ⟨r', hok, hspace, hwf, htidy, hmem⟩ := Relation.projectOut_eq_ok .output n k
    h.wellFormed (by simp) (by simp [h.space]) (by simp [Space.hasTuple]) hk
  simp only [h.space, offset_anonymousSet_output, dropUnchecked_anonymousSet] at hspace hmem
  refine ⟨r', hok, ⟨hspace, hwf, htidy h.tidy, fun x => ?_⟩⟩
  have hl : x ∈ r' → x.length = p + n := fun hx => by simpa [hspace] using hwf.length_of_mem hx
  rw [total_anonymousSet]
  constructor
  · intro hx
    obtain ⟨y, hy, hxy⟩ := (hmem x [] (hl hx)).1 (by simpa using hx)
    exact ⟨hl hx, y, hy, ((h.points _).1 (by simpa using hxy)).2⟩
  · rintro ⟨hx, y, hy, hxy⟩
    have := (hmem x [] hx).2 ⟨y, hy, by
      rw [List.append_nil, h.points, total_anonymousSet, List.length_append]
      exact ⟨by omega, hxy⟩⟩
    simpa using this

end Anonymous

end Quasiaffine.Relation
