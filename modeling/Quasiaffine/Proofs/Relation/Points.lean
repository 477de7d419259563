import Quasiaffine.Relation
import Quasiaffine.Proofs.BasicRelation.Definitions
import Quasiaffine.Proofs.BasicRelation.Dimensions
import Quasiaffine.Proofs.BasicRelation.Sorting

set_option autoImplicit false

namespace Quasiaffine

structure BasicRelation.LiesIn (s : Space) (b : BasicRelation) : Prop where
  wellFormed : b.WellFormed
  proper : b.space.Proper
  agrees : s.agrees b.space = true

/-- No mark that nothing satisfies the constraints, and no constraint that says so alone. -/
structure BasicRelation.Tidy (b : BasicRelation) : Prop where
  consistent : b.contradictory = false
  solvable : b.EachSolvable

theorem BasicRelation.LiesIn.total_eq {s : Space} {b : BasicRelation} (h : b.LiesIn s)
    (hs : s.Proper) : s.total = b.space.total := Space.total_eq_of_agrees h.agrees hs h.proper

namespace Relation

instance : Membership Row Relation where
  mem r x := ∃ b ∈ r.basics, x ∈ b

theorem mem_iff {r : Relation} {x : Row} : x ∈ r ↔ ∃ b ∈ r.basics, x ∈ b := Iff.rfl

structure WellFormed (r : Relation) : Prop where
  proper : r.space.Proper
  basics : ∀ b ∈ r.basics, b.LiesIn r.space

def Tidy (r : Relation) : Prop := ∀ b ∈ r.basics, b.Tidy

def Known (r : Relation) : Prop := ∀ b ∈ r.basics, b.ls.allKnown = true

variable {r a b : Relation} {x : Row}

theorem WellFormed.length_of_mem (h : r.WellFormed) (hx : x ∈ r) : x.length = r.space.total := by
  obtain ⟨b, hb, hl, -⟩ := hx
  rw [(h.basics b hb).total_eq h.proper, hl]

section Insert

theorem mem_insert_iff (r : Relation) (b : BasicRelation) : x ∈ r.insert b ↔ x ∈ r ∨ x ∈ b := by
  unfold insert
  split
  · rename_i hempty
    exact (or_iff_left (BasicRelation.notMem_of_isObviouslyEmpty hempty)).symm
  · simp only [mem_iff, List.mem_append, List.mem_singleton, or_and_right, exists_or,
      exists_eq_left]

theorem mem_basics_insert {b c : BasicRelation} (h : c ∈ (r.insert b).basics) :
    c ∈ r.basics ∨ c = b ∧ b.contradictory = false := by
  unfold insert at h
  split at h
  · exact .inl h
  · rename_i hempty
    refine (List.mem_append.1 h).imp id fun hc => ⟨List.mem_singleton.1 hc, ?_⟩
    exact BasicRelation.contradictory_of_not_isObviouslyEmpty (by simpa using hempty)

@[simp] theorem space_insert (r : Relation) (b : BasicRelation) : (r.insert b).space = r.space := by
  unfold insert
  split <;> rfl

@[simp] theorem space_insertAll (r : Relation) (bs : List BasicRelation) :
    (r.insertAll bs).space = r.space := by
  induction bs generalizing r with
  | nil => rfl
  | cons b bs ih =>
    rw [insertAll, List.foldl_cons, ← insertAll, ih, space_insert]

theorem mem_insertAll_iff (r : Relation) (bs : List BasicRelation) :
    x ∈ r.insertAll bs ↔ x ∈ r ∨ ∃ b ∈ bs, x ∈ b := by
  induction bs generalizing r with
  | nil => simp [insertAll]
  | cons b bs ih =>
    rw [insertAll, List.foldl_cons, ← insertAll, ih, mem_insert_iff, List.exists_mem_cons_iff,
      or_assoc]

theorem mem_basics_insertAll {bs : List BasicRelation} {c : BasicRelation}
    (h : c ∈ (r.insertAll bs).basics) : c ∈ r.basics ∨ c ∈ bs ∧ c.contradictory = false := by
  induction bs generalizing r with
  | nil => exact .inl h
  | cons b bs ih =>
    rw [insertAll, List.foldl_cons, ← insertAll] at h
    rcases ih h with hc | ⟨hc, hcon⟩
    · rcases mem_basics_insert hc with hc | ⟨rfl, hcon⟩
      · exact .inl hc
      · exact .inr ⟨List.mem_cons_self, hcon⟩
    · exact .inr ⟨List.mem_cons_of_mem b hc, hcon⟩

theorem WellFormed.insertAll (h : r.WellFormed) {bs : List BasicRelation}
    (hb : ∀ b ∈ bs, b.LiesIn r.space) : (r.insertAll bs).WellFormed := by
  refine ⟨by rw [space_insertAll]; exact h.proper, fun c hc => ?_⟩
  rw [space_insertAll]
  exact (mem_basics_insertAll hc).elim (h.basics c) fun hc => hb c hc.1

theorem Tidy.insertAll (h : r.Tidy) {bs : List BasicRelation} (hb : ∀ b ∈ bs, b.EachSolvable) :
    (r.insertAll bs).Tidy :=
  fun c hc => (mem_basics_insertAll hc).elim (h c) fun hc => ⟨hc.2, hb c hc.1⟩

theorem Known.insertAll (h : r.Known) {bs : List BasicRelation}
    (hb : ∀ b ∈ bs, b.ls.allKnown = true) : (r.insertAll bs).Known :=
  fun c hc => (mem_basics_insertAll hc).elim (h c) fun hc => hb c hc.1

theorem wellFormed_empty {s : Space} (h : s.Proper) : (empty s).WellFormed := ⟨h, by simp [empty]⟩

theorem tidy_empty (s : Space) : (empty s).Tidy := by simp [Tidy, empty]

theorem known_empty (s : Space) : (empty s).Known := by simp [Known, empty]

theorem notMem_empty (s : Space) : x ∉ empty s := by simp [mem_iff, empty]

end Insert

section Full

variable {s : Space}

theorem liesIn_full (h : s.Proper) : (BasicRelation.full s).LiesIn s := by
  have hls := BasicRelation.ls_ofLocalSpace (.ofSpace s)
  refine ⟨BasicRelation.wellFormed_ofLocalSpace (LocalSpace.wellFormed_ofSpace s)
    (by simp [LocalSpace.ofSpace, Matrix.empty]), ?_, ?_⟩
  · rw [BasicRelation.full, BasicRelation.space, hls]
    exact h
  · rw [BasicRelation.full, BasicRelation.space, hls]
    exact s.agrees_refl

theorem wellFormed_full (h : s.Proper) : (full s).WellFormed :=
  ⟨h, by simpa [full] using liesIn_full h⟩

theorem tidy_full (s : Space) : (full s).Tidy := by
  simp only [Tidy, full, List.mem_singleton, forall_eq]
  exact ⟨BasicRelation.contradictory_ofLocalSpace _, by
    simp [BasicRelation.full, BasicRelation.ofLocalSpace, LocalSpace.divCount, LocalSpace.ofSpace,
      Matrix.height, Matrix.empty, BasicRelation.EachSolvable]⟩

theorem known_full (s : Space) : (full s).Known := by
  simp [Known, full, BasicRelation.full, LocalSpace.ofSpace, LocalSpace.allKnown, Matrix.empty]

theorem mem_full_iff : x ∈ full s ↔ x.length = s.total := by
  simp only [mem_iff, full, List.mem_singleton, exists_eq_left]
  exact BasicRelation.mem_ofLocalSpace_iff (LocalSpace.wellFormed_ofSpace s)
    (by simp [LocalSpace.ofSpace, Matrix.empty])

end Full

theorem requireSameSpace_eq_ok (h : a.space.agrees b.space = true) :
    a.requireSameSpace b = .ok () := by
  simp [requireSameSpace, require, h]

theorem intersect_eq_ok (ha : a.WellFormed) (hb : b.WellFormed)
    (hs : a.space.agrees b.space = true) :
    ∃ r, a.intersect b = .ok r ∧ r.space = a.space ∧ r.WellFormed ∧ r.Tidy ∧
      (a.Known → b.Known → r.Known) ∧ ∀ x, x ∈ r ↔ x ∈ a ∧ x ∈ b := by
  have hinner : ∀ p ∈ a.basics, ∃ qs, b.basics.mapM p.intersect = .ok qs ∧
      List.Forall₂ (fun q r => r.space = p.space ∧ r.WellFormed ∧ r.EachSolvable ∧
        (p.ls.allKnown = true → q.ls.allKnown = true → r.ls.allKnown = true) ∧
        ∀ x, x ∈ r ↔ x ∈ p ∧ x ∈ q) b.basics qs := by
    intro p hp
    refine mapM_eq_ok fun q hq => ?_
    have hap := ha.basics p hp
    have hbq := hb.basics q hq
    refine BasicRelation.intersect_eq_ok hap.wellFormed hbq.wellFormed ?_ ?_
    · exact Space.agrees_trans (Space.agrees_symm hap.agrees) (Space.agrees_trans hs hbq.agrees)
    · rw [← hap.total_eq ha.proper, ← hbq.total_eq hb.proper,
        Space.total_eq_of_agrees hs ha.proper hb.proper]
  obtain ⟨pieces, hok, hpieces⟩ := mapM_eq_ok hinner
  -- Each piece is what a basic relation of `a` and one of `b` have in common.
  have hmem : ∀ c ∈ pieces.flatten, (c.LiesIn a.space ∧ c.EachSolvable ∧
      (a.Known → b.Known → c.ls.allKnown = true)) ∧ ∀ x ∈ c, x ∈ a ∧ x ∈ b := by
    intro c hc
    obtain ⟨p, hp, qs, hqs, hc⟩ := exists_of_mem_flatten hpieces hc
    obtain ⟨q, hq, hspace, hwf, hsolv, hknown, hpoints⟩ := exists_mem_of_forall₂_right hqs hc
    have hap := ha.basics p hp
    refine ⟨⟨⟨hwf, hspace ▸ hap.proper, hspace ▸ hap.agrees⟩, hsolv,
      fun hka hkb => hknown (hka p hp) (hkb q hq)⟩, fun x hx => ?_⟩
    obtain ⟨hxp, hxq⟩ := (hpoints x).1 hx
    exact ⟨⟨p, hp, hxp⟩, q, hq, hxq⟩
  refine ⟨(empty a.space).insertAll pieces.flatten, ?_, ?_, ?_, ?_, fun hka hkb => ?_, fun x => ?_⟩
  · simp only [intersect, requireSameSpace_eq_ok hs, bind, Except.bind, hok, pure, Except.pure]
  · rw [space_insertAll]
    rfl
  · exact (wellFormed_empty ha.proper).insertAll fun c hc => (hmem c hc).1.1
  · exact (tidy_empty _).insertAll fun c hc => (hmem c hc).1.2.1
  · exact (known_empty _).insertAll fun c hc => (hmem c hc).1.2.2 hka hkb
  · rw [mem_insertAll_iff, or_iff_right (notMem_empty _)]
    constructor
    · rintro ⟨c, hc, hxc⟩
      exact (hmem c hc).2 x hxc
    · rintro ⟨⟨p, hp, hxp⟩, q, hq, hxq⟩
      obtain ⟨qs, hqs, hsub⟩ := exists_subset_flatten hpieces hp
      obtain ⟨c, hc, -, -, -, -, hpoints⟩ := exists_mem_of_forall₂ hqs hq
      exact ⟨c, hsub hc, (hpoints x).2 ⟨hxp, hxq⟩⟩

theorem mapBasics_eq_ok {space : Space} {f : BasicRelation → Except Error BasicRelation}
    {R : BasicRelation → BasicRelation → Prop} (hs : space.Proper)
    (step : ∀ b ∈ r.basics, ∃ b', f b = .ok b' ∧ b'.LiesIn space ∧ (b.Tidy → b'.Tidy) ∧ R b b') :
    ∃ r', r.mapBasics space f = .ok r' ∧ r'.space = space ∧ r'.WellFormed ∧
      (r.Tidy → r'.Tidy) ∧ List.Forall₂ R r.basics r'.basics := by
  obtain ⟨bs, hok, hbs⟩ := mapM_eq_ok step
  refine ⟨⟨space, bs⟩, by simp only [mapBasics, bind, Except.bind, hok, pure, Except.pure], rfl,
    ⟨hs, forall_mem_of_forall₂ hbs fun _ _ _ h => h.1⟩, fun ht =>
    forall_mem_of_forall₂ hbs fun b hb _ h => h.2.1 (ht b hb), hbs.imp fun _ _ h => h.2.2⟩

theorem resetSpace_eq_ok {space : Space} (h : r.WellFormed) (hs : space.Proper)
    (ht : space.total = r.space.total) :
    ∃ r', r.resetSpace space = .ok r' ∧ r'.space = space ∧ r'.WellFormed ∧
      (r.Tidy → r'.Tidy) ∧ ∀ x, x ∈ r' ↔ x ∈ r := by
  obtain ⟨r', hok, hspace, hwf, htidy, hbs⟩ := mapBasics_eq_ok (r := r) (f := (·.resetSpace space))
    (R := fun b b' => ∀ x, x ∈ b' ↔ x ∈ b) hs fun b hb => by
      have hb' := h.basics b hb
      obtain ⟨b', hok, hspace, hwf, hcs, hcon, -, hmem⟩ :=
        BasicRelation.resetSpace_eq_ok (ht.trans (hb'.total_eq h.proper))
      refine ⟨b', hok, ⟨hwf hb'.wellFormed, hspace ▸ hs, hspace ▸ space.agrees_refl⟩, fun ht => ?_,
        hmem⟩
      exact ⟨hcon.trans ht.consistent, fun c hc => ht.solvable c (hcs ▸ hc)⟩
  refine ⟨r', ?_, hspace, hwf, htidy, fun x => exists_mem_iff_of_forall₂ hbs fun b b' h => h x⟩
  simp only [resetSpace, require, ht, beq_self_eq_true, if_true, bind, Except.bind, hok]

theorem union_eq_ok (hs : a.space.agrees b.space = true)
    (ht : ∀ q ∈ b.basics, a.space.total = q.space.total) :
    ∃ r, a.union b = .ok r ∧ r.space = a.space ∧ (a.WellFormed → b.WellFormed → r.WellFormed) ∧
      (a.Tidy → b.Tidy → r.Tidy) ∧ (a.Known → b.Known → r.Known) ∧
      ∀ x, x ∈ r ↔ x ∈ a ∨ x ∈ b := by
  obtain ⟨bs, hok, hbs⟩ := mapM_eq_ok (f := (·.resetSpace a.space)) fun q hq =>
    BasicRelation.resetSpace_eq_ok (ht q hq)
  refine ⟨a.insertAll bs, ?_, space_insertAll a bs, fun ha hb => ?_, fun ha hb => ?_,
    fun ha hb => ?_, fun x => ?_⟩
  · simp only [union, requireSameSpace_eq_ok hs, bind, Except.bind, hok, pure, Except.pure]
  · refine ha.insertAll (forall_mem_of_forall₂ hbs fun q hq r hr => ?_)
    exact ⟨hr.2.1 (hb.basics q hq).wellFormed, hr.1 ▸ ha.proper, hr.1 ▸ a.space.agrees_refl⟩
  · refine ha.insertAll (forall_mem_of_forall₂ hbs fun q hq r hr => ?_)
    exact fun c hc => (hb q hq).solvable c (hr.2.2.1 ▸ hc)
  · exact ha.insertAll (forall_mem_of_forall₂ hbs fun q hq r hr => hr.2.2.2.2.1 ▸ hb q hq)
  · rw [mem_insertAll_iff, exists_mem_iff_of_forall₂ hbs fun q r hr => hr.2.2.2.2.2 x]
    rfl

theorem union_spec (hok : a.union b = .ok r) :
    r.space = a.space ∧ (a.WellFormed → b.WellFormed → r.WellFormed) ∧
      ∀ x, x ∈ r ↔ x ∈ a ∨ x ∈ b := by
  obtain ⟨_, hs, hreset⟩ := bind_eq_ok_iff.1 hok
  obtain ⟨bs, hbs, -⟩ := bind_eq_ok_iff.1 hreset
  obtain ⟨r', hok', hspace, hwf, -, -, hmem⟩ := union_eq_ok (require_eq_ok_iff.1 hs) fun q hq => by
    obtain ⟨q', -, hq'⟩ := exists_mem_of_forall₂ (forall₂_of_mapM_eq_ok hbs) hq
    obtain ⟨ls, hls, -⟩ := bind_eq_ok_iff.1 hq'
    obtain ⟨_, ht, -⟩ := bind_eq_ok_iff.1 hls
    exact beq_iff_eq.1 (require_eq_ok_iff.1 ht)
  obtain rfl := Except.ok.inj (hok'.symm.trans hok)
  exact ⟨hspace, hwf, hmem⟩

theorem WellFormed.union_eq_ok (ha : a.WellFormed) (hb : b.WellFormed)
    (hs : a.space.agrees b.space = true) :
    ∃ r, a.union b = .ok r ∧ r.space = a.space ∧ r.WellFormed ∧ (a.Tidy → b.Tidy → r.Tidy) ∧
      (a.Known → b.Known → r.Known) ∧ ∀ x, x ∈ r ↔ x ∈ a ∨ x ∈ b := by
  obtain ⟨r, hok, hspace, hwf, hrest⟩ := Relation.union_eq_ok hs fun q hq => by
    rw [← (hb.basics q hq).total_eq hb.proper, Space.total_eq_of_agrees hs ha.proper hb.proper]
  exact ⟨r, hok, hspace, hwf ha hb, hrest⟩

section Dimensions

variable {kind : DimKind} {n : Nat}

theorem addDims_eq_ok (kind : DimKind) (n : Nat) (h : r.WellFormed) (hk : kind ≠ .div)
    (ht : kind = .param ∨ r.space.hasTuple kind = true) (hn : 0 < n) :
    ∃ r', r.addDims kind n = .ok r' ∧
      r'.space = r.space.insertUnchecked (r.space.dim kind) n kind ∧ r'.WellFormed ∧
      (r.Tidy → r'.Tidy) ∧ (r.Known → r'.Known) ∧
      ∀ u v w, u.length = r.space.offset kind + r.space.dim kind → v.length = n →
        (u ++ v ++ w ∈ r' ↔ u ++ w ∈ r) := by
  have hspace : r.space.addDims kind n =
      .ok (r.space.insertUnchecked (r.space.dim kind) n kind) := by
    simp [Space.addDims, Space.insertDims, require, ht, bind, Except.bind, pure, Except.pure]
  obtain ⟨r', hok, hrs, hwf, htidy, hbs⟩ := mapBasics_eq_ok (r := r) (f := (·.addDims kind n))
    (R := fun b b' => (b.ls.allKnown = true → b'.ls.allKnown = true) ∧
      ∀ u v w, u.length = r.space.offset kind + r.space.dim kind → v.length = n →
        (u ++ v ++ w ∈ b' ↔ u ++ w ∈ b))
    (show (r.space.insertUnchecked (r.space.dim kind) n kind).Proper from
      h.proper.insertUnchecked ht) fun b hb => by
      have hb' := h.basics b hb
      have hdim := Space.dim_eq_of_agrees kind hb'.agrees h.proper hb'.proper
      have htuple := Space.hasTuple_eq_of_agrees kind hb'.agrees
      have hoffset := Space.offset_eq_of_agrees kind hb'.agrees h.proper hb'.proper
      have hlsdim : b.ls.dim kind = b.space.dim kind := by
        cases kind <;> first | rfl | exact absurd rfl hk
      rw [htuple] at ht
      obtain ⟨b', hok, hspace, hwf, hs, hcon, hk, hmem⟩ := BasicRelation.insertDims_eq_ok
        hb'.wellFormed hk (Nat.le_refl (b.space.dim kind)) ht hn
      rw [hdim, hoffset]
      refine ⟨b', by rw [BasicRelation.addDims, hlsdim, hok], ⟨hwf, ?_, ?_⟩, fun ht => ?_, hk, hmem⟩
      · exact hspace ▸ hb'.proper.insertUnchecked ht
      · exact hspace ▸ Space.agrees_insertUnchecked hb'.agrees
      · exact ⟨hcon.trans ht.consistent, hs ht.solvable⟩
  refine ⟨r', by simp only [addDims, hspace, bind, Except.bind, hok], hrs, hwf, htidy, fun hk => ?_,
    fun u v w hu hv => exists_mem_iff_of_forall₂ hbs fun b b' h => h.2 u v w hu hv⟩
  exact forall_mem_of_forall₂ hbs fun b hb b' h => h.1 (hk b hb)

theorem projectOut_eq_ok (kind : DimKind) (first n : Nat) (h : r.WellFormed) (hk : kind ≠ .div)
    (hf : first + n ≤ r.space.dim kind) (ht : kind = .param ∨ r.space.hasTuple kind = true)
    (hn : 0 < n) :
    ∃ r', r.projectOut kind first n = .ok r' ∧
      r'.space = r.space.dropUnchecked first n kind ∧ r'.WellFormed ∧ (r.Tidy → r'.Tidy) ∧
      ∀ u w, u.length = r.space.offset kind + first →
        (u ++ w ∈ r' ↔ ∃ v, v.length = n ∧ u ++ v ++ w ∈ r) := by
  have hspace : r.space.dropDims kind first n = .ok (r.space.dropUnchecked first n kind) := by
    simp [Space.dropDims, require, hf, ht, bind, Except.bind, pure, Except.pure]
  obtain ⟨r', hok, hrs, hwf, htidy, hbs⟩ := mapBasics_eq_ok (r := r)
    (f := (·.projectOut kind first n))
    (R := fun b b' => ∀ u w, u.length = r.space.offset kind + first →
      (u ++ w ∈ b' ↔ ∃ v, v.length = n ∧ u ++ v ++ w ∈ b))
    (show (r.space.dropUnchecked first n kind).Proper from h.proper.dropUnchecked ht) fun b hb => by
      have hb' := h.basics b hb
      have hdim := Space.dim_eq_of_agrees kind hb'.agrees h.proper hb'.proper
      have htuple := Space.hasTuple_eq_of_agrees kind hb'.agrees
      have hoffset := Space.offset_eq_of_agrees kind hb'.agrees h.proper hb'.proper
      rw [htuple] at ht
      rw [hdim] at hf
      obtain ⟨b', hok, hspace, hwf, hs, hcon, hmem⟩ := BasicRelation.projectOut_eq_ok
        hb'.wellFormed hk hf ht hn
      rw [hoffset]
      refine ⟨b', hok, ⟨hwf, ?_, ?_⟩, fun ht => ?_, hmem⟩
      · exact hspace ▸ hb'.proper.dropUnchecked ht
      · exact hspace ▸ Space.agrees_dropUnchecked hb'.agrees
      · exact ⟨hcon.trans ht.consistent, hs ht.solvable⟩
  refine ⟨r', by simp only [projectOut, hspace, bind, Except.bind, hok], hrs, hwf, htidy, ?_⟩
  intro u w hu
  rw [mem_iff, exists_mem_iff_of_forall₂ hbs fun b b' h => h u w hu]
  constructor
  · rintro ⟨b, hb, v, hv, hmem⟩
    exact ⟨v, hv, b, hb, hmem⟩
  · rintro ⟨v, hv, b, hb, hmem⟩
    exact ⟨b, hb, v, hv, hmem⟩

end Dimensions

theorem recoverDefinitions_eq_ok (h : r.WellFormed) :
    ∃ r', r.recoverDefinitions = .ok r' ∧ r'.relation.space = r.space ∧ r'.relation.WellFormed ∧
      (r.Tidy → r'.relation.Tidy) ∧ (r.Known → r'.relation.Known) ∧
      ∀ x, x ∈ r'.relation ↔ x ∈ r := by
  obtain ⟨bs, hok, hbs⟩ := mapM_eq_ok (f := (·.recoverDefinitions)) fun b hb =>
    BasicRelation.recoverDefinitions_eq_ok (h.basics b hb).wellFormed
  have hmap : List.Forall₂ (fun b b' => b'.space = b.space ∧ b'.WellFormed ∧
      b'.contradictory = b.contradictory ∧ (b.EachSolvable → b'.EachSolvable) ∧
      ∀ x, x ∈ b' ↔ x ∈ b) r.basics (bs.map (·.relation)) := by
    rw [List.forall₂_map_right_iff]
    refine hbs.imp fun b r' ⟨hwf, hspace, hcon, hs, hholds⟩ => ⟨hspace, hwf, hcon, hs, fun x => ?_⟩
    rw [BasicRelation.mem_iff, BasicRelation.mem_iff, hspace]
    exact and_congr_right fun hx => exists_congr fun d => hholds x d hx
  refine ⟨⟨{ r with basics := bs.map (·.relation) },
    bs.foldl (fun found basic => found + basic.found) 0⟩, ?_, rfl, ⟨h.proper, ?_⟩, fun ht => ?_,
    fun hk => ?_, fun x => exists_mem_iff_of_forall₂ hmap fun _ _ h => h.2.2.2.2 x⟩
  · simp only [recoverDefinitions, bind, Except.bind, hok, pure, Except.pure]
  · refine forall_mem_of_forall₂ hmap fun b hb b' h' => ?_
    have hb' := h.basics b hb
    exact ⟨h'.2.1, h'.1 ▸ hb'.proper, h'.1 ▸ hb'.agrees⟩
  · refine forall_mem_of_forall₂ hmap fun b hb b' h' => ?_
    exact ⟨h'.2.2.1.trans (ht b hb).consistent, h'.2.2.2.1 (ht b hb).solvable⟩
  · have hsame : ∀ b ∈ r.basics, b.recoverDefinitions = .ok ⟨b, 0⟩ := fun b hb =>
      BasicRelation.recoverDefinitions_of_allKnown (hk b hb)
    rw [mapM_eq_ok_map hsame] at hok
    obtain rfl := Except.ok.inj hok
    simpa [Known] using hk

theorem sortDivs_spec (h : r.WellFormed) :
    (∀ b ∈ r.sortDivs.basics, r.space.total = b.space.total) ∧ ∀ x, x ∈ r.sortDivs ↔ x ∈ r := by
  have hsort := fun b hb => BasicRelation.sortDivs_spec (h.basics b hb).wellFormed.wide
  constructor
  · intro b hb
    obtain ⟨c, hc, rfl⟩ := List.mem_map.1 hb
    rw [(hsort c hc).1]
    exact (h.basics c hc).total_eq h.proper
  · intro x
    constructor
    · rintro ⟨b, hb, hx⟩
      obtain ⟨c, hc, rfl⟩ := List.mem_map.1 hb
      exact ⟨c, hc, ((hsort c hc).2.2 x).1 hx⟩
    · rintro ⟨c, hc, hx⟩
      exact ⟨_, List.mem_map.2 ⟨c, hc, rfl⟩, ((hsort c hc).2.2 x).2 hx⟩

end Relation

end Quasiaffine
