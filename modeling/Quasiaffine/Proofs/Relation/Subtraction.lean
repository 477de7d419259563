import Quasiaffine.Proofs.BasicRelation.Bounds
import Quasiaffine.Proofs.Relation.Points

/-!
Subtraction is set difference. It cuts off, one constraint after the other, the points that break a
constraint of the basic relation that is taken away. The bounds of divisions need not be looked at,
and since the divisions have definitions, the values with which a point belongs to the basic
relation are determined.
-/

set_option autoImplicit false

namespace Quasiaffine

def BasicRelation.Definable (b : BasicRelation) : Prop :=
  ∃ r, b.recoverDefinitions = .ok r ∧ r.relation.ls.allKnown = true

theorem BasicRelation.definable_of_allKnown {b : BasicRelation} (h : b.ls.allKnown = true) :
    b.Definable := ⟨_, recoverDefinitions_of_allKnown h, h⟩

namespace Relation

open BasicRelation

structure IsCut (inside b : BasicRelation) : Prop where
  ls : b.ls = inside.ls
  wellFormed : b.WellFormed
  tidy : b.Tidy

structure Restricts (inside : BasicRelation) (c : Constraint) (b : BasicRelation) : Prop where
  ls : b.ls = inside.ls
  wellFormed : b.WellFormed
  solvable : inside.EachSolvable → b.EachSolvable
  admits : ∀ v, b.Admits (1 :: v) ↔ inside.Admits (1 :: v) ∧ c.isSatisfied (1 :: v) = true

section Restricts

variable {inside b : BasicRelation} {c : Constraint} {x : Row}

theorem exists_restricts (h : inside.WellFormed) (hc : c.width = inside.width) :
    ∃ b, inside.addConstraint c = .ok b ∧ Restricts inside c b := by
  obtain ⟨b, hok, hls, hwf, hs, -, hadm⟩ := addConstraint_eq_ok h hc
  exact ⟨b, hok, hls, hwf, hs, hadm⟩

theorem Restricts.width_eq (h : Restricts inside c b) : b.width = inside.width := by
  rw [BasicRelation.width, BasicRelation.width, h.ls]

theorem Restricts.total_eq (h : Restricts inside c b) : b.space.total = inside.space.total := by
  rw [BasicRelation.space, BasicRelation.space, h.ls]

theorem Restricts.holds_iff (h : Restricts inside c b) (x d : Row) :
    b.Holds x d ↔ inside.Holds x d ∧ c.isSatisfied (1 :: (x ++ d)) = true := by
  constructor
  · rintro ⟨ha, hadm⟩
    obtain ⟨hin, hsat⟩ := (h.admits _).1 hadm
    exact ⟨⟨h.ls ▸ ha, hin⟩, hsat⟩
  · rintro ⟨⟨ha, hadm⟩, hsat⟩
    exact ⟨h.ls ▸ ha, (h.admits _).2 ⟨hadm, hsat⟩⟩

theorem Restricts.mem_iff (h : Restricts inside c b) : x ∈ b ↔ x.length = inside.space.total ∧
    ∃ d, inside.Holds x d ∧ c.isSatisfied (1 :: (x ++ d)) = true := by
  rw [BasicRelation.mem_iff, h.total_eq]
  exact and_congr_right fun _ => exists_congr fun d => h.holds_iff x d

end Restricts

theorem exists_mem_filter_iff {bs : List BasicRelation} {x : Row} :
    (∃ b ∈ bs.filter (fun piece => !piece.isObviouslyEmpty), x ∈ b) ↔ ∃ b ∈ bs, x ∈ b := by
  constructor
  · rintro ⟨b, hb, hx⟩
    exact ⟨b, (List.mem_filter.1 hb).1, hx⟩
  · rintro ⟨b, hb, hx⟩
    refine ⟨b, List.mem_filter.2 ⟨hb, ?_⟩, hx⟩
    rw [Bool.not_eq_true']
    exact Bool.eq_false_iff.2 fun h => notMem_of_isObviouslyEmpty h hx

/-- How a constraint splits `inside`: the parts that break it are cut off, the rest satisfies it. -/
structure Splits (inside : BasicRelation) (c : Constraint) (cut : List BasicRelation)
    (next : BasicRelation) : Prop where
  width : 0 < c.width
  parts : List.Forall₂ (Restricts inside) c.complements cut
  rest : Restricts inside c next

section Splits

variable {inside next : BasicRelation} {c : Constraint} {cut : List BasicRelation}

theorem cutOff_cons (h : inside.WellFormed) (hc : c.width = inside.width) :
    ∃ cut next, Splits inside c cut next ∧ ∀ pieces cs, cutOff pieces inside (c :: cs) =
      if next.isObviouslyEmpty then .ok (pieces ++ cut.filter fun piece => !piece.isObviouslyEmpty)
      else cutOff (pieces ++ cut.filter fun piece => !piece.isObviouslyEmpty) next cs := by
  obtain ⟨cut, hcut, hparts⟩ := mapM_eq_ok (f := inside.addConstraint) (l := c.complements)
    fun c' hc' => exists_restricts h ((Constraint.width_complement hc').trans hc)
  obtain ⟨next, hnext, hrest⟩ := exists_restricts h hc
  have hpos : 0 < c.width := by
    rw [hc]
    exact Nat.lt_of_lt_of_le Nat.one_pos (Nat.le_add_right 1 _)
  refine ⟨cut, next, ⟨hpos, hparts, hrest⟩, fun pieces cs => ?_⟩
  simp only [cutOff, bind, Except.bind, hcut, hnext]
  rfl

theorem Splits.isCut (h : Splits inside c cut next) (hs : inside.EachSolvable) :
    ∀ b ∈ cut.filter (fun piece => !piece.isObviouslyEmpty), IsCut inside b := by
  intro b hb
  rw [List.mem_filter, Bool.not_eq_true'] at hb
  refine forall_mem_of_forall₂ (q := fun b => b.contradictory = false → IsCut inside b) h.parts
    (fun c' _ b hb hcon => ⟨hb.ls, hb.wellFormed, hcon, hb.solvable hs⟩) b hb.1 ?_
  exact contradictory_of_not_isObviouslyEmpty hb.2

theorem Splits.exists_mem_iff (h : Splits inside c cut next) (x : Row) :
    (∃ b ∈ cut, x ∈ b) ↔ x.length = inside.space.total ∧
      ∃ d, inside.Holds x d ∧ c.isSatisfied (1 :: (x ++ d)) = false := by
  rw [exists_mem_iff_of_forall₂ h.parts fun c' b hb => hb.mem_iff]
  constructor
  · rintro ⟨c', hc', hx, d, hd, hsat⟩
    exact ⟨hx, d, hd, (Constraint.exists_complement_iff h.width _).1 ⟨c', hc', hsat⟩⟩
  · rintro ⟨hx, d, hd, hsat⟩
    obtain ⟨c', hc', hsat⟩ := (Constraint.exists_complement_iff h.width _).2 hsat
    exact ⟨c', hc', hx, d, hd, hsat⟩

end Splits

/-- The pieces hold the points of `inside` that break one of the constraints. -/
theorem cutOff_eq_ok (cs : List Constraint) (pieces : List BasicRelation) {inside : BasicRelation}
    (h : inside.WellFormed) (hs : inside.EachSolvable) (hc : ∀ c ∈ cs, c.width = inside.width) :
    ∃ out, cutOff pieces inside cs = .ok out ∧ (∀ b ∈ out, b ∈ pieces ∨ IsCut inside b) ∧
      ∀ x, (∃ b ∈ out, x ∈ b) ↔ (∃ b ∈ pieces, x ∈ b) ∨ x.length = inside.space.total ∧
        ∃ d, inside.Holds x d ∧ ∃ c ∈ cs, c.isSatisfied (1 :: (x ++ d)) = false := by
  induction cs generalizing pieces inside with
  | nil => exact ⟨pieces, rfl, fun b hb => .inl hb, by simp⟩
  | cons c cs ih =>
    rw [List.forall_mem_cons] at hc
    obtain ⟨cut, next, hsplit, heq⟩ := cutOff_cons h hc.1
    have hstep : ∀ b ∈ pieces ++ cut.filter (fun piece => !piece.isObviouslyEmpty),
        b ∈ pieces ∨ IsCut inside b := fun b hb =>
      (List.mem_append.1 hb).imp id (hsplit.isCut hs b)
    rw [heq]
    by_cases hempty : next.isObviouslyEmpty = true
    · rw [if_pos hempty]
      refine ⟨_, rfl, hstep, fun x => ?_⟩
      simp only [List.mem_append, or_and_right, exists_or, exists_mem_filter_iff,
        hsplit.exists_mem_iff]
      refine or_congr_right (and_congr_right fun hx => exists_congr fun d => ?_)
      refine and_congr_right fun hd => ⟨fun h => ⟨c, List.mem_cons_self, h⟩, ?_⟩
      rintro ⟨-, -, -⟩
      -- Nothing of `inside` satisfies the constraint.
      by_contra hsat
      rw [Bool.not_eq_false] at hsat
      exact notMem_of_isObviouslyEmpty hempty (hsplit.rest.mem_iff.2 ⟨hx, d, hd, hsat⟩)
    · rw [if_neg hempty]
      obtain ⟨out, hok, hout, hmem⟩ := ih
        (pieces ++ cut.filter (fun piece => !piece.isObviouslyEmpty)) hsplit.rest.wellFormed
        (hsplit.rest.solvable hs) fun c' hc' => (hc.2 c' hc').trans hsplit.rest.width_eq.symm
      refine ⟨out, hok, fun b hb => ?_, fun x => ?_⟩
      · rcases hout b hb with hb | hb
        · exact hstep b hb
        · exact .inr ⟨hb.ls.trans hsplit.rest.ls, hb.wellFormed, hb.tidy⟩
      · rw [hmem x, hsplit.rest.total_eq]
        simp only [List.mem_append, or_and_right, exists_or, exists_mem_filter_iff,
          hsplit.exists_mem_iff, or_assoc, hsplit.rest.holds_iff]
        refine or_congr_right ?_
        rw [← and_or_left, ← exists_or]
        refine and_congr_right fun _ => exists_congr fun d => ?_
        rw [List.exists_mem_cons_iff]
        constructor
        · rintro (⟨hd, hsat⟩ | ⟨⟨hd, -⟩, hsat⟩)
          · exact ⟨hd, .inl hsat⟩
          · exact ⟨hd, .inr hsat⟩
        · rintro ⟨hd, hsat | hsat⟩
          · exact .inl ⟨hd, hsat⟩
          · cases hcs : c.isSatisfied (1 :: (x ++ d)) with
            | false => exact .inl ⟨hd, rfl⟩
            | true => exact .inr ⟨⟨hd, rfl⟩, hsat⟩

variable {s : Space}

/-- Two basic relations over spaces with the same dimensions, written over common divisions. -/
structure Aligned (p q : BasicRelation) (m : MergedSpace) (inside other : BasicRelation) : Prop where
  total : p.space.total = q.space.total
  space : m.ls.space = p.space
  divisions : m.ls.WellFormed
  nonnegative : ∀ r ∈ m.ls.divs.rows, 0 ≤ r.entry 0
  left : p.WellFormed
  right : q.WellFormed
  merge : IsMerge (2 + p.space.total) p.ls.divs.rows q.ls.divs.rows m.ls.divs.rows m.left m.right
  expanded : q.expandInto m.ls m.right = .ok other
  result : subtractBasic p q = cutOff [] inside (other.constraints.filter fun c => !other.isDivBound c)
  inside_ls : inside.ls = m.ls
  inside_wellFormed : inside.WellFormed
  inside_solvable : inside.EachSolvable
  inside_admits : ∀ x d, x.length = p.space.total → m.ls.Assigns x d →
    (inside.Admits (1 :: (x ++ d)) ↔ p.Admits (1 :: (x ++ m.left.map d.entry)))
  other_ls : other.ls = m.ls
  other_wellFormed : other.WellFormed
  other_consistent : q.EachSolvable → (other.contradictory = false ↔ q.contradictory = false)
  other_admits : ∀ x d, x.length = q.space.total → m.ls.Assigns x d →
    (other.Admits (1 :: (x ++ d)) ↔ q.Admits (1 :: (x ++ m.right.map d.entry)))

theorem exists_aligned {p q : BasicRelation} (hs : s.Proper) (hp : p.LiesIn s) (hq : q.LiesIn s) :
    ∃ m inside other, Aligned p q m inside other := by
  have hagree := Space.agrees_trans (Space.agrees_symm hp.agrees) hq.agrees
  have ht : p.space.total = q.space.total := by rw [← hp.total_eq hs, hq.total_eq hs]
  obtain ⟨m, hm, hspace, hwf, hmerge, -⟩ := LocalSpace.merge_eq_ok hp.wellFormed.divisions
    hq.wellFormed.divisions hagree ht
  have htm : m.ls.space.total = p.space.total := by rw [hspace, BasicRelation.space]
  have hpos := positive_merge hp.wellFormed hq.wellFormed ht hmerge
  obtain ⟨inside, hinside, hils, hiwf, his, -, hiadm⟩ := expandInto_eq_ok hp.wellFormed hwf hpos htm
    hmerge.left.nodup hmerge.left.lt hmerge.left.length
  obtain ⟨other, hother, hols, howf, -, hocon, hoadm⟩ := expandInto_eq_ok hq.wellFormed hwf hpos
    (htm.trans ht) hmerge.right.nodup hmerge.right.lt hmerge.right.length
  exact ⟨m, inside, other, ht, hspace, hwf, hpos, hp.wellFormed, hq.wellFormed, hmerge, hother,
    by simp only [subtractBasic, hm, bind, Except.bind, hinside, hother], hils, hiwf, his, hiadm,
    hols, howf, hocon, hoadm⟩

namespace Aligned

variable {p q inside other : BasicRelation} {m : MergedSpace} {x : Row}
  (h : Aligned p q m inside other)
include h

theorem total_inside : inside.space.total = p.space.total := by
  rw [BasicRelation.space, h.inside_ls, h.space]

theorem total_other : other.space.total = q.space.total := by
  rw [BasicRelation.space, h.other_ls, h.space, h.total]

theorem width_eq {c : Constraint}
    (hc : c ∈ other.constraints.filter fun c => !other.isDivBound c) : c.width = inside.width := by
  rw [h.other_wellFormed.width c (List.mem_filter.1 hc).1, BasicRelation.width, BasicRelation.width,
    h.other_ls, h.inside_ls]

theorem triangular_right :
    Triangular (2 + p.space.total) q.ls.divs.rows.length q.ls.divs.rows := by
  have hqt := h.right.divisions.triangular
  rwa [show q.ls.space.total = p.space.total from h.total.symm] at hqt

theorem operands {d : Row} (hx : x.length = p.space.total) (hd : m.ls.Assigns x d) :
    p.ls.Assigns x (m.left.map d.entry) ∧ q.ls.Assigns x (m.right.map d.entry) :=
  hd.operands h.merge h.total hx h.left.divisions.triangular h.triangular_right

theorem isKnown (hp : p.ls.allKnown = true) (hq : q.ls.allKnown = true) :
    m.ls.allKnown = true :=
  List.all_eq_true.2 (h.merge.isKnown (by omega) h.left.divisions.triangular h.triangular_right
    (List.all_eq_true.1 hp) (List.all_eq_true.1 hq))

theorem mem_of_breaks (hk : q.ls.allKnown = true) (hx : x.length = p.space.total)
    (hbreaks : ∃ d, inside.Holds x d ∧ ∃ c ∈ other.constraints.filter fun c => !other.isDivBound c,
      c.isSatisfied (1 :: (x ++ d)) = false) : x ∈ p ∧ x ∉ q := by
  -- The divisions of `q` have definitions, so a point of `p` has no other values for them
  -- than those with which it breaks a constraint of `q`.
  obtain ⟨d, hd, c, hc, hsat⟩ := hbreaks
  have hmd : m.ls.Assigns x d := h.inside_ls ▸ hd.assigns
  obtain ⟨hda, hdb⟩ := h.operands hx hmd
  refine ⟨⟨hx, _, hda, (h.inside_admits x d hx hmd).1 hd.admits⟩, ?_⟩
  rintro ⟨-, d', hd'⟩
  obtain rfl := hd'.assigns.unique hdb h.right.divisions hk (hx.trans h.total)
  have hall := ((h.other_admits x d (hx.trans h.total) hmd).2 hd'.admits).satisfied c
    (List.mem_filter.1 hc).1
  rw [hall] at hsat
  cases hsat

/-- A point of `p` outside `q` breaks a constraint of `q` that is no bound of a division. -/
theorem exists_breaks (hqt : q.Tidy) (hp : x ∈ p) (hnot : x ∉ q) : x.length = p.space.total ∧
    ∃ d, inside.Holds x d ∧ ∃ c ∈ other.constraints.filter fun c => !other.isDivBound c,
      c.isSatisfied (1 :: (x ++ d)) = false := by
  obtain ⟨hx, dp, hdp⟩ := hp
  have hxq := hx.trans h.total
  obtain ⟨dq, hdq⟩ := LocalSpace.exists_assigns h.right.divisions hxq
  obtain ⟨d, hd, rfl, rfl⟩ := LocalSpace.Assigns.amalgam h.merge h.total hx
    h.left.divisions.triangular h.triangular_right hdp.assigns hdq
  refine ⟨hx, d, ⟨h.inside_ls ▸ hd, (h.inside_admits x d hx hd).2 hdp.admits⟩, ?_⟩
  by_contra hall
  push Not at hall
  refine hnot ⟨hxq, _, hdq, (h.other_admits x d hxq hd).1 ⟨?_, fun c hc => ?_⟩⟩
  · exact (h.other_consistent hqt.solvable).2 hqt.consistent
  · by_cases hbound : other.isDivBound c = true
    · exact isSatisfied_of_isDivBound h.other_wellFormed (h.other_wellFormed.width c hc) hbound
        (hxq.trans h.total_other.symm) (h.other_ls ▸ hd)
    · simpa using hall c (List.mem_filter.2 ⟨hc, by simpa using hbound⟩)

end Aligned

theorem subtractBasic_eq_ok {p q : BasicRelation} (hs : s.Proper) (hp : p.LiesIn s)
    (hq : q.LiesIn s) (hk : q.ls.allKnown = true) :
    ∃ out, subtractBasic p q = .ok out ∧
      (∀ b ∈ out, b.LiesIn s ∧ b.Tidy ∧ (p.ls.allKnown = true → b.ls.allKnown = true)) ∧
      (∀ x, (∃ b ∈ out, x ∈ b) → x ∈ p ∧ x ∉ q) ∧
      (q.Tidy → ∀ x, x ∈ p → x ∉ q → ∃ b ∈ out, x ∈ b) := by
  -- The values of the divisions of `q` are determined, so a point of `p` belongs to `q`
  -- just if it satisfies the constraints of `q` at these values.
  obtain ⟨m, inside, other, h⟩ := exists_aligned hs hp hq
  obtain ⟨out, hout, hcuts, hpoints⟩ := cutOff_eq_ok
    (other.constraints.filter fun c => !other.isDivBound c) [] h.inside_wellFormed
    h.inside_solvable fun c => h.width_eq
  simp only [List.not_mem_nil, false_and, exists_false, false_or, h.total_inside] at hpoints
  refine ⟨out, h.result.trans hout, fun b hb => ?_,
    fun x hx => h.mem_of_breaks hk ((hpoints x).1 hx).1 ((hpoints x).1 hx).2,
    fun hqt x hxp hxq => (hpoints x).2 (h.exists_breaks hqt hxp hxq)⟩
  have hb' : IsCut inside b := (hcuts b hb).resolve_left (by simp)
  have hbs : b.space = p.space := by rw [BasicRelation.space, hb'.ls, h.inside_ls, h.space]
  refine ⟨⟨hb'.wellFormed, hbs ▸ hp.proper, hbs ▸ hp.agrees⟩, hb'.tidy, fun hka => ?_⟩
  rw [hb'.ls, h.inside_ls]
  exact h.isKnown hka hk

/-- Subtraction either gives the points of `pieces` outside `q`, or it finds a division of `q`
without a definition. -/
theorem subtractFrom_spec {pieces : List BasicRelation} {q : BasicRelation} (hs : s.Proper)
    (hp : ∀ p ∈ pieces, p.LiesIn s) (hq : q.LiesIn s) :
    (∃ out, subtractFrom pieces q = .ok out ∧ q.Definable ∧ (∀ b ∈ out, b.LiesIn s ∧ b.Tidy) ∧
      ((∀ p ∈ pieces, p.ls.allKnown = true) → ∀ b ∈ out, b.ls.allKnown = true) ∧
      (∀ x, (∃ b ∈ out, x ∈ b) → (∃ b ∈ pieces, x ∈ b) ∧ x ∉ q) ∧
      (q.Tidy → ∀ x, (∃ b ∈ pieces, x ∈ b) → x ∉ q → ∃ b ∈ out, x ∈ b)) ∨
    subtractFrom pieces q = .error (.unsupported .subtractingQuantified) ∧ ¬q.Definable := by
  obtain ⟨q', hq', hqwf, hspace, hcon, hsolv, hholds⟩ :=
    BasicRelation.recoverDefinitions_eq_ok hq.wellFormed
  have hlies : q'.relation.LiesIn s := ⟨hqwf, hspace ▸ hq.proper, hspace ▸ hq.agrees⟩
  have htidy : q.Tidy → q'.relation.Tidy := fun hqt =>
    ⟨hcon.trans hqt.consistent, hsolv hqt.solvable⟩
  have hmem : ∀ x, x ∈ q'.relation ↔ x ∈ q := fun x => by
    rw [BasicRelation.mem_iff, BasicRelation.mem_iff, hspace]
    exact and_congr_right fun hx => exists_congr fun d => hholds x d hx
  -- Recovery changes neither points nor values, so all is said of what it leaves of `q`.
  simp only [subtractFrom, bind, Except.bind, hq']
  by_cases hk : q'.relation.ls.allKnown = true
  · left
    obtain ⟨outs, houts, hcuts⟩ := mapM_eq_ok (f := (subtractBasic · q'.relation)) (l := pieces)
      fun p hpm => subtractBasic_eq_ok hs (hp p hpm) hlies hk
    have hout : ∀ b ∈ outs.flatten, (b.LiesIn s ∧ b.Tidy) ∧
        ((∀ p ∈ pieces, p.ls.allKnown = true) → b.ls.allKnown = true) := by
      intro b hb
      obtain ⟨p, hpm, out, h, hb⟩ := exists_of_mem_flatten hcuts hb
      obtain ⟨hblies, hbt, hbk⟩ := h.1 b hb
      exact ⟨⟨hblies, hbt⟩, fun hk => hbk (hk p hpm)⟩
    refine ⟨outs.flatten, by simp [hk, houts, pure, Except.pure], ⟨q', hq', hk⟩,
      fun b hb => (hout b hb).1, fun hk b hb => (hout b hb).2 hk, fun x => ?_, fun hqt x => ?_⟩
    · rintro ⟨b, hb, hx⟩
      obtain ⟨p, hpm, out, h, hb⟩ := exists_of_mem_flatten hcuts hb
      obtain ⟨hxp, hxq⟩ := h.2.1 x ⟨b, hb, hx⟩
      exact ⟨⟨p, hpm, hxp⟩, (hmem x).not.1 hxq⟩
    · rintro ⟨p, hpm, hxp⟩ hxq
      obtain ⟨out, h, hsub⟩ := exists_subset_flatten hcuts hpm
      obtain ⟨b, hb, hx⟩ := h.2.2 (htidy hqt) x hxp ((hmem x).not.2 hxq)
      exact ⟨b, hsub hb, hx⟩
  · right
    refine ⟨by simp [hk, throw, throwThe, MonadExceptOf.throw], ?_⟩
    rintro ⟨r, hr, hrk⟩
    rw [hq', Except.ok.injEq] at hr
    exact hk (hr ▸ hrk)

theorem foldlM_subtractFrom_spec {pieces qs : List BasicRelation} (hs : s.Proper)
    (hp : ∀ p ∈ pieces, p.LiesIn s) (hq : ∀ q ∈ qs, q.LiesIn s) :
    (∃ out, qs.foldlM subtractFrom pieces = .ok out ∧ (∀ q ∈ qs, q.Definable) ∧
      (∀ b ∈ out, b.LiesIn s) ∧ ((∀ p ∈ pieces, p.Tidy) → ∀ b ∈ out, b.Tidy) ∧
      ((∀ p ∈ pieces, p.ls.allKnown = true) → ∀ b ∈ out, b.ls.allKnown = true) ∧
      (∀ x, (∃ b ∈ out, x ∈ b) → (∃ b ∈ pieces, x ∈ b) ∧ ∀ q ∈ qs, x ∉ q) ∧
      ((∀ q ∈ qs, q.Tidy) → ∀ x, (∃ b ∈ pieces, x ∈ b) → (∀ q ∈ qs, x ∉ q) →
        ∃ b ∈ out, x ∈ b)) ∨
    qs.foldlM subtractFrom pieces = .error (.unsupported .subtractingQuantified) ∧
      ∃ q ∈ qs, ¬q.Definable := by
  induction qs generalizing pieces with
  | nil => exact .inl ⟨pieces, rfl, by simp, hp, id, id, by simp, fun _ _ h _ => h⟩
  | cons q qs ih =>
    rw [List.forall_mem_cons] at hq
    simp only [List.foldlM_cons, bind, Except.bind]
    rcases subtractFrom_spec hs hp hq.1 with
      ⟨out, hok, hdef, hout, hk, hmem, hall⟩ | ⟨herr, hdef⟩
    · rw [hok]
      rcases ih (fun b hb => (hout b hb).1) hq.2 with
        ⟨out', hok', hdef', hout', ht', hk', hmem', hall'⟩ | ⟨herr, q', hq', hdef'⟩
      · refine .inl ⟨out', hok', List.forall_mem_cons.2 ⟨hdef, hdef'⟩, hout',
          fun _ => ht' fun b hb => (hout b hb).2, fun h => hk' (hk h), fun x hx => ?_,
          fun ht x hx hnot => ?_⟩
        · obtain ⟨hx, hnot⟩ := hmem' x hx
          obtain ⟨hx, hq⟩ := hmem x hx
          exact ⟨hx, List.forall_mem_cons.2 ⟨hq, hnot⟩⟩
        · rw [List.forall_mem_cons] at ht hnot
          exact hall' ht.2 x (hall ht.1 x hx hnot.1) hnot.2
      · exact .inr ⟨herr, q', List.mem_cons_of_mem q hq', hdef'⟩
    · rw [herr]
      exact .inr ⟨rfl, q, List.mem_cons_self, hdef⟩

/-- Subtraction is set difference, unless a division of `b` has no definition and none can be
recovered. If `b` is not tidy, too much may be taken away. -/
theorem subtract_spec {a b : Relation} (ha : a.WellFormed) (hb : b.WellFormed)
    (hs : a.space.agrees b.space = true) :
    (∃ r, a.subtract b = .ok r ∧ (∀ q ∈ b.basics, q.Definable) ∧ r.space = a.space ∧
      r.WellFormed ∧ (a.Tidy → r.Tidy) ∧ (a.Known → r.Known) ∧ (∀ x, x ∈ r → x ∈ a ∧ x ∉ b) ∧
      (b.Tidy → ∀ x, x ∈ a → x ∉ b → x ∈ r)) ∨
    a.subtract b = .error (.unsupported .subtractingQuantified) ∧
      ∃ q ∈ b.basics, ¬q.Definable := by
  have hlies : ∀ q ∈ b.basics, q.LiesIn a.space := fun q hq =>
    have h := hb.basics q hq
    ⟨h.wellFormed, h.proper, Space.agrees_trans hs h.agrees⟩
  simp only [subtract, requireSameSpace_eq_ok hs, bind, Except.bind]
  rcases foldlM_subtractFrom_spec ha.proper ha.basics hlies
    with ⟨out, hok, hdef, hout, ht, hk, hmem, hall⟩ | ⟨herr, hdef⟩
  · left
    rw [hok]
    refine ⟨_, rfl, hdef, space_insertAll _ _, (wellFormed_empty ha.proper).insertAll hout,
      fun hat => (tidy_empty _).insertAll fun c hc => (ht hat c hc).solvable,
      fun hka => (known_empty _).insertAll (hk hka), fun x => ?_, fun hbt x hx hnot => ?_⟩
    · rw [mem_insertAll_iff, or_iff_right (notMem_empty _)]
      intro hx
      obtain ⟨hx, hnot⟩ := hmem x hx
      exact ⟨hx, fun ⟨q, hq, hxq⟩ => hnot q hq hxq⟩
    · rw [mem_insertAll_iff, or_iff_right (notMem_empty _)]
      exact hall hbt x hx fun q hq hxq => hnot ⟨q, hq, hxq⟩
  · right
    rw [herr]
    exact ⟨rfl, hdef⟩

end Relation

end Quasiaffine
