import Quasiaffine.Proofs.Relation.Subtraction

/-!
The pieces that a subtraction makes of one basic relation lie apart. What is cut off at a constraint
breaks it, and what is cut off later satisfies it. That a constraint holds with some values of the
divisions and fails with others cannot happen: where the divisions of the basic relation taken away
have definitions, a point alone determines the value of the constraint.
-/

set_option autoImplicit false

namespace Quasiaffine

def Apart {α : Type} [Membership Row α] (a b : α) : Prop := ∀ x : Row, x ∈ a → x ∉ b

namespace BasicRelation

variable {b : BasicRelation} {c c' : Constraint}

section Determined

def Determined (ls : LocalSpace) (c : Constraint) : Prop :=
  ∀ x d d' : Row, x.length = ls.space.total → ls.Assigns x d → ls.Assigns x d' →
    c.row.dot (1 :: (x ++ d)) = c.row.dot (1 :: (x ++ d'))

variable {ls : LocalSpace}

theorem Determined.of_normalize (h : Determined ls c) (hn : c.normalize = .kept c') :
    Determined ls c' := by
  intro x d d' hx hd hd'
  have hdot := h x d d' hx hd hd'
  unfold Constraint.normalize at hn
  split at hn
  · cases hn
  · rename_i constant coeffs hrow
    rw [hrow, Row.dot_cons, Row.dot_cons] at hdot
    simp only at hn
    split_ifs at hn with hg hadm heq hone
    · rw [Normalized.kept.injEq] at hn
      subst hn
      rw [hrow, Row.dot_cons, Row.dot_cons, hdot]
    · rw [Normalized.kept.injEq] at hn
      subst hn
      have hdvd : ∀ y ∈ coeffs, (Row.gcd coeffs : Int) ∣ y := fun y hy => Row.gcd_dvd hy
      rw [← Row.mul_dot_divide hdvd, ← Row.mul_dot_divide hdvd, add_right_inj] at hdot
      rw [Row.dot_cons, Row.dot_cons, Int.eq_of_mul_eq_mul_left hg hdot]

theorem mem_addConstraint {b' : BasicRelation} (hok : b.addConstraint c = .ok b')
    (h : c' ∈ b'.constraints) : c' ∈ b.constraints ∨ c.normalize = .kept c' := by
  rw [addConstraint] at hok
  by_cases hw : c.width = b.width
  · simp only [hw, beq_self_eq_true, require, if_true, bind, Except.bind, pure, Except.pure] at hok
    split at hok <;> obtain rfl := Except.ok.inj hok
    · exact .inl h
    · exact .inl h
    · rename_i kept hn
      exact (mem_constraints_insert h).imp id fun heq => by rw [hn, heq]
  · simp [hw, require, bind, Except.bind] at hok

theorem mem_addConstraints {cs : List Constraint} {b' : BasicRelation}
    (hok : b.addConstraints cs = .ok b') (h : c' ∈ b'.constraints) :
    c' ∈ b.constraints ∨ ∃ c ∈ cs, c.normalize = .kept c' := by
  induction cs generalizing b with
  | nil =>
    obtain rfl := Except.ok.inj hok
    exact .inl h
  | cons c cs ih =>
    cases hadd : b.addConstraint c with
    | error e => simp [addConstraints, hadd, bind, Except.bind] at hok
    | ok next =>
      have hrest : next.addConstraints cs = .ok b' := by
        simpa [addConstraints, hadd, bind, Except.bind] using hok
      rcases ih hrest with hnext | ⟨c₀, hc₀, hn⟩
      · exact (mem_addConstraint hadd hnext).imp id fun hn => ⟨c, List.mem_cons_self, hn⟩
      · exact .inr ⟨c₀, List.mem_cons_of_mem c hc₀, hn⟩

theorem isDivBound_congr {b b' : BasicRelation} (h : b.ls = b'.ls) (c : Constraint) :
    b.isDivBound c = b'.isDivBound c := by
  rw [isDivBound, isDivBound, h]

theorem isDivBound_of_mem_ofLocalSpace (hls : ls.WellFormed)
    (hp : ∀ r ∈ ls.divs.rows, 0 ≤ r.entry 0) :
    ∀ c ∈ (ofLocalSpace ls).constraints, (ofLocalSpace ls).isDivBound c = true := by
  -- All constraints that come with a local space only say what the definitions say.
  refine (ofLocalSpace_induction ls
    (P := fun b => b.WellFormed ∧ ∀ c ∈ b.constraints, b.isDivBound c = true)
    ⟨⟨hls, hp, by simp⟩, by simp⟩ fun b k ⟨hb, hall⟩ => ⟨hb.insertDivBounds k, fun c hc => ?_⟩).2
  rw [isDivBound_congr (ls_insertDivBounds b k)]
  unfold insertDivBounds at hc
  split at hc
  · rename_i lower upper hbounds
    obtain ⟨r, hr, -, hl, hu⟩ := divBounds?_eq_some_iff.1 hbounds
    obtain ⟨hlower, hupper⟩ := isDivBound_of_divBounds? hb hbounds
    have hk : k < b.ls.divCount := (List.getElem?_eq_some_iff.1 hr).1
    have hbound : ∀ c : Constraint, c.kind = .inequality → b.ls.isDivBound c.row k = true →
        b.isDivBound c = true := fun c hkind hck => Bool.and_eq_true_iff.2
      ⟨by rw [Constraint.isInequality, hkind]; rfl,
        List.any_eq_true.2 ⟨k, List.mem_range.2 hk, hck⟩⟩
    rcases mem_constraints_insert hc with hc | rfl
    · rcases mem_constraints_insert hc with hc | rfl
      · exact hall c hc
      · exact hbound _ (by rw [hl]) hlower
    · exact hbound _ (by rw [hu]) hupper
  · exact hall c hc

end Determined

theorem not_definable_iff (h : b.WellFormed) :
    ¬b.Definable ↔ ∃ r, b.recoverDefinitions = .ok r ∧ r.relation.ls.allKnown = false := by
  obtain ⟨r, hr, -⟩ := recoverDefinitions_eq_ok h
  simp [Definable, hr]

end BasicRelation

/-- The two complements of an equality do not both hold where its left side has one value. -/
theorem Constraint.complements_exclusive {c : Constraint} (h : 0 < c.width) :
    c.complements.Pairwise fun c₁ c₂ => ∀ v v' : Row, c.row.dot (1 :: v) = c.row.dot (1 :: v') →
      c₁.isSatisfied (1 :: v) = true → c₂.isSatisfied (1 :: v') = false := by
  unfold complements
  split
  · exact List.pairwise_singleton _ _
  · refine List.pairwise_pair.2 fun v v' hv h₁ => ?_
    rw [isSatisfied_positive h] at h₁
    rw [Bool.eq_false_iff, ne_eq, isSatisfied_positive (by rwa [Row.length_neg]), Row.dot_neg]
    omega

namespace Relation

open BasicRelation

section Splits

variable {inside next : BasicRelation} {c : Constraint} {cut : List BasicRelation}

/-- The parts that are cut off at one constraint lie apart: a point determines its value. -/
theorem Splits.apart (h : Splits inside c cut next) (hdet : Determined inside.ls c) :
    cut.Pairwise Apart := by
  refine pairwise_of_forall₂ h.parts (Constraint.complements_exclusive h.width) ?_
  intro c₁ c₂ b₁ b₂ hex hb₁ hb₂ x hx₁ hx₂
  obtain ⟨hlen, d₁, hd₁, hs₁⟩ := hb₁.mem_iff.1 hx₁
  obtain ⟨-, d₂, hd₂, hs₂⟩ := hb₂.mem_iff.1 hx₂
  rw [hex _ _ (hdet x d₁ d₂ hlen hd₁.assigns hd₂.assigns) hs₁] at hs₂
  cases hs₂

theorem Splits.apart_rest (h : Splits inside c cut next) (hdet : Determined inside.ls c) :
    ∀ b ∈ cut, ∀ x ∈ b, x ∉ next := by
  intro b hb x hx hx'
  obtain ⟨hlen, d, hd, hs⟩ := (h.exists_mem_iff x).1 ⟨b, hb, hx⟩
  obtain ⟨-, d', hd', hs'⟩ := h.rest.mem_iff.1 hx'
  rw [Constraint.isSatisfied, ← hdet x d d' hlen hd.assigns hd'.assigns] at hs'
  rw [Constraint.isSatisfied, hs'] at hs
  cases hs

theorem Splits.subset (h : Splits inside c cut next) : ∀ b ∈ cut, ∀ x ∈ b, x ∈ inside := by
  intro b hb x hx
  obtain ⟨hlen, d, hd, -⟩ := (h.exists_mem_iff x).1 ⟨b, hb, hx⟩
  exact ⟨hlen, d, hd⟩

end Splits

/-- Whatever is cut off lies in `inside`, and the pieces lie apart. -/
theorem cutOff_apart (cs : List Constraint) (pieces : List BasicRelation) {inside : BasicRelation}
    (h : inside.WellFormed) (hc : ∀ c ∈ cs, c.width = inside.width)
    (hdet : ∀ c ∈ cs, Determined inside.ls c) :
    ∃ new, cutOff pieces inside cs = .ok (pieces ++ new) ∧ (∀ b ∈ new, ∀ x ∈ b, x ∈ inside) ∧
      new.Pairwise Apart := by
  induction cs generalizing pieces inside with
  | nil => exact ⟨[], by simp [cutOff], by simp, .nil⟩
  | cons c cs ih =>
    rw [List.forall_mem_cons] at hc hdet
    obtain ⟨cut, next, hsplit, heq⟩ := cutOff_cons h hc.1
    have hkept : ∀ b ∈ cut.filter (fun piece => !piece.isObviouslyEmpty), b ∈ cut :=
      fun b hb => (List.mem_filter.1 hb).1
    rw [heq]
    by_cases hempty : next.isObviouslyEmpty = true
    · rw [if_pos hempty]
      exact ⟨_, rfl, fun b hb => hsplit.subset b (hkept b hb), (hsplit.apart hdet.1).filter _⟩
    · rw [if_neg hempty]
      obtain ⟨new, hok, hinside, hapart⟩ := ih
        (pieces ++ cut.filter (fun piece => !piece.isObviouslyEmpty)) hsplit.rest.wellFormed
        (fun c' hc' => (hc.2 c' hc').trans hsplit.rest.width_eq.symm)
        (fun c' hc' => hsplit.rest.ls ▸ hdet.2 c' hc')
      refine ⟨_, hok.trans (by rw [List.append_assoc]), fun b hb x hx => ?_,
        List.pairwise_append.2 ⟨(hsplit.apart hdet.1).filter _, hapart, fun b hb b' hb' x hx hx' =>
          hsplit.apart_rest hdet.1 b (hkept b hb) x hx (hinside b' hb' x hx')⟩⟩
      rcases List.mem_append.1 hb with hb | hb
      · exact hsplit.subset b (hkept b hb) x hx
      · obtain ⟨hlen, d, hd, -⟩ := hsplit.rest.mem_iff.1 (hinside b hb x hx)
        exact ⟨hlen, d, hd⟩

variable {s : Space}

section Aligned

variable {p q inside other : BasicRelation} {m : MergedSpace}

/-- A constraint of `q` speaks of the divisions of `q` alone, and a point determines their values. -/
theorem Aligned.determined_of_mem_expanded (h : Aligned p q m inside other)
    (hk : q.ls.allKnown = true) {c : Constraint}
    (hc : c ∈ q.expandedConstraints m.right m.ls.divCount) : Determined m.ls c := by
  intro x d d' hx hd hd'
  obtain ⟨c₀, hc₀, rfl⟩ := List.mem_map.1 hc
  have hx : x.length = p.space.total := hx.trans (congrArg Space.total h.space)
  have hxq := hx.trans h.total
  have hdim : (1 :: x).length = 1 + q.space.total := by rw [List.length_cons, hxq, Nat.add_comm]
  have hwidth : 1 + q.space.total ≤ c₀.row.length := by
    have := h.right.width_eq hc₀
    rw [Constraint.width] at this
    omega
  have hdot := fun e =>
    Row.dot_expand (d := e) hdim hwidth h.merge.right.nodup h.merge.right.lt
  simp only [List.cons_append] at hdot
  change Row.dot (c₀.row.expand _ _ m.ls.divs.rows.length) _ =
    Row.dot (c₀.row.expand _ _ m.ls.divs.rows.length) _
  rw [hdot, hdot, (h.operands hx hd).2.unique (h.operands hx hd').2 h.right.divisions hk hxq]

theorem Aligned.determined (h : Aligned p q m inside other) (hk : q.ls.allKnown = true) :
    ∀ c ∈ other.constraints.filter fun c => !other.isDivBound c, Determined inside.ls c := by
  intro c hc
  obtain ⟨hc, hbound⟩ := List.mem_filter.1 hc
  rw [Bool.not_eq_true'] at hbound
  rcases mem_addConstraints h.expanded hc with hc | ⟨c₀, hc₀, hn⟩
  · have hls : other.ls = (ofLocalSpace m.ls).ls := by rw [h.other_ls, ls_ofLocalSpace]
    rw [isDivBound_congr hls, isDivBound_of_mem_ofLocalSpace h.divisions h.nonnegative c hc]
      at hbound
    cases hbound
  · rw [h.inside_ls]
    exact (h.determined_of_mem_expanded hk hc₀).of_normalize hn

end Aligned

/-- The pieces that are left of `p` lie apart, also where `p` has divisions without a definition. -/
theorem subtractBasic_apart {p q : BasicRelation} (hs : s.Proper) (hp : p.LiesIn s)
    (hq : q.LiesIn s) (hk : q.ls.allKnown = true) :
    ∃ out, subtractBasic p q = .ok out ∧ out.Pairwise Apart := by
  obtain ⟨m, inside, other, h⟩ := exists_aligned hs hp hq
  obtain ⟨out, hout, -, hapart⟩ := cutOff_apart _ [] h.inside_wellFormed (fun c => h.width_eq)
    (h.determined hk)
  rw [List.nil_append] at hout
  exact ⟨out, h.result.trans hout, hapart⟩

/-- Subtraction leaves no point of `b` and adds none to `a`, and what it cuts a basic relation into
lies apart. It only fails where a division of `b` has no definition and none can be recovered. It is
set difference where `b` is tidy, which is what adding constraints to a relation ensures: one that has
no solution is not stored, but marks the basic relation as contradictory. -/
theorem subtract_difference (a b : Relation) (ha : a.WellFormed) (hb : b.WellFormed)
    (hs : a.space.agrees b.space = true) :
    (a.subtract b = .error (.unsupported .subtractingQuantified) ↔
      ∃ q ∈ b.basics, ∃ r, q.recoverDefinitions = .ok r ∧ r.relation.ls.allKnown = false) ∧
    ((¬∃ q ∈ b.basics, ∃ r, q.recoverDefinitions = .ok r ∧ r.relation.ls.allKnown = false) →
      ∃ r, a.subtract b = .ok r ∧ (∀ x, x ∈ r → x ∈ a ∧ x ∉ b) ∧
        (b.Tidy → ∀ x, x ∈ r ↔ x ∈ a ∧ x ∉ b)) ∧
    ∀ p q : BasicRelation, p.LiesIn a.space → q.LiesIn a.space → q.ls.allKnown = true →
      ∃ pieces, subtractBasic p q = .ok pieces ∧ pieces.Pairwise Apart := by
  have hundefinable : (∃ q ∈ b.basics, ¬q.Definable) ↔
      ∃ q ∈ b.basics, ∃ r, q.recoverDefinitions = .ok r ∧ r.relation.ls.allKnown = false :=
    exists_congr fun q => and_congr_right fun hq => not_definable_iff (hb.basics q hq).wellFormed
  have hcases := subtract_spec ha hb hs
  rw [← hundefinable]
  refine ⟨⟨fun h => ?_, fun ⟨q, hq, hnot⟩ => ?_⟩, fun hall => ?_,
    fun p q hp hq hk => subtractBasic_apart ha.proper hp hq hk⟩
  · rcases hcases with ⟨r, hok, -⟩ | ⟨-, hundef⟩
    · rw [hok] at h
      cases h
    · exact hundef
  · rcases hcases with ⟨r, -, hdef, -⟩ | ⟨herr, -⟩
    · exact absurd (hdef q hq) hnot
    · exact herr
  · rcases hcases with ⟨r, hok, -, -, -, -, -, hmem, hrest⟩ | ⟨-, hundef⟩
    · exact ⟨r, hok, hmem, fun hbt x => ⟨hmem x, fun ⟨hx, hnot⟩ => hrest hbt x hx hnot⟩⟩
    · exact absurd hundef hall

/-- The numbers with remainder 0 or 1 by 3, without those that are twice some number: the equality
defines that number. -/
theorem subtract_difference_multiples :
    let ls := LocalSpace.overOneVariable [[0, 0, 0, 0]]
    let p : BasicRelation := ⟨ls, [⟨[0, 1, -3], .inequality⟩, ⟨[1, -1, 3], .inequality⟩], false⟩
    let q : BasicRelation := ⟨ls, [⟨[0, 1, -2], .equality⟩], false⟩
    let a : Relation := ⟨ls.space, [p]⟩
    let b : Relation := ⟨ls.space, [q]⟩
    a.WellFormed ∧ b.WellFormed ∧ b.Tidy ∧ a.space.agrees b.space = true ∧
      ∃ r, a.subtract b = .ok r ∧ [3] ∈ r ∧ [4] ∉ r := by
  intro ls p q a b
  have hls : ls.WellFormed := LocalSpace.wellFormed_overOneVariable (by decide) (by decide)
  have hp : p.LiesIn ls.space := ⟨⟨hls, by decide, by decide⟩, fun _ => rfl, rfl⟩
  have hq : q.LiesIn ls.space := ⟨⟨hls, by decide, by decide⟩, fun _ => rfl, rfl⟩
  have ha : a.WellFormed := ⟨fun _ => rfl, List.forall_mem_singleton.2 hp⟩
  have hb : b.WellFormed := ⟨fun _ => rfl, List.forall_mem_singleton.2 hq⟩
  have hbt : b.Tidy := List.forall_mem_singleton.2
    ⟨rfl, List.forall_mem_singleton.2 ⟨[0, 0], by decide⟩⟩
  have hrecover : ∃ r, q.recoverDefinitions = .ok r ∧ r.relation.ls.allKnown = true := by
    refine ⟨⟨(⟨LocalSpace.overOneVariable [[2, 0, 1, 0]], q.constraints, false⟩ :
      BasicRelation).insertDivBounds 0, 1⟩, ?_, ?_⟩ <;> cbv
  obtain ⟨-, hsub, -⟩ := subtract_difference a b ha hb rfl
  obtain ⟨r, hok, -, hdifference⟩ := hsub fun h => by
    obtain ⟨q', hq', hundef⟩ := h
    obtain rfl := List.mem_singleton.1 hq'
    exact (not_definable_iff hq.wellFormed).2 hundef hrecover
  have hmem := hdifference hbt
  have hdiv : ∀ x d : Row, d.length = 1 → ls.Assigns x d := fun x d hd =>
    ⟨hd, fun k r hr hk => by
      obtain rfl := List.mem_singleton.1 (List.mem_of_getElem? hr)
      cases hk⟩
  refine ⟨ha, hb, hbt, rfl, r, hok, (hmem _).2 ⟨?_, ?_⟩, fun h => ((hmem _).1 h).2 ?_⟩
  · exact ⟨p, List.mem_singleton_self p, rfl, [1], hdiv _ _ rfl, rfl, by decide⟩
  · rintro ⟨q', hq', -, d, ⟨hd, -⟩, hadm⟩
    obtain rfl := List.mem_singleton.1 hq'
    obtain ⟨n, rfl⟩ := List.length_eq_one_iff.1 hd
    have hsat := hadm.satisfied ⟨[0, 1, -2], .equality⟩ List.mem_cons_self
    simp only [Constraint.isSatisfied, List.cons_append, List.nil_append, Row.dot_cons,
      Row.dot_nil_left, ConstraintKind.admits, decide_eq_true_eq] at hsat
    omega
  · exact ⟨q, List.mem_singleton_self q, rfl, [2], hdiv _ _ rfl, rfl, by decide⟩

/-- The points of a line with `2x = 1`, of which there are none, with the constraint stored as it
is: adding it would have marked the basic relation as contradictory. -/
def unsolvable : Relation :=
  ⟨.anonymousSet 0 1, [⟨.overOneVariable [], [⟨[-1, 2], .equality⟩], false⟩]⟩

theorem wellFormed_unsolvable : unsolvable.WellFormed :=
  ⟨fun _ => rfl, List.forall_mem_singleton.2
    ⟨⟨LocalSpace.wellFormed_overOneVariable (by decide) (by decide), by decide, by decide⟩,
      fun _ => rfl, rfl⟩⟩

theorem notMem_unsolvable (x : Row) : x ∉ unsolvable := by
  rintro ⟨q, hq, hx, d, ⟨hd, -⟩, hadm⟩
  obtain rfl := List.mem_singleton.1 hq
  obtain ⟨n, rfl⟩ := List.length_eq_one_iff.1 hx
  obtain rfl := List.length_eq_zero_iff.1 hd
  have hsat := hadm.satisfied _ (List.mem_singleton_self _)
  simp [Constraint.isSatisfied, ConstraintKind.admits] at hsat
  omega

/-- Where a stored constraint has no solution, its alignment drops it and nothing is cut off at it.
What is left of the line without the points of no point is nothing. -/
theorem subtract_difference_unsolvable :
    let a := full (.anonymousSet 0 1)
    a.WellFormed ∧ unsolvable.WellFormed ∧ a.space.agrees unsolvable.space = true ∧
      (∀ p ∈ a.basics ++ unsolvable.basics, p.contradictory = false) ∧
      (∀ q ∈ unsolvable.basics, ∃ r, q.recoverDefinitions = .ok r ∧
        r.relation.ls.allKnown = true) ∧
      ∃ r, a.subtract unsolvable = .ok r ∧ [0] ∈ a ∧ [0] ∉ unsolvable ∧ [0] ∉ r := by
  intro a
  refine ⟨wellFormed_full fun _ => rfl, wellFormed_unsolvable, rfl, by decide,
    List.forall_mem_singleton.2 ⟨⟨_, 0⟩, rfl, rfl⟩, empty a.space, ?_, mem_full_iff.2 rfl,
    notMem_unsolvable _, fun ⟨q, hq, _⟩ => by cases hq⟩
  cbv

end Relation

end Quasiaffine
