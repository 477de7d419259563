import Quasiaffine.Proofs.Piecewise.Choice
import Quasiaffine.Proofs.Relation.Difference

/-!
The pieces of a piecewise function lie apart. Operations combine pieces of overlapping sets, cut
sets along complementary comparisons, or take sets away; nothing here asks where a function is
defined, and the sets may have divisions without a definition.
-/

set_option autoImplicit false

namespace Quasiaffine

namespace Affine

variable {a b c : Affine} {s t : Space}

structure LiesIn (s : Space) (a : Affine) : Prop where
  wellFormed : a.WellFormed
  proper : a.space.Proper
  agrees : s.agrees a.space = true

theorem WellFormed.exists_denotes (h : a.WellFormed) : ∃ v, a.Denotes a.space v := by
  -- All divisions are known, so the point alone determines the value.
  have hvalue : ∀ x : Row, ∃ q : ℚ, ∀ d, x.length = a.space.total → a.ls.Assigns x d →
      quotient a.row (1 :: (x ++ d)) = q := by
    intro x
    by_cases hx : x.length = a.space.total
    · obtain ⟨d, hd⟩ := LocalSpace.exists_assigns h.divisions hx
      exact ⟨_, fun d' _ hd' => by rw [hd'.unique hd h.divisions h.allKnown hx]⟩
    · exact ⟨0, fun _ hlen => absurd hlen hx⟩
  choose v hv using hvalue
  exact ⟨v, rfl, h, hv⟩

theorem LiesIn.of_denotes {v : Row → ℚ} (h : a.LiesIn s) (hb : b.Denotes a.space v) : b.LiesIn s :=
  ⟨hb.wellFormed, hb.space ▸ h.proper, hb.space ▸ h.agrees⟩

theorem LiesIn.trans (h : a.LiesIn t) (hs : s.agrees t = true) : a.LiesIn s :=
  ⟨h.wellFormed, h.proper, Space.agrees_trans hs h.agrees⟩

section Unary

variable {f : Int} (h : a.LiesIn s)

include h

theorem LiesIn.neg : a.neg.LiesIn s :=
  have ⟨_, hv⟩ := h.wellFormed.exists_denotes
  h.of_denotes hv.neg

theorem LiesIn.scale (f : Int) : (a.scale f).LiesIn s :=
  have ⟨_, hv⟩ := h.wellFormed.exists_denotes
  h.of_denotes (hv.scale f)

theorem LiesIn.addConstant (f : Int) : (a.addConstant f).LiesIn s := by
  refine ⟨⟨h.wellFormed.divisions, h.wellFormed.positive, ?_, ?_⟩, h.proper, h.agrees⟩
  · rw [Affine.addConstant, List.length_set]
    exact h.wellFormed.length
  · rw [Affine.addConstant, Row.entry_set, if_neg (by omega)]
    exact h.wellFormed.denominator

theorem LiesIn.scaleDown (hok : a.scaleDown f = .ok b) : b.LiesIn s := by
  have hf : 0 < f := by
    simp only [Affine.scaleDown, bind_eq_ok_iff, require_eq_ok_iff, decide_eq_true_eq] at hok
    exact hok.elim fun _ h => h.1
  obtain ⟨v, hv⟩ := h.wellFormed.exists_denotes
  obtain ⟨b', hok', hb⟩ := hv.scaleDown_eq_ok hf
  obtain rfl := Except.ok.inj (hok'.symm.trans hok)
  exact h.of_denotes hb

theorem LiesIn.floor (hok : a.floor = .ok b) : b.LiesIn s := by
  obtain ⟨v, hv⟩ := h.wellFormed.exists_denotes
  obtain ⟨b', hok', hb⟩ := hv.floor_eq_ok
  obtain rfl := Except.ok.inj (hok'.symm.trans hok)
  exact h.of_denotes hb

theorem LiesIn.ceil (hok : a.ceil = .ok b) : b.LiesIn s := by
  obtain ⟨v, hv⟩ := h.wellFormed.exists_denotes
  obtain ⟨b', hok', hb⟩ := hv.ceil_eq_ok
  obtain rfl := Except.ok.inj (hok'.symm.trans hok)
  exact h.of_denotes hb

theorem LiesIn.mod (hok : a.mod f = .ok b) : b.LiesIn s := by
  have hf : 0 < f := by
    simp only [Affine.mod, Affine.floorDiv, Affine.scaleDown, bind_eq_ok_iff, require_eq_ok_iff,
      decide_eq_true_eq] at hok
    obtain ⟨_, ⟨_, ⟨_, hf, -⟩, -⟩, -⟩ := hok
    exact hf
  obtain ⟨v, hv⟩ := h.wellFormed.exists_denotes
  obtain ⟨b', hok', hb⟩ := hv.mod_eq_ok hf
  obtain rfl := Except.ok.inj (hok'.symm.trans hok)
  exact h.of_denotes hb

end Unary

def relabel (t : Space) (a : Affine) : Affine := ⟨⟨t, a.ls.divs⟩, a.row⟩

theorem WellFormed.relabel (h : a.WellFormed) (ht : t.total = a.space.total) :
    (a.relabel t).WellFormed := by
  have hls := (wellFormed_iff _).1 h.divisions
  rw [show a.ls.space.total = t.total from ht.symm] at hls
  refine ⟨(wellFormed_iff _).2 hls, h.positive, ?_, h.denominator⟩
  rw [LocalSpace.total]
  change a.row.length = 2 + (t.total + a.ls.divCount)
  rw [ht]
  exact h.length

theorem LiesIn.resetSpace (h : a.LiesIn s) (ht : t.Proper) (hok : a.resetSpace t = .ok b) :
    b.LiesIn t := by
  simp only [Affine.resetSpace, LocalSpace.resetSpace, bind_eq_ok_iff, require_eq_ok_iff,
    exists_const, beq_iff_eq] at hok
  obtain ⟨ls, ⟨htotal, hls⟩, hok⟩ := hok
  obtain rfl := Except.ok.inj hls
  obtain rfl := Except.ok.inj hok
  exact ⟨h.wellFormed.relabel htotal, ht, t.agrees_refl⟩

theorem add_relabel (h : a.space.agrees b.space = true) : a.add (b.relabel a.space) = a.add b := by
  have hmerge : a.ls.merge (b.relabel a.space).ls = a.ls.merge b.ls := by
    simp only [LocalSpace.merge, relabel, show a.ls.space.agrees b.ls.space = true from h,
      show a.ls.space.agrees a.space = true from a.space.agrees_refl]
    rfl
  rw [add, hmerge]
  rfl

theorem LiesIn.add_eq_ok (ha : a.LiesIn s) (hb : b.LiesIn s) :
    ∃ c, a.add b = .ok c ∧ c.LiesIn s := by
  have hagrees := Space.agrees_trans (Space.agrees_symm ha.agrees) hb.agrees
  have htotal := Space.total_eq_of_agrees hagrees ha.proper hb.proper
  obtain ⟨u, hu⟩ := ha.wellFormed.exists_denotes
  obtain ⟨w, hw⟩ := (hb.wellFormed.relabel htotal).exists_denotes
  obtain ⟨c, hok, hc⟩ := hu.add_eq_ok hw
  exact ⟨c, (add_relabel hagrees).symm.trans hok, ha.of_denotes hc⟩

theorem LiesIn.sub_eq_ok (ha : a.LiesIn s) (hb : b.LiesIn s) :
    ∃ c, a.sub b = .ok c ∧ c.LiesIn s :=
  ha.add_eq_ok hb.neg

theorem LiesIn.compareZero_eq_ok (h : a.LiesIn s) (op : Comparison) :
    ∃ r r', a.compareZero op = .ok r ∧ a.compareZero op.negate = .ok r' ∧ r.WellFormed ∧
      r'.WellFormed ∧ Apart r r' := by
  obtain ⟨v, hv⟩ := h.wellFormed.exists_denotes
  obtain ⟨r, hok, hr, -⟩ := hv.compareZero_eq_ok h.proper op
  obtain ⟨r', hok', hr', -⟩ := hv.compareZero_eq_ok h.proper op.negate
  refine ⟨r, r', hok, hok', hr.wellFormed, hr'.wellFormed, fun x hx hx' => ?_⟩
  rw [hr.points] at hx
  rw [hr'.points, Comparison.holds_negate, hx.2] at hx'
  exact absurd hx'.2 (by simp)

end Affine

structure Piece.LiesIn (s : Space) (p : Piece) : Prop where
  domain : p.domain.WellFormed
  agrees : s.agrees p.domain.space = true
  value : p.value.LiesIn s

theorem Piece.LiesIn.trans {p : Piece} {s t : Space} (h : p.LiesIn t) (hs : s.agrees t = true) :
    p.LiesIn s :=
  ⟨h.domain, Space.agrees_trans hs h.agrees, h.value.trans hs⟩

namespace Piecewise

/-- Well-formed pieces of which no two have a point in common. -/
structure Separate (f : Piecewise) : Prop where
  proper : f.space.Proper
  pieces : ∀ p ∈ f.pieces, p.LiesIn f.space
  apart : f.pieces.Pairwise fun p q => Apart p.domain q.domain

variable {f g h : Piecewise} {s : Space}

theorem agrees_of_requireSameSpace {u : Unit} (h : f.requireSameSpace g = .ok u) :
    f.space.agrees g.space = true := require_eq_ok_iff.1 h

section Insert

theorem pieces_insertAll (f : Piecewise) (ps : List Piece) :
    (f.insertAll ps).pieces = f.pieces ++ ps.filter fun p => !p.domain.isObviouslyEmpty := by
  induction ps generalizing f with
  | nil => simp [insertAll]
  | cons p ps ih =>
    rw [insertAll, List.foldl_cons, ← insertAll, ih, insert, List.filter_cons]
    cases p.domain.isObviouslyEmpty <;> simp

theorem Separate.insertAll {ps : List Piece} (hf : f.Separate) (hps : ∀ p ∈ ps, p.LiesIn f.space)
    (hapart : ps.Pairwise fun p q => Apart p.domain q.domain)
    (hcross : ∀ p ∈ f.pieces, ∀ q ∈ ps, Apart p.domain q.domain) : (f.insertAll ps).Separate := by
  have hspace := space_insertAll f ps
  refine ⟨hspace ▸ hf.proper, fun p hp => ?_, ?_⟩
  · rw [hspace]
    exact (mem_pieces_insertAll.1 hp).elim (hf.pieces p) fun h => hps p h.1
  · rw [pieces_insertAll]
    exact List.pairwise_append.2 ⟨hf.apart, hapart.filter _,
      fun p hp q hq => hcross p hp q (List.mem_filter.1 hq).1⟩

theorem separate_empty (hs : s.Proper) : (empty s).Separate := ⟨hs, by simp [empty], .nil⟩

theorem separate_insertAll_empty (ps : List Piece) (hs : s.Proper) (hps : ∀ p ∈ ps, p.LiesIn s)
    (hapart : ps.Pairwise fun p q => Apart p.domain q.domain) :
    ((empty s).insertAll ps).Separate :=
  (separate_empty hs).insertAll hps hapart (by simp [empty])

end Insert

section Start

theorem separate_ofAffine {a : Affine} (ha : a.WellFormed) (hs : a.space.Proper) :
    (ofAffine a).Separate := by
  refine ⟨hs, fun p hp => ?_, List.pairwise_singleton _ _⟩
  obtain rfl := List.mem_singleton.1 hp
  exact ⟨Relation.wellFormed_full hs, a.space.agrees_refl, ha, hs, a.space.agrees_refl⟩

theorem separate_ofPiece {a : Affine} {set : Relation} (ha : a.WellFormed) (hs : a.space.Proper)
    (hset : set.WellFormed) (hok : ofPiece set a = .ok f) : f.Separate := by
  simp only [ofPiece, bind_eq_ok_iff, require_eq_ok_iff, exists_const] at hok
  obtain ⟨hagrees, hok⟩ := hok
  obtain rfl := Except.ok.inj hok
  exact separate_insertAll_empty [⟨set, a⟩] hset.proper
    (List.forall_mem_singleton.2 ⟨hset, set.space.agrees_refl, ha, hs, hagrees⟩)
    (List.pairwise_singleton _ _)

theorem separate_const (hs : s.Proper) (c : Int) : (const s c).Separate :=
  separate_ofAffine (Affine.denotes_const s c).wellFormed hs

theorem separate_indicator {set : Relation} (hset : set.WellFormed)
    (hok : indicator set = .ok f) : f.Separate := by
  simp only [indicator, bind_eq_ok_iff] at hok
  obtain ⟨rest, hsub, hok⟩ := hok
  obtain rfl := Except.ok.inj hok
  obtain ⟨hspace, hrest, hmem⟩ := (Relation.wellFormed_full hset.proper).subtract hset hsub
  have hvalue : ∀ c, (Affine.const (.ofSpace set.space) c).LiesIn set.space := fun c =>
    ⟨(Affine.denotes_const set.space c).wellFormed, hset.proper, set.space.agrees_refl⟩
  have hzero : (Affine.zero (.ofSpace set.space)).LiesIn set.space :=
    ⟨Affine.wellFormed_zero (hvalue 0).wellFormed, hset.proper, set.space.agrees_refl⟩
  exact separate_insertAll_empty
    [⟨set, .const (.ofSpace set.space) 1⟩, ⟨rest, .zero (.ofSpace set.space)⟩] hset.proper
    (List.forall_mem_cons.2 ⟨⟨hset, set.space.agrees_refl, hvalue 1⟩, List.forall_mem_singleton.2
      ⟨hrest, hspace ▸ set.space.agrees_refl, hzero⟩⟩)
    (List.pairwise_pair.2 fun x hx hx' => (hmem x hx').2 hx)

end Start

section Map

theorem Separate.mapValues {op : Affine → Affine} (hf : f.Separate)
    (step : ∀ a : Affine, a.LiesIn f.space → (op a).LiesIn f.space) : (f.mapValues op).Separate := by
  refine ⟨hf.proper, fun p hp => ?_, List.pairwise_map.2 hf.apart⟩
  obtain ⟨q, hq, rfl⟩ := List.mem_map.1 hp
  have hq := hf.pieces q hq
  exact ⟨hq.domain, hq.agrees, step _ hq.value⟩

theorem Separate.mapM {op : Piece → Except Error Piece} {ps : List Piece} (hf : f.Separate)
    (step : ∀ p q, p.LiesIn f.space → op p = .ok q → q.LiesIn s ∧ ∀ x ∈ q.domain, x ∈ p.domain)
    (hok : f.pieces.mapM op = .ok ps) :
    (∀ q ∈ ps, q.LiesIn s) ∧ ps.Pairwise fun p q => Apart p.domain q.domain := by
  have hps : List.Forall₂ (fun p q => p.LiesIn f.space ∧ op p = .ok q) f.pieces ps :=
    (List.forall₂_and_left _ _).2 ⟨hf.pieces, forall₂_of_mapM_eq_ok hok⟩
  refine ⟨forall_mem_of_forall₂ hps fun p _ q h => (step p q h.1 h.2).1, ?_⟩
  exact pairwise_of_forall₂ hps hf.apart fun p p' q q' hpp' h h' x hx hx' =>
    hpp' x ((step p q h.1 h.2).2 x hx) ((step p' q' h'.1 h'.2).2 x hx')

theorem Separate.mapValuesM {op : Affine → Except Error Affine} (hf : f.Separate)
    (step : ∀ a b : Affine, a.LiesIn f.space → op a = .ok b → b.LiesIn f.space)
    (hok : f.mapValuesM op = .ok g) : g.Separate := by
  simp only [Piecewise.mapValuesM, bind_eq_ok_iff] at hok
  obtain ⟨ps, hps, hok⟩ := hok
  obtain rfl := Except.ok.inj hok
  obtain ⟨hpieces, hapart⟩ := hf.mapM (s := f.space) (fun p q hp hq => by
    obtain ⟨b, hb, hq⟩ := bind_eq_ok_iff.1 hq
    obtain rfl := Except.ok.inj hq
    exact ⟨⟨hp.domain, hp.agrees, step _ _ hp.value hb⟩, fun _ hx => hx⟩) hps
  exact ⟨hf.proper, hpieces, hapart⟩

theorem Separate.neg (hf : f.Separate) : f.neg.Separate := hf.mapValues fun _ ha => ha.neg

theorem Separate.scale (hf : f.Separate) (c : Int) : (f.scale c).Separate :=
  hf.mapValues fun _ ha => ha.scale c

theorem Separate.addConstant (hf : f.Separate) (c : Int) : (f.addConstant c).Separate :=
  hf.mapValues fun _ ha => ha.addConstant c

theorem Separate.scaleDown {d : Int} (hf : f.Separate) (hok : f.scaleDown d = .ok g) : g.Separate :=
  hf.mapValuesM (fun _ _ ha => ha.scaleDown) hok

theorem Separate.floor (hf : f.Separate) (hok : f.floor = .ok g) : g.Separate :=
  hf.mapValuesM (fun _ _ ha => ha.floor) hok

theorem Separate.ceil (hf : f.Separate) (hok : f.ceil = .ok g) : g.Separate :=
  hf.mapValuesM (fun _ _ ha => ha.ceil) hok

theorem Separate.mod {m : Int} (hf : f.Separate) (hok : f.mod m = .ok g) : g.Separate :=
  hf.mapValuesM (fun _ _ ha => ha.mod) hok

theorem Separate.resetSpace (hf : f.Separate) (hs : s.Proper) (hok : f.resetSpace s = .ok g) :
    g.Separate := by
  simp only [Piecewise.resetSpace, bind_eq_ok_iff] at hok
  obtain ⟨ps, hps, hok⟩ := hok
  obtain rfl := Except.ok.inj hok
  obtain ⟨hpieces, hapart⟩ := hf.mapM (s := s) (fun p q hp hq => by
    simp only [bind_eq_ok_iff] at hq
    obtain ⟨dom, hdom, b, hb, hq⟩ := hq
    obtain rfl := Except.ok.inj hq
    obtain ⟨hspace, hwf, hmem⟩ := hp.domain.resetSpace hs hdom
    exact ⟨⟨hwf, hspace ▸ s.agrees_refl, hp.value.resetSpace hs hb⟩, fun x => (hmem x).1⟩) hps
  exact ⟨hs, hpieces, hapart⟩

theorem Separate.intersectDomain {set : Relation} (hf : f.Separate) (hset : set.WellFormed)
    (hok : f.intersectDomain set = .ok g) : g.Separate ∧ g.space = f.space ∧
      ∀ q ∈ g.pieces, ∀ x ∈ q.domain, x ∈ set := by
  simp only [Piecewise.intersectDomain, bind_eq_ok_iff] at hok
  obtain ⟨ps, hps, hok⟩ := hok
  obtain rfl := Except.ok.inj hok
  have hstep : ∀ p q : Piece, p.LiesIn f.space →
      (do return { p with domain := ← p.domain.intersect set }) = Except.ok (ε := Error) q →
        q.LiesIn f.space ∧ ∀ x ∈ q.domain, x ∈ p.domain ∧ x ∈ set := by
    intro p q hp hq
    obtain ⟨dom, hdom, hq⟩ := bind_eq_ok_iff.1 hq
    obtain rfl := Except.ok.inj hq
    obtain ⟨hspace, hwf, hmem⟩ := hp.domain.intersect hset hdom
    exact ⟨⟨hwf, hspace ▸ hp.agrees, hp.value⟩, fun x => (hmem x).1⟩
  obtain ⟨hpieces, hapart⟩ := hf.mapM (s := f.space) (fun p q hp hq =>
    ⟨(hstep p q hp hq).1, fun x hx => ((hstep p q hp hq).2 x hx).1⟩) hps
  refine ⟨separate_insertAll_empty _ hf.proper hpieces hapart, space_insertAll _ _, ?_⟩
  intro q hq
  obtain hq := (mem_pieces_insertAll.1 hq).resolve_left (by simp [empty])
  obtain ⟨p, hp, hpq⟩ := exists_mem_of_forall₂_right (forall₂_of_mapM_eq_ok hps) hq.1
  exact fun x hx => ((hstep p q (hf.pieces p hp) hpq).2 x hx).2

end Map

end Piecewise

end Quasiaffine
