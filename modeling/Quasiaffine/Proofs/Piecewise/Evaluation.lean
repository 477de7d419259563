import Quasiaffine.Proofs.Piecewise.Arithmetic
import Quasiaffine.Proofs.Relation.Search

set_option autoImplicit false

namespace Quasiaffine.Affine

variable {a b c : Affine} {s : Space} {u : Row → ℚ} {p : Row} {f d : Int}

theorem Denotes.eval_eq_ok (h : a.Denotes s u) (hp : p.length = s.total) :
    a.eval p = .ok (u p) := by
  rw [h.wellFormed.eval_eq_ok (by rw [h.space, hp]), h.valueAt_eq hp]

theorem quotient_addConstant (h : a.WellFormed) (f : Int) (v : Row) :
    quotient (a.addConstant f).row (1 :: v) = quotient a.row (1 :: v) + f := by
  obtain ⟨ls, row⟩ := a
  have hlen := h.length
  have hden := h.denominator
  match row, hlen, hden with
  | [], hlen, _ => simp at hlen; omega
  | [_], hlen, _ => simp at hlen; omega
  | m :: e :: r, _, hden =>
    have hm : (m : ℚ) ≠ 0 := by exact_mod_cast Int.ne_of_gt hden
    simp only [addConstant, constant, denominator, quotient, List.set_cons_succ, List.set_cons_zero,
      List.drop_one, List.tail_cons, Row.entry_cons_zero, Row.entry_cons_succ, Row.dot_cons, mul_one]
    push_cast
    rw [show ((e : ℚ) + f * m + Row.dot r v) = (e + Row.dot r v) + f * m by ring, add_div,
      mul_div_cancel_right₀ _ hm]

theorem Denotes.addConstant (h : a.Denotes s u) (f : Int) :
    (a.addConstant f).Denotes s fun x => u x + f := by
  refine h.withRow (g := fun q => q + f) ⟨h.wellFormed.divisions, h.wellFormed.positive, ?_, ?_⟩
    (quotient_addConstant h.wellFormed f)
  · rw [List.length_set]
    exact h.wellFormed.length
  · rw [Row.entry_set, if_neg (by omega)]
    exact h.wellFormed.denominator

theorem Denotes.floorDiv_eq_ok (h : a.Denotes s u) (hd : 0 < d) :
    ∃ c, a.floorDiv d = .ok c ∧ c.Denotes s fun x => ⌊u x / d⌋ := by
  obtain ⟨b, hok, hb⟩ := h.scaleDown_eq_ok hd
  obtain ⟨c, hok', hc⟩ := hb.floor_eq_ok
  exact ⟨c, by simp only [floorDiv, bind, Except.bind, hok, hok'], hc⟩

theorem Denotes.ceilDiv_eq_ok (h : a.Denotes s u) (hd : 0 < d) :
    ∃ c, a.ceilDiv d = .ok c ∧ c.Denotes s fun x => ⌈u x / d⌉ := by
  obtain ⟨b, hok, hb⟩ := h.scaleDown_eq_ok hd
  obtain ⟨c, hok', hc⟩ := hb.ceil_eq_ok
  exact ⟨c, by simp only [ceilDiv, bind, Except.bind, hok, hok'], hc⟩

section Operands

variable (ha : a.WellFormed) (hb : b.WellFormed) (hs : a.space.agrees b.space = true)
  (ht : a.space.total = b.space.total)

include ha hb hs ht

theorem WellFormed.add_eq_ok :
    ∃ m c, a.ls.merge b.ls = .ok m ∧ a.add b = .ok c ∧ c.ls = m.ls ∧
      c.Denotes a.space fun x => a.valueAt x + b.valueAt x := by
  obtain ⟨c, hok, hc⟩ := ha.denotes.add_eq_ok (hb.relabel ht).denotes
  rw [add_relabel hs] at hok
  obtain ⟨m, hm, hmc⟩ := bind_eq_ok_iff.1 hok
  exact ⟨m, c, hm, hok, by rw [← Except.ok.inj hmc], hc⟩

theorem WellFormed.sub_eq_ok :
    ∃ m c, a.ls.merge b.ls = .ok m ∧ a.sub b = .ok c ∧ c.ls = m.ls ∧
      c.Denotes a.space fun x => a.valueAt x + b.neg.valueAt x :=
  ha.add_eq_ok hb.denotes.neg.wellFormed hs ht

end Operands

/-- Every operation makes an expression, and evaluation finds there what the operation makes of the
values of the operands. -/
theorem eval_arithmetic (ha : a.WellFormed) (hb : b.WellFormed)
    (hs : a.space.agrees b.space = true) (ht : a.space.total = b.space.total)
    (hp : p.length = a.space.total) (f : Int) (hd : 0 < d) :
    ∃ u w : ℚ, a.eval p = .ok u ∧ b.eval p = .ok w ∧
      (∃ m, a.ls.merge b.ls = .ok m ∧
        (∃ c, a.add b = .ok c ∧ c.ls = m.ls ∧ c.eval p = .ok (u + w)) ∧
        ∃ c, a.sub b = .ok c ∧ c.ls = m.ls ∧ c.eval p = .ok (u - w)) ∧
      a.neg.eval p = .ok (-u) ∧
      (a.addConstant f).eval p = .ok (u + f) ∧
      (a.scale f).eval p = .ok (f * u) ∧
      (∃ c, a.scaleDown d = .ok c ∧ c.eval p = .ok (u / d)) ∧
      (∃ c, a.floor = .ok c ∧ c.eval p = .ok ⌊u⌋) ∧
      (∃ c, a.ceil = .ok c ∧ c.eval p = .ok ⌈u⌉) ∧
      (∃ c, a.floorDiv d = .ok c ∧ c.eval p = .ok ⌊u / d⌋) ∧
      (∃ c, a.ceilDiv d = .ok c ∧ c.eval p = .ok ⌈u / d⌉) ∧
      ∃ c, a.mod d = .ok c ∧ c.eval p = .ok (u - d * ⌊u / d⌋) := by
  have hpb : p.length = b.space.total := hp.trans ht
  have hv := ha.denotes
  refine ⟨a.valueAt p, b.valueAt p, hv.eval_eq_ok hp, hb.denotes.eval_eq_ok hpb, ?merged,
    hv.neg.eval_eq_ok hp, (hv.addConstant f).eval_eq_ok hp, (hv.scale f).eval_eq_ok hp, ?scaleDown,
    ?floor, ?ceil, ?floorDiv, ?ceilDiv, ?mod⟩
  case merged =>
    obtain ⟨m, c, hm, hok, hls, hc⟩ := ha.add_eq_ok hb hs ht
    obtain ⟨m', c', hm', hok', hls', hc'⟩ := ha.sub_eq_ok hb hs ht
    obtain rfl := Except.ok.inj (hm'.symm.trans hm)
    refine ⟨m', hm, ⟨c, hok, hls, hc.eval_eq_ok hp⟩, c', hok', hls', ?_⟩
    rw [hc'.eval_eq_ok hp, hb.denotes.neg.valueAt_eq hpb, sub_eq_add_neg]
  case scaleDown =>
    obtain ⟨c, hok, hc⟩ := hv.scaleDown_eq_ok hd
    exact ⟨c, hok, hc.eval_eq_ok hp⟩
  case floor =>
    obtain ⟨c, hok, hc⟩ := hv.floor_eq_ok
    exact ⟨c, hok, hc.eval_eq_ok hp⟩
  case ceil =>
    obtain ⟨c, hok, hc⟩ := hv.ceil_eq_ok
    exact ⟨c, hok, hc.eval_eq_ok hp⟩
  case floorDiv =>
    obtain ⟨c, hok, hc⟩ := hv.floorDiv_eq_ok hd
    exact ⟨c, hok, hc.eval_eq_ok hp⟩
  case ceilDiv =>
    obtain ⟨c, hok, hc⟩ := hv.ceilDiv_eq_ok hd
    exact ⟨c, hok, hc.eval_eq_ok hp⟩
  case mod =>
    obtain ⟨c, hok, hc⟩ := hv.mod_eq_ok hd
    exact ⟨c, hok, hc.eval_eq_ok hp⟩

/-- `⌊-5 / 2⌋` and `(-5 + 1) / 3`. -/
theorem eval_arithmetic_halfThird :
    Piecewise.half.WellFormed ∧ Piecewise.third.WellFormed ∧
      Piecewise.half.space.agrees Piecewise.third.space = true ∧ (0 : Int) < 2 ∧
      (∃ c, Piecewise.half.sub Piecewise.third = .ok c ∧ c.eval [-5] = .ok (-5 / 3)) ∧
      ∃ c, Piecewise.third.mod 2 = .ok c ∧ c.eval [-5] = .ok (2 / 3) := by
  have hhalf := Piecewise.wellFormed_half
  have hthird := Piecewise.wellFormed_third
  refine ⟨hhalf, hthird, rfl, by decide, ?_, ?_⟩
  · obtain ⟨u, w, hu, hw, ⟨m, -, -, c, hok, -, hc⟩, -⟩ :=
      eval_arithmetic (p := [-5]) hhalf hthird rfl rfl rfl 0 (show (0 : Int) < 2 by decide)
    obtain rfl : (-3 : ℚ) = u := Except.ok.inj ((show _ = _ by decide +kernel).trans hu)
    obtain rfl : (-4 / 3 : ℚ) = w := Except.ok.inj ((show _ = _ by decide +kernel).trans hw)
    exact ⟨c, hok, by rw [hc]; norm_num⟩
  · obtain ⟨u, -, hu, -, -, -, -, -, -, -, -, -, -, c, hok, hc⟩ :=
      eval_arithmetic (p := [-5]) hthird hhalf rfl rfl rfl 0 (show (0 : Int) < 2 by decide)
    obtain rfl : (-4 / 3 : ℚ) = u := Except.ok.inj ((show _ = _ by decide +kernel).trans hu)
    exact ⟨c, hok, by rw [hc]; norm_num⟩

end Quasiaffine.Affine

namespace Quasiaffine.Piecewise

variable {f : Piecewise} {s : Space} {v : Row → ℚ} {x : Row}

theorem evalPieces_eq_ok {ps : List Piece} (hps : ∀ p ∈ ps, p.Denotes s v) (hx : x.length = s.total)
    (hmem : ∃ p ∈ ps, x ∈ p.domain) : evalPieces x ps = .ok (some (v x)) := by
  induction ps with
  | nil => simp at hmem
  | cons p ps ih =>
    rw [List.forall_mem_cons] at hps
    obtain ⟨P, hP⟩ := hps.1.domain
    obtain ⟨u, hu, huv⟩ := hps.1.value
    obtain ⟨found, hok, hfound⟩ :=
      hP.wellFormed.contains_spec (hP.space ▸ hx) BasicRelation.defaultRadius
    cases found with
    | true => simp [evalPieces, hok, hu.eval_eq_ok hx, huv x (hfound rfl), bind, Except.bind, pure,
        Except.pure]
    | false =>
      rw [List.exists_mem_cons_iff] at hmem
      rcases hmem with hmem | hmem
      · cases hok.symm.trans (hP.wellFormed.contains_eq_ok hps.1.known hmem _)
      · simp [evalPieces, hok, ih hps.2 hmem, bind, Except.bind]

theorem Denotes.eval_eq_ok (h : f.Denotes s v) (hx : x.length = s.total) :
    f.eval x = .ok (some (v x)) :=
  evalPieces_eq_ok h.pieces hx (h.defined x hx)

end Quasiaffine.Piecewise
