import Quasiaffine.Proofs.Piecewise.Compared

/-!
What operations that succeed do to the values of functions. Nothing has to be known beforehand of
the spaces of the operands: an operation that succeeds has checked them.
-/

set_option autoImplicit false

namespace Quasiaffine

abbrev Value := Row → Option ℚ

namespace Value

def constant (n : Nat) (c : ℚ) : Value := fun x => if x.length = n then some c else none

def coordinate (n pos : Nat) : Value :=
  fun x => if x.length = n then some (x.entry pos : ℚ) else none

def map (o : ℚ → ℚ) (v : Value) : Value := fun x => (v x).map o

def combine (o : ℚ → ℚ → ℚ) (v w : Value) : Value := fun x => Option.map₂ o (v x) (w x)

open Classical in
noncomputable def select (set : Set Row) (v w : Value) : Value :=
  fun x => if x ∈ set then v x else w x

open Classical in
noncomputable def restrict (set : Set Row) (v : Value) : Value :=
  fun x => if x ∈ set then v x else none

def merge (v w : Value) : Value := fun x => Option.merge (· + ·) (v x) (w x)

def compare (op : Comparison) (vs ws : List Value) : Set Row :=
  {x | ∀ v ∈ vs, ∀ w ∈ ws, Piecewise.Compare op (v x) (w x)}

def total (vs : List Value) : Value := fun x =>
  match vs.filterMap (· x) with
  | [] => none
  | qs => some qs.sum

variable {vs ws : List Value} {v : Value} {x : Row} {q : ℚ}

theorem total_singleton (v : Value) : total [v] = v := by
  funext x
  rw [total, List.filterMap_cons]
  cases v x with
  | none => rfl
  | some q => exact congrArg some (add_zero q)

theorem total_concat (vs : List Value) (v : Value) : total (vs ++ [v]) = merge (total vs) v := by
  funext x
  have hlast : [v].filterMap (· x) = (v x).toList := by
    rw [List.filterMap_cons]
    cases v x <;> rfl
  rw [total, merge, total, List.filterMap_append, hlast]
  cases v x with
  | none =>
    rw [Option.toList_none, List.append_nil]
    cases vs.filterMap (· x) <;> rfl
  | some q =>
    rw [Option.toList_some]
    cases vs.filterMap (· x) with
    | nil => exact congrArg some (add_zero q)
    | cons p ps => exact congrArg some (by simp [add_assoc])

/-- The order of the values does not count. -/
theorem total_perm (h : vs.Perm ws) : total vs = total ws := by
  funext x
  have hx := h.filterMap (· x)
  rw [total, total]
  cases hvs : vs.filterMap (· x) with
  | nil => rw [hvs, List.nil_perm] at hx; rw [hx]
  | cons p ps =>
    rw [hvs] at hx
    cases hws : ws.filterMap (· x) with
    | nil => rw [hws] at hx; exact absurd hx.eq_nil (List.cons_ne_nil _ _)
    | cons q qs => rw [hws] at hx; exact congrArg some hx.sum_eq

theorem total_eq_none (h : ∀ v ∈ vs, v x = none) : total vs x = none := by
  rw [total, List.filterMap_eq_nil_iff.2 h]

theorem total_eq_some (h : vs.Pairwise fun v w => v x = none ∨ w x = none) (hv : v ∈ vs)
    (hx : v x = some q) : total vs x = some q := by
  have hone : vs.filterMap (· x) = [q] := by
    induction vs with
    | nil => cases hv
    | cons w vs ih =>
      rw [List.pairwise_cons] at h
      rcases List.mem_cons.1 hv with rfl | hv
      · have hrest : ∀ w ∈ vs, w x = none := fun w hw =>
          (h.1 w hw).resolve_left (by simp [hx])
        simp only [List.filterMap_cons, hx, List.filterMap_eq_nil_iff.2 hrest]
      · have hw : w x = none := (h.1 v hv).resolve_right (by simp [hx])
        simp only [List.filterMap_cons, hw, ih h.2 hv]
  rw [total, hone]
  exact congrArg some (add_zero q)

open Classical in
noncomputable def under (n : Nat) (P : Row → Prop) (v : Row → ℚ) : Value :=
  fun x => if x.length = n ∧ P x then some (v x) else none

end Value

def Relation.points (r : Relation) : Set Row := {x | x ∈ r}

open Classical in
noncomputable def Piece.valueAt (p : Piece) : Value :=
  fun x => if x ∈ p.domain then some (p.value.valueAt x) else none

namespace Piecewise

/-- A well-formed function on tidy sets. -/
structure Regular (f : Piecewise) : Prop where
  maps : f.Maps f.valueAt
  tidy : f.Tidy

structure Over (f : Piecewise) (s : Space) (v : Value) : Prop where
  regular : f.Regular
  space : f.space = s
  valueAt : f.valueAt = v

variable {f g h : Piecewise} {s : Space} {v w : Value} {set r : Relation}

theorem Maps.regular (hf : f.Maps v) (ht : f.Tidy) : f.Regular ∧ f.valueAt = v :=
  ⟨⟨hf.valueAt_eq.symm ▸ hf, ht⟩, hf.valueAt_eq⟩

theorem Regular.proper (hf : f.Regular) : f.space.Proper := hf.maps.proper

theorem Regular.eq_none_of_length_ne (hf : f.Regular) {x : Row} (hx : x.length ≠ f.space.total) :
    f.valueAt x = none := hf.maps.eq_none_of_length_ne hx

section Start

variable {a : Affine} {u : Row → ℚ}

theorem Denotes.over (hf : f.Denotes s u) : f.Over s (Value.under s.total (fun _ => True) u) := by
  have hspace := hf.space
  subst hspace
  have hlies : ∀ p ∈ f.pieces, p.LiesIn f.space ∧ p.domain.Tidy := fun p hp => by
    obtain ⟨⟨P, hP⟩, -, w, hw, -⟩ := hf.pieces p hp
    exact ⟨⟨hP.wellFormed, hP.space ▸ f.space.agrees_refl, hw.wellFormed, hw.space ▸ hf.proper,
      hw.space ▸ f.space.agrees_refl⟩, hP.tidy⟩
  have hmaps : f.Maps (Value.under f.space.total (fun _ => True) u) := by
    refine ⟨hf.proper, fun p hp => (hlies p hp).1, fun p hp x hx => ?_, fun x hx => ?_⟩
    · obtain ⟨⟨P, hP⟩, -, w, hw, hwu⟩ := hf.pieces p hp
      have hlength := ((hP.points x).1 hx).1
      rw [Value.under, if_pos ⟨hlength, trivial⟩, hw.valueAt_eq hlength, hwu x hx]
    · rw [Value.under, if_neg]
      rintro ⟨hlength, -⟩
      obtain ⟨p, hp, hxp⟩ := hf.defined x hlength
      exact hx p hp hxp
  obtain ⟨hreg, hvalue⟩ := hmaps.regular fun p hp => (hlies p hp).2
  exact ⟨hreg, rfl, hvalue⟩

theorem regular_ofAffine (ha : a.Denotes s u) (hs : s.Proper) :
    (ofAffine a).Regular ∧
      (ofAffine a).valueAt = fun x => if x.length = s.total then some (u x) else none := by
  have hspace := ha.space
  subst hspace
  have hmaps := (separate_ofAffine ha.wellFormed hs).maps
  refine ⟨⟨hmaps, tidy_ofAffine a⟩, funext fun x => ?_⟩
  split
  · rename_i hx
    rw [hmaps.value ⟨.full a.space, a⟩ (List.mem_singleton_self _) x (Relation.mem_full_iff.2 hx),
      ha.valueAt_eq hx]
  · rename_i hx
    exact hmaps.eq_none_of_length_ne hx

theorem regular_const (hs : s.Proper) (c : Int) : (const s c).Regular ∧
    (const s c).valueAt = Value.constant s.total c :=
  regular_ofAffine (Affine.denotes_const s c) hs

end Start

section Map

variable {o : ℚ → ℚ}

theorem Maps.mapValuesM_eq_ok {op : Affine → Except Error Affine} (hf : f.Maps v)
    (step : ∀ (a : Affine) (s : Space) (u : Row → ℚ), a.Denotes s u →
      ∃ b, op a = .ok b ∧ b.Denotes s fun x => o (u x)) :
    ∃ g, f.mapValuesM op = .ok g ∧ (f.Tidy → g.Tidy) ∧ g.Maps (v.map o) := by
  obtain ⟨ps, hok, hps⟩ := mapM_eq_ok
    (f := fun p : Piece => do return { p with value := ← op p.value }) (l := f.pieces)
    (R := fun p q => p ∈ f.pieces ∧ q.domain = p.domain ∧ q.LiesIn f.space ∧
      ∀ x, x.length = p.value.space.total → q.value.valueAt x = o (p.value.valueAt x))
    fun p hp => by
      have hlies := hf.pieces p hp
      obtain ⟨b, hok, hb⟩ := step p.value _ _ hlies.value.wellFormed.denotes
      exact ⟨{ p with value := b }, by simp only [hok, bind, Except.bind, pure, Except.pure], hp, rfl,
        ⟨hlies.domain, hlies.agrees, hlies.value.of_denotes hb⟩, fun x hx => hb.valueAt_eq hx⟩
  refine ⟨{ f with pieces := ps }, by rw [mapValuesM, hok]; rfl, fun ht => ?_, hf.proper,
    forall_mem_of_forall₂ hps fun _ _ _ h => h.2.2.1, ?_, fun x hx => ?_⟩
  · exact forall_mem_of_forall₂ hps fun p hp q h => h.2.1 ▸ ht p hp
  · refine forall_mem_of_forall₂ hps fun p hp q h x hx => ?_
    obtain ⟨-, hdomain, -, hvalue⟩ := h
    rw [hdomain] at hx
    have hlies := hf.pieces p hp
    rw [Value.map, hf.value p hp x hx, Option.map_some, hvalue x ((hlies.domain.length_of_mem hx).trans
      (Space.total_eq_of_agrees (Space.agrees_trans (Space.agrees_symm hlies.agrees)
        hlies.value.agrees) hlies.domain.proper hlies.value.proper))]
  · rw [Value.map, hf.undefined x fun p hp hxp => ?_, Option.map_none]
    obtain ⟨q, hq, h⟩ := exists_mem_of_forall₂ hps hp
    exact hx q hq (h.2.1 ▸ hxp)

theorem Regular.mapValuesM {op : Affine → Except Error Affine} (hf : f.Regular)
    (step : ∀ (a : Affine) (s : Space) (u : Row → ℚ), a.Denotes s u →
      ∃ b, op a = .ok b ∧ b.Denotes s fun x => o (u x)) (hok : f.mapValuesM op = .ok g) :
    g.Regular ∧ g.valueAt = Value.map o f.valueAt := by
  obtain ⟨g', hok', ht, hm⟩ := hf.maps.mapValuesM_eq_ok step
  obtain rfl := Except.ok.inj (hok'.symm.trans hok)
  exact hm.regular (ht hf.tidy)

theorem Regular.scale (hf : f.Regular) (c : Int) :
    (f.scale c).Regular ∧ (f.scale c).valueAt = Value.map (fun q => c * q) f.valueAt := by
  have hps : f.pieces.mapM (fun p => do
      return { p with value := ← (.ok (p.value.scale c) : Except Error Affine) }) =
        .ok (f.pieces.map fun p => { p with value := p.value.scale c }) :=
    mapM_eq_ok_map fun _ _ => rfl
  have hok : f.mapValuesM (fun a => .ok (a.scale c)) = .ok (f.scale c) := by
    rw [Piecewise.mapValuesM, hps]
    rfl
  exact hf.mapValuesM (fun a s u ha => ⟨_, rfl, ha.scale c⟩) hok

variable {d : Int}

theorem Regular.scaleDown (hf : f.Regular) (hd : 0 < d) (hok : f.scaleDown d = .ok g) :
    g.Regular ∧ g.valueAt = Value.map (fun q => q / d) f.valueAt :=
  hf.mapValuesM (o := fun q => q / d) (fun _ _ _ ha => ha.scaleDown_eq_ok hd) hok

theorem Regular.floor (hf : f.Regular) (hok : f.floor = .ok g) :
    g.Regular ∧ g.valueAt = Value.map (fun q => ⌊q⌋) f.valueAt :=
  hf.mapValuesM (o := fun q => (⌊q⌋ : ℚ)) (fun _ _ _ ha => ha.floor_eq_ok) hok

theorem Regular.ceil (hf : f.Regular) (hok : f.ceil = .ok g) :
    g.Regular ∧ g.valueAt = Value.map (fun q => ⌈q⌉) f.valueAt :=
  hf.mapValuesM (o := fun q => (⌈q⌉ : ℚ)) (fun _ _ _ ha => ha.ceil_eq_ok) hok

theorem Regular.mod (hf : f.Regular) (hd : 0 < d) (hok : f.mod d = .ok g) :
    g.Regular ∧ g.valueAt = Value.map (fun q => q - d * ⌊q / d⌋) f.valueAt :=
  hf.mapValuesM (o := fun q => q - d * ⌊q / d⌋) (fun _ _ _ ha => ha.mod_eq_ok hd) hok

end Map

section Combine

theorem Regular.add (hf : f.Regular) (hg : g.Regular) (hok : f.add g = .ok h) :
    h.Regular ∧ h.valueAt = Value.combine (· + ·) f.valueAt g.valueAt := by
  obtain ⟨h', hok', -, ht, hm⟩ := hf.maps.add_eq_ok hg.maps (agrees_of_combine hok).1
  obtain rfl := Except.ok.inj (hok'.symm.trans hok)
  exact hm.regular ht

theorem Regular.sub (hf : f.Regular) (hg : g.Regular) (hok : f.sub g = .ok h) :
    h.Regular ∧ h.valueAt = Value.combine (· - ·) f.valueAt g.valueAt := by
  obtain ⟨h', hok', -, ht, hm⟩ := hf.maps.sub_eq_ok hg.maps (agrees_of_combine hok).1
  obtain rfl := Except.ok.inj (hok'.symm.trans hok)
  exact hm.regular ht

theorem Regular.min (hf : f.Regular) (hg : g.Regular) (hok : f.min g = .ok h) :
    h.Regular ∧ h.valueAt = Value.combine Min.min f.valueAt g.valueAt := by
  obtain ⟨h', hok', -, ht, hm⟩ := hf.maps.min_eq_ok hg.maps (agrees_of_combine hok).1
  obtain rfl := Except.ok.inj (hok'.symm.trans hok)
  exact hm.regular ht

theorem Regular.max (hf : f.Regular) (hg : g.Regular) (hok : f.max g = .ok h) :
    h.Regular ∧ h.valueAt = Value.combine Max.max f.valueAt g.valueAt := by
  obtain ⟨h', hok', -, ht, hm⟩ := hf.maps.max_eq_ok hg.maps (agrees_of_combine hok).1
  obtain rfl := Except.ok.inj (hok'.symm.trans hok)
  exact hm.regular ht

theorem regular_of_foldList {op : Piecewise → Piecewise → Except Error Piecewise} {o : ℚ → ℚ → ℚ}
    {fs : List Piecewise} (step : ∀ f g h : Piecewise, f.Regular → g.Regular → op f g = .ok h →
      h.Regular ∧ h.valueAt = Value.combine o f.valueAt g.valueAt)
    (hf : f.Regular) (hfs : ∀ g ∈ fs, g.Regular) (hok : foldList op (f :: fs) = .ok h) :
    h.Regular ∧ h.valueAt = (fs.map valueAt).foldl (Value.combine o) f.valueAt := by
  replace hok : fs.foldlM op f = .ok h := hok
  induction fs generalizing f with
  | nil => exact Except.ok.inj hok ▸ ⟨hf, rfl⟩
  | cons g fs ih =>
    rw [List.forall_mem_cons] at hfs
    obtain ⟨f', hf', hok⟩ := bind_eq_ok_iff.1 ((List.foldlM_cons ..).symm.trans hok)
    obtain ⟨hreg, hvalue⟩ := step f g f' hf hfs.1 hf'
    obtain ⟨hh, hv⟩ := ih hreg hfs.2 hok
    exact ⟨hh, by rw [hv, hvalue, List.map_cons, List.foldl_cons]⟩

end Combine

section Sets

variable {op : Comparison}

theorem Regular.compareSet (hf : f.Regular) (hg : g.Regular) (hok : f.compareSet g op = .ok r) :
    r.WellFormed ∧ r.space = f.space ∧ ∀ x, x ∈ r ↔ Compare op (f.valueAt x) (g.valueAt x) := by
  obtain ⟨_, hs, -⟩ := bind_eq_ok_iff.1 hok
  obtain ⟨r', hok', hspace, hwf, hmem⟩ :=
    hf.maps.compareSet_eq_ok hg.maps (agrees_of_requireSameSpace hs) op
  obtain rfl := Except.ok.inj (hok'.symm.trans hok)
  exact ⟨hwf, hspace, hmem⟩

theorem mem_of_foldlM_compareSet {ps : List (Piecewise × Piecewise)}
    (hps : ∀ pair ∈ ps, pair.1.Regular ∧ pair.2.Regular) (hset : set.WellFormed)
    (hok : ps.foldlM (fun set pair => do set.intersect (← pair.1.compareSet pair.2 op)) set = .ok r) :
    r.WellFormed ∧ r.space = set.space ∧
      ∀ x, x ∈ r ↔ x ∈ set ∧ ∀ pair ∈ ps, Compare op (pair.1.valueAt x) (pair.2.valueAt x) := by
  induction ps generalizing set with
  | nil => exact Except.ok.inj hok ▸ ⟨hset, rfl, by simp⟩
  | cons pair ps ih =>
    rw [List.forall_mem_cons] at hps
    obtain ⟨set', hset', hok⟩ := bind_eq_ok_iff.1 ((List.foldlM_cons ..).symm.trans hok)
    obtain ⟨c, hc, hset'⟩ := bind_eq_ok_iff.1 hset'
    obtain ⟨hcwf, -, hcmem⟩ := hps.1.1.compareSet hps.1.2 hc
    obtain ⟨hspace', hwf', hmem'⟩ := hset.intersect hcwf hset'
    obtain ⟨hwf, hspace, hmem⟩ := ih hps.2 hwf' hok
    refine ⟨hwf, hspace.trans hspace', fun x => ?_⟩
    rw [hmem, hmem', hcmem, List.forall_mem_cons, and_assoc]

theorem points_of_compareListSet {fs gs : List Piecewise} (hfs : ∀ f ∈ fs, f.Regular)
    (hgs : ∀ g ∈ gs, g.Regular) (hne : fs ≠ []) (hne' : gs ≠ [])
    (hok : compareListSet fs gs op = .ok r) :
    r.WellFormed ∧ r.points = Value.compare op (fs.map valueAt) (gs.map valueAt) := by
  obtain ⟨f, fs', rfl⟩ := List.exists_cons_of_ne_nil hne
  obtain ⟨g, gs', rfl⟩ := List.exists_cons_of_ne_nil hne'
  have hpairs : ∀ pair ∈ (f :: fs').flatMap fun f => (g :: gs').map fun g => (f, g),
      pair.1.Regular ∧ pair.2.Regular := by
    intro pair hpair
    obtain ⟨f', hf', hpair⟩ := List.mem_flatMap.1 hpair
    obtain ⟨g', hg', rfl⟩ := List.mem_map.1 hpair
    exact ⟨hfs f' hf', hgs g' hg'⟩
  have hf := hfs f List.mem_cons_self
  obtain ⟨hwf, -, hmem⟩ :=
    mem_of_foldlM_compareSet hpairs (Relation.wellFormed_full hf.proper) hok
  refine ⟨hwf, Set.ext fun x => ?_⟩
  have hall : (∀ pair ∈ (f :: fs').flatMap fun f => (g :: gs').map fun g => (f, g),
      Compare op (pair.1.valueAt x) (pair.2.valueAt x)) ↔
        x ∈ Value.compare op ((f :: fs').map valueAt) ((g :: gs').map valueAt) := by
    constructor
    · intro h v hv w hw
      obtain ⟨a, ha, rfl⟩ := List.mem_map.1 hv
      obtain ⟨b, hb, rfl⟩ := List.mem_map.1 hw
      exact h (a, b) (List.mem_flatMap.2 ⟨a, ha, List.mem_map_of_mem hb⟩)
    · intro h pair hpair
      obtain ⟨a, ha, hpair⟩ := List.mem_flatMap.1 hpair
      obtain ⟨b, hb, rfl⟩ := List.mem_map.1 hpair
      exact h _ (List.mem_map_of_mem ha) _ (List.mem_map_of_mem hb)
  refine (hmem x).trans ⟨fun h => hall.1 h.2, fun h => ⟨Relation.mem_full_iff.2 ?_, hall.2 h⟩⟩
  -- Where the first function has a value, the point has as many coordinates as it should.
  by_contra hx
  obtain ⟨_, hp, -⟩ := h f.valueAt (by simp) g.valueAt (by simp)
  rw [hf.eq_none_of_length_ne hx] at hp
  cases hp

theorem Regular.intersectDomain (hf : f.Regular) (hset : set.WellFormed)
    (hok : f.intersectDomain set = .ok g) :
    g.Regular ∧ g.valueAt = Value.restrict set.points f.valueAt := by
  cases hps : f.pieces with
  | nil =>
    obtain rfl : f = g := by
      have hf' : f = empty f.space := by rw [empty, ← hps]
      rw [Piecewise.intersectDomain, hps] at hok
      exact hf'.trans (Except.ok.inj hok)
    have hnone : f.valueAt = fun _ => none := by
      funext x
      exact hf.maps.undefined x (by simp [hps])
    exact ⟨hf, by rw [hnone]; exact funext fun x => (ite_self _).symm⟩
  | cons p ps =>
    have hs : f.space.agrees set.space = true := by
      simp only [Piecewise.intersectDomain, hps, List.mapM_cons, bind_eq_ok_iff] at hok
      obtain ⟨_, ⟨_, ⟨_, hdom, -⟩, -⟩, -⟩ := hok
      obtain ⟨_, hs, -⟩ := bind_eq_ok_iff.1 hdom
      have hlies := hf.maps.pieces p (hps ▸ List.mem_cons_self)
      exact Space.agrees_trans hlies.agrees (Relation.agrees_of_requireSameSpace hs)
    obtain ⟨g', hok', -, ht, hm⟩ := hf.maps.intersectDomain_eq_ok hset hs
    obtain rfl := Except.ok.inj (hok'.symm.trans hok)
    exact hm.regular ht

theorem Regular.intersectDomain_eq_ok (hf : f.Regular) (hset : set.WellFormed)
    (hs : f.space.agrees set.space = true) : ∃ g, f.intersectDomain set = .ok g ∧
      g.Over f.space (Value.restrict set.points f.valueAt) := by
  obtain ⟨g, hok, hspace, -⟩ := hf.maps.intersectDomain_eq_ok hset hs
  obtain ⟨hg, hv⟩ := hf.intersectDomain hset hok
  exact ⟨g, hok, hg, hspace, hv⟩

theorem Regular.select (hset : set.WellFormed) (ht : set.Tidy) (hf : f.Regular) (hg : g.Regular)
    (hok : select set f g = .ok h) :
    h.Regular ∧ h.valueAt = Value.select set.points f.valueAt g.valueAt := by
  obtain ⟨c, hc, hok'⟩ := bind_eq_ok_iff.1 hok
  rcases indicator_spec hset ht with ⟨c', hc', hspace, -⟩ | herr
  case inr => rw [herr] at hc; cases hc
  obtain rfl := Except.ok.inj (hc'.symm.trans hc)
  simp only [cond, bind_eq_ok_iff] at hok'
  obtain ⟨_, hs, _, hsc, -⟩ := hok'
  rcases select_spec hset ht hf.maps hg.maps (agrees_of_requireSameSpace hs)
    (hspace ▸ agrees_of_requireSameSpace hsc) with ⟨h', hok', -, ht', hm⟩ | herr
  · obtain rfl := Except.ok.inj (hok'.symm.trans hok)
    exact hm.regular ht'
  · rw [herr] at hok
    cases hok

theorem Regular.unionAdd (hf : f.Regular) (hg : g.Regular) (hok : f.unionAdd g = .ok h) :
    h.Regular ∧ h.valueAt = Value.merge f.valueAt g.valueAt := by
  obtain ⟨_, hs, -⟩ := bind_eq_ok_iff.1 hok
  rcases hf.maps.unionAdd_spec hg.maps hf.tidy hg.tidy (agrees_of_requireSameSpace hs) with
    ⟨h', hok', -, ht, hm⟩ | herr
  · obtain rfl := Except.ok.inj (hok'.symm.trans hok)
    exact hm.regular ht
  · rw [herr] at hok
    cases hok

theorem Regular.space_unionAdd (hf : f.Regular) (hg : g.Regular) (hok : f.unionAdd g = .ok h) :
    h.space = f.space := by
  obtain ⟨_, hs, -⟩ := bind_eq_ok_iff.1 hok
  rcases hf.maps.unionAdd_spec hg.maps hf.tidy hg.tidy (agrees_of_requireSameSpace hs) with
    ⟨h', hok', hspace, -⟩ | herr
  · obtain rfl := Except.ok.inj (hok'.symm.trans hok)
    exact hspace
  · rw [herr] at hok
    cases hok

theorem space_resetSpace (hok : f.resetSpace s = .ok g) : g.space = s := by
  obtain ⟨ps, -, hok⟩ := bind_eq_ok_iff.1 hok
  exact (congrArg Piecewise.space (Except.ok.inj hok)).symm

theorem Regular.resetSpace (hf : f.Regular) (hs : s.Proper) (hok : f.resetSpace s = .ok g) :
    g.Regular ∧ g.valueAt = f.valueAt := by
  obtain ⟨ps, hps, hok⟩ := bind_eq_ok_iff.1 hok
  obtain rfl := Except.ok.inj hok
  have hall := ((List.forall₂_and_left _ _).2
    ⟨fun p hp => hp, forall₂_of_mapM_eq_ok hps⟩ : List.Forall₂ (fun p q => p ∈ f.pieces ∧ _) _ _).imp
    (S := fun p q => p ∈ f.pieces ∧ q.LiesIn s ∧ (p.domain.Tidy → q.domain.Tidy) ∧
      q.value.valueAt = p.value.valueAt ∧ ∀ x, x ∈ q.domain ↔ x ∈ p.domain) fun p q ⟨hp, hq⟩ => by
      obtain ⟨dom, hdom, hq⟩ := bind_eq_ok_iff.1 hq
      obtain ⟨b, hb, hq⟩ := bind_eq_ok_iff.1 hq
      obtain rfl := Except.ok.inj hq
      obtain ⟨_, htotal, -⟩ := bind_eq_ok_iff.1 hdom
      obtain ⟨dom', hdom', hspace, hwf, ht, hmem⟩ := Relation.resetSpace_eq_ok
        (hf.maps.pieces p hp).domain hs (beq_iff_eq.1 (require_eq_ok_iff.1 htotal))
      obtain rfl := Except.ok.inj (hdom'.symm.trans hdom)
      refine ⟨hp, ⟨hwf, hspace ▸ s.agrees_refl, (hf.maps.pieces p hp).value.resetSpace hs hb⟩, ht, ?_,
        hmem⟩
      simp only [Affine.resetSpace, LocalSpace.resetSpace, bind_eq_ok_iff, require_eq_ok_iff,
        exists_const] at hb
      obtain ⟨ls, ⟨-, hls⟩, hb⟩ := hb
      obtain rfl := Except.ok.inj hls
      obtain rfl := Except.ok.inj hb
      rfl
  -- Points and values stay, only names change, so the value at a point is that of the same piece.
  have hmaps : Maps ⟨s, ps⟩ f.valueAt := by
    refine ⟨hs, forall_mem_of_forall₂ hall fun _ _ _ h => h.2.1,
      forall_mem_of_forall₂ hall fun p hp q h x hx => ?_, fun x hx => ?_⟩
    · rw [h.2.2.2.1]
      exact hf.maps.value p hp x ((h.2.2.2.2 x).1 hx)
    · refine hf.maps.undefined x fun p hp hxp => ?_
      obtain ⟨q, hq, h⟩ := exists_mem_of_forall₂ hall hp
      exact hx q hq ((h.2.2.2.2 x).2 hxp)
  exact hmaps.regular (forall_mem_of_forall₂ hall fun p hp q h => h.2.2.1 (hf.tidy p hp))

theorem Regular.resetSpace_eq_ok (hf : f.Regular) (hs : s.Proper)
    (ht : s.total = f.space.total) : ∃ g, f.resetSpace s = .ok g ∧ g.Over s f.valueAt := by
  obtain ⟨ps, hok, -⟩ := mapM_eq_ok (R := fun _ _ => True)
    (f := fun p : Piece => do
      return Piece.mk (← p.domain.resetSpace s) (← p.value.resetSpace s)) (l := f.pieces) fun p hp => by
      have hlies := hf.maps.pieces p hp
      obtain ⟨r, hr, -⟩ := Relation.resetSpace_eq_ok hlies.domain hs
        (ht.trans (Space.total_eq_of_agrees hlies.agrees hf.proper hlies.domain.proper))
      have hvalue : s.total = p.value.ls.space.total :=
        ht.trans (Space.total_eq_of_agrees hlies.value.agrees hf.proper hlies.value.proper)
      exact ⟨⟨r, p.value.relabel s⟩, by
        simp only [hr, Affine.resetSpace, LocalSpace.resetSpace, require, hvalue, beq_self_eq_true,
          if_true, bind, Except.bind, pure, Except.pure]
        rfl, trivial⟩
  have hok : f.resetSpace s = .ok ⟨s, ps⟩ := by
    rw [Piecewise.resetSpace, hok]
    rfl
  obtain ⟨hg, hv⟩ := hf.resetSpace hs hok
  exact ⟨_, hok, hg, rfl, hv⟩

end Sets

theorem Separate.valueAt_eq_total (hf : f.Separate) :
    f.valueAt = Value.total (f.pieces.map Piece.valueAt) := by
  -- Of pieces that lie apart one at most has a point.
  refine Maps.valueAt_eq ⟨hf.proper, hf.pieces, fun p hp x hx => ?_, fun x hx => ?_⟩
  · refine Value.total_eq_some (List.pairwise_map.2 (hf.apart.imp fun {p q} hpq => ?_))
      (List.mem_map_of_mem hp) (if_pos hx)
    by_cases hxp : x ∈ p.domain
    · exact .inr (if_neg (hpq x hxp))
    · exact .inl (if_neg hxp)
  · exact Value.total_eq_none (List.forall_mem_map.2 fun p hp => if_neg (hx p hp))

end Piecewise

end Quasiaffine
