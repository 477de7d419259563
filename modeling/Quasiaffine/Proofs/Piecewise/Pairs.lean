import Quasiaffine.Proofs.Piecewise.Apart

/-!
Combining the overlapping pieces of two functions keeps pieces apart: two pieces of the outcome
either come from one pair and cut its common set, or from two pairs, of which the first or the
second members lie apart.
-/

set_option autoImplicit false

namespace Quasiaffine.Piecewise

variable {f g h : Piecewise} {s : Space}

section Combine

theorem agrees_of_combine {make : Relation → Affine → Affine → Except Error (List Piece)}
    (hok : f.combine g make = .ok h) : f.space.agrees g.space = true ∧ h.space = f.space := by
  simp only [combine, bind_eq_ok_iff] at hok
  obtain ⟨_, hspace, pss, -, hok⟩ := hok
  obtain rfl := Except.ok.inj hok
  exact ⟨agrees_of_requireSameSpace hspace, space_insertAll _ _⟩

/-- Every piece of the one function lies in a piece of the other. -/
def Refines (h f : Piecewise) : Prop :=
  ∀ p ∈ h.pieces, ∃ q ∈ f.pieces, ∀ x ∈ p.domain, x ∈ q.domain

structure Cuts (s : Space) (shared : Relation) (ps : List Piece) : Prop where
  liesIn : ∀ p ∈ ps, p.LiesIn s
  subset : ∀ p ∈ ps, ∀ x ∈ p.domain, x ∈ shared
  apart : ps.Pairwise fun p q => Apart p.domain q.domain

theorem pairwise_pairs (hf : f.Separate) (hg : g.Separate) :
    (pairs f g).Pairwise fun a b => Apart a.1.domain b.1.domain ∨ Apart a.2.domain b.2.domain := by
  rw [pairs, List.pairwise_flatMap]
  refine ⟨fun p _ => List.pairwise_map.2 (hg.apart.imp .inr), hf.apart.imp fun hpq => ?_⟩
  intro a ha b hb
  obtain ⟨_, -, rfl⟩ := List.mem_map.1 ha
  obtain ⟨_, -, rfl⟩ := List.mem_map.1 hb
  exact .inl hpq

variable {make : Relation → Affine → Affine → Except Error (List Piece)}

theorem Separate.pieces_of_agrees (hg : g.Separate) (hs : f.space.agrees g.space = true) :
    ∀ q ∈ g.pieces, q.LiesIn f.space := fun q hq => (hg.pieces q hq).trans hs

theorem cuts_of_overlap (step : ∀ shared a b ps, shared.WellFormed →
      s.agrees shared.space = true → a.LiesIn s → b.LiesIn s → make shared a b = .ok ps →
        Cuts s shared ps) {pair : Piece × Piece} {ps : List Piece}
    (hp : pair.1.LiesIn s) (hq : pair.2.LiesIn s) (hok : overlap make pair = .ok ps) :
    (∀ p ∈ ps, p.LiesIn s ∧ ∀ x ∈ p.domain, x ∈ pair.1.domain ∧ x ∈ pair.2.domain) ∧
      ps.Pairwise fun p q => Apart p.domain q.domain := by
  obtain ⟨shared, hshared, hok⟩ := bind_eq_ok_iff.1 hok
  obtain ⟨hspace, hwf, hmem⟩ := hp.domain.intersect hq.domain hshared
  split at hok
  · obtain rfl := Except.ok.inj hok
    simp
  · have hcuts := step _ _ _ _ hwf (hspace ▸ hp.agrees) hp.value hq.value hok
    exact ⟨fun p hp => ⟨hcuts.liesIn p hp, fun x hx => (hmem x).1 (hcuts.subset p hp x hx)⟩,
      hcuts.apart⟩

/-- Cutting the common sets of all pairs gives pieces that lie apart. -/
theorem Separate.combine (hf : f.Separate) (hg : g.Separate)
    (step : ∀ shared a b ps, shared.WellFormed → f.space.agrees shared.space = true →
      a.LiesIn f.space → b.LiesIn f.space → make shared a b = .ok ps → Cuts f.space shared ps)
    (hok : f.combine g make = .ok h) : h.Separate ∧ h.Refines f ∧ h.Refines g := by
  have hs := (agrees_of_combine hok).1
  simp only [Piecewise.combine, bind_eq_ok_iff] at hok
  obtain ⟨-, -, pss, hpss, hok⟩ := hok
  obtain rfl := Except.ok.inj hok
  have hmembers : ∀ pair ∈ pairs f g, pair.1.LiesIn f.space ∧ pair.2.LiesIn f.space :=
    fun pair hpair => ⟨hf.pieces _ (mem_pairs_iff.1 hpair).1,
      hg.pieces_of_agrees hs _ (mem_pairs_iff.1 hpair).2⟩
  have hall : List.Forall₂ (fun pair ps =>
      (∀ p ∈ ps, p.LiesIn f.space ∧ ∀ x ∈ p.domain, x ∈ pair.1.domain ∧ x ∈ pair.2.domain) ∧
        ps.Pairwise fun p q => Apart p.domain q.domain) (pairs f g) pss :=
    ((List.forall₂_and_left _ _).2 ⟨hmembers, forall₂_of_mapM_eq_ok hpss⟩).imp
      fun _ _ h => cuts_of_overlap step h.1.1 h.1.2 h.2
  have hparts : ∀ p ∈ pss.flatten, p.LiesIn f.space ∧
      ∃ pair ∈ pairs f g, ∀ x ∈ p.domain, x ∈ pair.1.domain ∧ x ∈ pair.2.domain := by
    intro p hp
    obtain ⟨pair, hpair, ps, h, hp⟩ := exists_of_mem_flatten hall hp
    exact ⟨(h.1 p hp).1, pair, hpair, (h.1 p hp).2⟩
  have hmem : ∀ p ∈ ((empty f.space).insertAll pss.flatten).pieces, p ∈ pss.flatten :=
    fun p hp => ((mem_pieces_insertAll.1 hp).resolve_left (by simp [empty])).1
  -- Two pieces of one pair are cut apart; those of different pairs lie in sets that are apart
  -- already.
  refine ⟨separate_insertAll_empty _ hf.proper (fun p hp => (hparts p hp).1)
    (List.pairwise_flatten.2 ⟨?_, ?_⟩), fun p hp => ?_, fun p hp => ?_⟩
  · exact forall_mem_of_forall₂ hall fun _ _ _ h => h.2
  · refine pairwise_of_forall₂ hall (pairwise_pairs hf hg) fun a b ps qs hab ha hb p hp q hq => ?_
    intro x hx hx'
    have hxa := (ha.1 p hp).2 x hx
    have hxb := (hb.1 q hq).2 x hx'
    exact hab.elim (fun h => h x hxa.1 hxb.1) fun h => h x hxa.2 hxb.2
  · obtain ⟨-, pair, hpair, h⟩ := hparts p (hmem p hp)
    exact ⟨_, (mem_pairs_iff.1 hpair).1, fun x hx => (h x hx).1⟩
  · obtain ⟨-, pair, hpair, h⟩ := hparts p (hmem p hp)
    exact ⟨_, (mem_pairs_iff.1 hpair).2, fun x hx => (h x hx).2⟩

theorem cuts_single {shared : Relation} {a : Affine} (hwf : shared.WellFormed)
    (hs : s.agrees shared.space = true) (ha : a.LiesIn s) : Cuts s shared [⟨shared, a⟩] where
  liesIn := List.forall_mem_singleton.2 ⟨hwf, hs, ha⟩
  subset := List.forall_mem_singleton.2 fun _ hx => hx
  apart := List.pairwise_singleton _ _

theorem Separate.add (hf : f.Separate) (hg : g.Separate) (hok : f.add g = .ok h) :
    h.Separate ∧ h.Refines f ∧ h.Refines g := by
  refine hf.combine hg (fun shared a b ps hwf hs ha hb hps => ?_) hok
  obtain ⟨c, hc, hps⟩ := bind_eq_ok_iff.1 hps
  obtain rfl := Except.ok.inj hps
  obtain ⟨c', hc', hlies⟩ := ha.add_eq_ok hb
  obtain rfl := Except.ok.inj (hc'.symm.trans hc)
  exact cuts_single hwf hs hlies

theorem Separate.sub (hf : f.Separate) (hg : g.Separate) (hok : f.sub g = .ok h) : h.Separate := by
  refine (hf.combine hg (fun shared a b ps hwf hs ha hb hps => ?_) hok).1
  obtain ⟨c, hc, hps⟩ := bind_eq_ok_iff.1 hps
  obtain rfl := Except.ok.inj hps
  obtain ⟨c', hc', hlies⟩ := ha.sub_eq_ok hb
  obtain rfl := Except.ok.inj (hc'.symm.trans hc)
  exact cuts_single hwf hs hlies

/-- A comparison and its opposite cut the common set in two. -/
theorem Separate.choose {op : Comparison} (hf : f.Separate) (hg : g.Separate)
    (hok : f.choose g op = .ok h) : h.Separate := by
  refine (hf.combine hg (fun shared a b ps hwf hs ha hb hps => ?_) hok).1
  simp only [bind_eq_ok_iff] at hps
  obtain ⟨d, hd, r, hr, first, hfirst, r', hr', second, hsecond, hps⟩ := hps
  obtain rfl := Except.ok.inj hps
  obtain ⟨d', hd', hlies⟩ := ha.sub_eq_ok hb
  obtain rfl := Except.ok.inj (hd'.symm.trans hd)
  obtain ⟨t, t', ht, ht', htwf, htwf', hapart⟩ := hlies.compareZero_eq_ok op
  obtain rfl := Except.ok.inj (ht.symm.trans hr)
  obtain rfl := Except.ok.inj (ht'.symm.trans hr')
  obtain ⟨hspace₁, hwf₁, hmem₁⟩ := hwf.intersect htwf hfirst
  obtain ⟨hspace₂, hwf₂, hmem₂⟩ := hwf.intersect htwf' hsecond
  exact {
    liesIn := List.forall_mem_cons.2 ⟨⟨hwf₁, hspace₁ ▸ hs, ha⟩,
      List.forall_mem_singleton.2 ⟨hwf₂, hspace₂ ▸ hs, hb⟩⟩
    subset := List.forall_mem_cons.2 ⟨fun x hx => ((hmem₁ x).1 hx).1,
      List.forall_mem_singleton.2 fun x hx => ((hmem₂ x).1 hx).1⟩
    apart := List.pairwise_pair.2 fun x hx hx' =>
      hapart x ((hmem₁ x).1 hx).2 ((hmem₂ x).1 hx').2 }

theorem Separate.min (hf : f.Separate) (hg : g.Separate) (hok : f.min g = .ok h) : h.Separate :=
  hf.choose hg hok

theorem Separate.max (hf : f.Separate) (hg : g.Separate) (hok : f.max g = .ok h) : h.Separate :=
  hf.choose hg hok

theorem separate_of_foldList {op : Piecewise → Piecewise → Except Error Piecewise}
    {fs : List Piecewise} (hfs : ∀ f ∈ fs, f.Separate)
    (step : ∀ f g h : Piecewise, f.Separate → g.Separate → op f g = .ok h → h.Separate)
    (hok : foldList op fs = .ok h) : h.Separate := by
  cases fs with
  | nil => cases hok
  | cons f fs =>
    rw [List.forall_mem_cons] at hfs
    exact foldlM_induction (fun f g hg h hok hf => step f g h hf (hfs.2 g hg) hok) hfs.1 hok

theorem separate_of_minList {fs : List Piecewise} (hfs : ∀ f ∈ fs, f.Separate)
    (hok : minList fs = .ok h) : h.Separate :=
  separate_of_foldList hfs (fun _ _ _ hf hg => hf.min hg) hok

theorem separate_of_maxList {fs : List Piecewise} (hfs : ∀ f ∈ fs, f.Separate)
    (hok : maxList fs = .ok h) : h.Separate :=
  separate_of_foldList hfs (fun _ _ _ hf hg => hf.max hg) hok

end Combine

section Sets

variable {r₀ r : Relation} {ps : List Piece} {op : Comparison}

theorem mem_of_foldlM_union (found : Piece → Except Error Relation) (hr₀ : r₀.WellFormed)
    (hfound : ∀ p ∈ ps, ∀ c, found p = .ok c → c.WellFormed)
    (hok : ps.foldlM (fun r p => do r.union (← found p)) r₀ = .ok r) :
    r.WellFormed ∧ r.space = r₀.space ∧
      ∀ x, x ∈ r ↔ x ∈ r₀ ∨ ∃ p ∈ ps, ∃ c, found p = .ok c ∧ x ∈ c := by
  induction ps generalizing r₀ with
  | nil =>
    obtain rfl := Except.ok.inj hok
    simp [hr₀]
  | cons p ps ih =>
    rw [List.forall_mem_cons] at hfound
    rw [List.foldlM_cons, bind_eq_ok_iff] at hok
    obtain ⟨r₁, h₁, hok⟩ := hok
    obtain ⟨c, hc, h₁⟩ := bind_eq_ok_iff.1 h₁
    obtain ⟨hspace₁, hwf₁, hmem₁⟩ := hr₀.union (hfound.1 c hc) h₁
    obtain ⟨hwf, hspace, hmem⟩ := ih hwf₁ hfound.2 hok
    refine ⟨hwf, hspace.trans hspace₁, fun x => ?_⟩
    simp [hmem, hmem₁, hc, or_assoc]

theorem Separate.mem_domain (hf : f.Separate) (hok : f.domain = .ok r) :
    r.WellFormed ∧ ∀ x, x ∈ r ↔ ∃ p ∈ f.pieces, x ∈ p.domain := by
  obtain ⟨hwf, -, hmem⟩ := mem_of_foldlM_union (fun p => .ok p.domain)
    (Relation.wellFormed_empty hf.proper)
    (fun p hp c hc => Except.ok.inj hc ▸ (hf.pieces p hp).domain) hok
  refine ⟨hwf, fun x => ?_⟩
  simp [hmem, Relation.notMem_empty]

theorem Separate.mem_valueSet (hf : f.Separate) (hok : f.valueSet op = .ok r) :
    r.WellFormed ∧ ∀ x ∈ r, ∃ p ∈ f.pieces, x ∈ p.domain ∧
      ∃ c, p.value.compareZero op = .ok c ∧ x ∈ c := by
  have hfound : ∀ p ∈ f.pieces, ∀ c,
      (do p.domain.intersect (← p.value.compareZero op)) = Except.ok c → c.WellFormed ∧
        ∃ c', p.value.compareZero op = .ok c' ∧ ∀ x, x ∈ c ↔ x ∈ p.domain ∧ x ∈ c' := by
    intro p hp c hc
    obtain ⟨c', hc', hc⟩ := bind_eq_ok_iff.1 hc
    obtain ⟨t, -, ht, -, hwf, -⟩ := (hf.pieces p hp).value.compareZero_eq_ok op
    obtain rfl := Except.ok.inj (ht.symm.trans hc')
    obtain ⟨-, hwf', hmem⟩ := (hf.pieces p hp).domain.intersect hwf hc
    exact ⟨hwf', t, ht, hmem⟩
  obtain ⟨hwf, -, hmem⟩ := mem_of_foldlM_union
    (fun p => do p.domain.intersect (← p.value.compareZero op))
    (Relation.wellFormed_empty hf.proper) (fun p hp c hc => (hfound p hp c hc).1)
    (by simpa only [valueSet, bind_assoc] using hok)
  refine ⟨hwf, fun x hx => ?_⟩
  obtain ⟨p, hp, c, hc, hx⟩ := ((hmem x).1 hx).resolve_left (Relation.notMem_empty _)
  obtain ⟨-, c', hc', hmem'⟩ := hfound p hp c hc
  exact ⟨p, hp, ((hmem' x).1 hx).1, c', hc', ((hmem' x).1 hx).2⟩

theorem Separate.wellFormed_compareSet (hf : f.Separate) (hg : g.Separate)
    (hok : f.compareSet g op = .ok r) : r.WellFormed := by
  obtain ⟨_, hs, hok⟩ := bind_eq_ok_iff.1 hok
  have hs := agrees_of_requireSameSpace hs
  refine foldlM_induction (P := Relation.WellFormed) (fun set pair hpair set' hok' hset => ?_)
    (Relation.wellFormed_empty hf.proper) hok
  have hp := hf.pieces _ (mem_pairs_iff.1 hpair).1
  have hq := hg.pieces_of_agrees hs _ (mem_pairs_iff.1 hpair).2
  obtain ⟨shared, hshared, hok'⟩ := bind_eq_ok_iff.1 hok'
  obtain ⟨-, hwf, -⟩ := hp.domain.intersect hq.domain hshared
  split at hok'
  · exact Except.ok.inj hok' ▸ hset
  · simp only [bind_eq_ok_iff] at hok'
    obtain ⟨d, hd, holds, hholds, both, hboth, hok'⟩ := hok'
    obtain ⟨d', hd', hlies⟩ := hp.value.sub_eq_ok hq.value
    obtain rfl := Except.ok.inj (hd'.symm.trans hd)
    obtain ⟨t, -, ht, -, htwf, -⟩ := hlies.compareZero_eq_ok op
    obtain rfl := Except.ok.inj (ht.symm.trans hholds)
    exact (hset.union (hwf.intersect htwf hboth).2.1 hok').2.1

theorem wellFormed_of_compareListSet {fs gs : List Piecewise} (hfs : ∀ f ∈ fs, f.Separate)
    (hgs : ∀ g ∈ gs, g.Separate) (hok : compareListSet fs gs op = .ok r) : r.WellFormed := by
  simp only [compareListSet] at hok
  split at hok
  · cases hok
  · rename_i first hfirst
    have hmem : first ∈ fs ++ gs := List.mem_of_head? hfirst
    have hproper : first.space.Proper := by
      rcases List.mem_append.1 hmem with h | h
      · exact (hfs first h).proper
      · exact (hgs first h).proper
    refine foldlM_induction (P := Relation.WellFormed) (fun set pair hpair set' hok' hset => ?_)
      (Relation.wellFormed_full hproper) hok
    obtain ⟨f, hf, hpair⟩ := List.mem_flatMap.1 hpair
    obtain ⟨g, hg, rfl⟩ := List.mem_map.1 hpair
    obtain ⟨c, hc, hok'⟩ := bind_eq_ok_iff.1 hok'
    exact (hset.intersect ((hfs f hf).wellFormed_compareSet (hgs g hg) hc) hok').2.1

theorem Separate.eq_of_mem (hf : f.Separate) {p q : Piece} (hp : p ∈ f.pieces) (hq : q ∈ f.pieces)
    {x : Row} (hxp : x ∈ p.domain) (hxq : x ∈ q.domain) : p = q := by
  by_contra hne
  have hsymm : Std.Symm fun p q : Piece => Apart p.domain q.domain :=
    ⟨fun _ _ h x hx hx' => h x hx' hx⟩
  exact hf.apart.forall hp hq hne x hxp hxq

theorem Separate.apart_valueSet (hf : f.Separate) {r' : Relation} (hok : f.valueSet op = .ok r)
    (hok' : f.valueSet op.negate = .ok r') : Apart r r' := by
  intro x hx hx'
  obtain ⟨p, hp, hxp, c, hc, hxc⟩ := (hf.mem_valueSet hok).2 x hx
  obtain ⟨q, hq, hxq, c', hc', hxc'⟩ := (hf.mem_valueSet hok').2 x hx'
  obtain rfl := hf.eq_of_mem hp hq hxp hxq
  obtain ⟨t, t', ht, ht', -, -, hapart⟩ := (hf.pieces p hp).value.compareZero_eq_ok op
  obtain rfl := Except.ok.inj (ht.symm.trans hc)
  obtain rfl := Except.ok.inj (ht'.symm.trans hc')
  exact hapart x hxc hxc'

theorem Separate.cond {condition ifTrue ifFalse : Piecewise} (hc : condition.Separate)
    (ht : ifTrue.Separate) (hf : ifFalse.Separate)
    (hok : condition.cond ifTrue ifFalse = .ok f) : f.Separate := by
  simp only [Piecewise.cond, bind_eq_ok_iff] at hok
  obtain ⟨_, hs, _, -, nonZero, hnonZero, zero, hzero, taken, htaken, skipped, hskipped, hok⟩ := hok
  obtain rfl := Except.ok.inj hok
  have hs := agrees_of_requireSameSpace hs
  have hapart := hc.apart_valueSet hnonZero hzero
  obtain ⟨htaken, hspace, hin⟩ := ht.intersectDomain (hc.mem_valueSet hnonZero).1 htaken
  obtain ⟨hskipped, hspace', hin'⟩ := hf.intersectDomain (hc.mem_valueSet hzero).1 hskipped
  exact htaken.insertAll (hskipped.pieces_of_agrees (by rw [hspace, hspace', hs])) hskipped.apart
    fun p hp q hq x hx hx' => hapart x (hin p hp x hx) (hin' q hq x hx')

theorem Separate.select {set : Relation} {ifTrue ifFalse : Piecewise} (hset : set.WellFormed)
    (ht : ifTrue.Separate) (hf : ifFalse.Separate) (hok : select set ifTrue ifFalse = .ok f) :
    f.Separate := by
  obtain ⟨c, hc, hok⟩ := bind_eq_ok_iff.1 hok
  exact (separate_indicator hset hc).cond ht hf hok

end Sets

section UnionAdd

/-- A sum without pieces shows that no two pieces overlap: all their common sets were found
empty. -/
theorem Separate.apart_of_add (hf : f.Separate) (hg : g.Separate) (hok : f.add g = .ok h)
    (hempty : h.isEmpty = true) : ∀ p ∈ f.pieces, ∀ q ∈ g.pieces, Apart p.domain q.domain := by
  intro p hp q hq x hxp hxq
  have hs := (agrees_of_combine hok).1
  simp only [Piecewise.add, Piecewise.combine, bind_eq_ok_iff] at hok
  obtain ⟨-, -, pss, hpss, hok⟩ := hok
  obtain rfl := Except.ok.inj hok
  have hpq : (p, q) ∈ pairs f g := mem_pairs_iff.2 ⟨hp, hq⟩
  obtain ⟨ps, hpair, hsub⟩ := exists_subset_flatten (forall₂_of_mapM_eq_ok hpss) hpq
  obtain ⟨shared, hshared, hpair⟩ := bind_eq_ok_iff.1 hpair
  obtain ⟨-, -, hmem⟩ := (hf.pieces p hp).domain.intersect (hg.pieces q hq).domain hshared
  have hx : x ∈ shared := (hmem x).2 ⟨hxp, hxq⟩
  split at hpair
  · rename_i hsh
    exact notMem_of_isObviouslyEmpty hsh hx
  · rename_i hsh
    obtain ⟨c, -, hpair⟩ := bind_eq_ok_iff.1 hpair
    obtain rfl := Except.ok.inj hpair
    have : (⟨shared, c⟩ : Piece) ∈ ((empty f.space).insertAll pss.flatten).pieces :=
      mem_pieces_insertAll.2 (.inr ⟨hsub (List.mem_singleton_self _), Bool.not_eq_true _ ▸ hsh⟩)
    rw [isEmpty, List.isEmpty_iff] at hempty
    rw [hempty] at this
    cases this

theorem Separate.piecesOutside {set : Relation} {ps : List Piece} (hf : f.Separate)
    (hset : set.WellFormed) (hok : f.piecesOutside set = .ok ps) :
    (∀ q ∈ ps, q.LiesIn f.space) ∧ (ps.Pairwise fun p q => Apart p.domain q.domain) ∧
      ∀ q ∈ ps, ∃ p ∈ f.pieces, ∀ x ∈ q.domain, x ∈ p.domain ∧ x ∉ set := by
  have hstep : ∀ p q : Piece, p.LiesIn f.space →
      (do return { p with domain := ← p.domain.subtract set }) = Except.ok (ε := Error) q →
        q.LiesIn f.space ∧ ∀ x ∈ q.domain, x ∈ p.domain ∧ x ∉ set := by
    intro p q hp hq
    obtain ⟨dom, hdom, hq⟩ := bind_eq_ok_iff.1 hq
    obtain rfl := Except.ok.inj hq
    obtain ⟨hspace, hwf, hmem⟩ := hp.domain.subtract hset hdom
    exact ⟨⟨hwf, hspace ▸ hp.agrees, hp.value⟩, hmem⟩
  obtain ⟨hpieces, hapart⟩ := hf.mapM (s := f.space) (fun p q hp hq =>
    ⟨(hstep p q hp hq).1, fun x hx => ((hstep p q hp hq).2 x hx).1⟩) hok
  refine ⟨hpieces, hapart, fun q hq => ?_⟩
  obtain ⟨p, hp, hpq⟩ := exists_mem_of_forall₂_right (forall₂_of_mapM_eq_ok hok) hq
  exact ⟨p, hp, (hstep p q (hf.pieces p hp) hpq).2⟩

section UnitedSum

variable {both : Piecewise} {ps psF psG : List Piece} {domF domG : Relation}

theorem Separate.insertAll_renamed (hf : f.Separate) (hg : g.Separate)
    (hboth : f.add g = .ok both) (hempty : both.isEmpty = true)
    (hps : (g.pieces.mapM fun p => do
      return { p with domain := ← p.domain.resetSpace f.space }) = .ok ps) :
    (f.insertAll ps).Separate := by
  have hs := (agrees_of_combine hboth).1
  have hstep : ∀ p q : Piece, p.LiesIn g.space →
      (do return { p with domain := ← p.domain.resetSpace f.space }) = Except.ok (ε := Error) q →
        q.LiesIn f.space ∧ ∀ x ∈ q.domain, x ∈ p.domain := by
    intro p q hp hq
    obtain ⟨dom, hdom, hq⟩ := bind_eq_ok_iff.1 hq
    obtain rfl := Except.ok.inj hq
    obtain ⟨hspace, hwf, hmem⟩ := hp.domain.resetSpace hf.proper hdom
    exact ⟨⟨hwf, hspace ▸ f.space.agrees_refl, hp.value.trans hs⟩, fun x => (hmem x).1⟩
  obtain ⟨hlies, hapart⟩ := hg.mapM hstep hps
  refine hf.insertAll hlies hapart fun p hp q hq x hxp hxq => ?_
  obtain ⟨q', hq', hqq'⟩ := exists_mem_of_forall₂_right (forall₂_of_mapM_eq_ok hps) hq
  exact hf.apart_of_add hg hboth hempty p hp q' hq' x hxp
    ((hstep q' q (hg.pieces q' hq') hqq').2 x hxq)

theorem Separate.insertAll_outside (hf : f.Separate) (hg : g.Separate)
    (hboth : f.add g = .ok both) (hdomF : f.domain = .ok domF) (hdomG : g.domain = .ok domG)
    (hpsF : f.piecesOutside domG = .ok psF) (hpsG : g.piecesOutside domF = .ok psG) :
    ((both.insertAll psF).insertAll psG).Separate := by
  obtain ⟨hwfF, hmemF⟩ := hf.mem_domain hdomF
  obtain ⟨hwfG, hmemG⟩ := hg.mem_domain hdomG
  obtain ⟨hliesF, hapartF, houtF⟩ := hf.piecesOutside hwfG hpsF
  obtain ⟨hliesG, hapartG, houtG⟩ := hg.piecesOutside hwfF hpsG
  obtain ⟨hsep, hrefF, hrefG⟩ := hf.add hg hboth
  obtain ⟨hs, hspace⟩ := agrees_of_combine hboth
  have hsum : (both.insertAll psF).Separate := by
    refine hsep.insertAll (fun q hq => hspace ▸ hliesF q hq) hapartF fun p hp q hq x hxp hxq => ?_
    obtain ⟨p', hp', hpp'⟩ := hrefG p hp
    obtain ⟨q', hq', hqq'⟩ := houtF q hq
    exact (hqq' x hxq).2 ((hmemG x).2 ⟨p', hp', hpp' x hxp⟩)
  have hspace' : (both.insertAll psF).space = f.space := (space_insertAll _ _).trans hspace
  refine hsum.insertAll (fun q hq => ?_) hapartG fun p hp q hq x hxp hxq => ?_
  · have hq := hliesG q hq
    exact hspace' ▸ hq.trans hs
  · -- Whatever was put together so far lies where `f` is defined.
    obtain ⟨q', hq', hqq'⟩ := houtG q hq
    refine (hqq' x hxq).2 ((hmemF x).2 ?_)
    rcases mem_pieces_insertAll.1 hp with hp | ⟨hp, -⟩
    · obtain ⟨p', hp', hpp'⟩ := hrefF p hp
      exact ⟨p', hp', hpp' x hxp⟩
    · obtain ⟨p', hp', hpp'⟩ := houtF p hp
      exact ⟨p', hp', (hpp' x hxp).1⟩

/-- Either no pieces overlap, or what both functions have in common is summed and both are cut
back to where the other one is not defined. -/
theorem Separate.unionAdd (hf : f.Separate) (hg : g.Separate) (hok : f.unionAdd g = .ok h) :
    h.Separate := by
  simp only [Piecewise.unionAdd, bind_eq_ok_iff] at hok
  obtain ⟨-, -, both, hboth, hok⟩ := hok
  split at hok
  · rename_i hempty
    obtain ⟨ps, hps, hok⟩ := bind_eq_ok_iff.1 hok
    obtain rfl := Except.ok.inj hok
    exact hf.insertAll_renamed hg hboth hempty hps
  · simp only [bind_eq_ok_iff] at hok
    obtain ⟨domF, hdomF, domG, hdomG, psF, hpsF, psG, hpsG, hok⟩ := hok
    obtain rfl := Except.ok.inj hok
    exact hf.insertAll_outside hg hboth hdomF hdomG hpsF hpsG

end UnitedSum

end UnionAdd

end Quasiaffine.Piecewise
