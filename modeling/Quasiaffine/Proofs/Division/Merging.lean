import Quasiaffine.Proofs.Division.Interleaving
import Quasiaffine.Proofs.Division.Sorting
import Quasiaffine.Proofs.Space

set_option autoImplicit false

namespace Quasiaffine

/-- The list `m` holds the divisions of `a` and of `b`, in their order, and no others. -/
structure IsMerge (w : Nat) (a b m : List Row) (e f : List Nat) : Prop where
  triangular : Triangular w m.length m
  left : Embeds w m.length a m e
  right : Embeds w m.length b m f
  left_increasing : e.Pairwise (· < ·)
  right_increasing : f.Pairwise (· < ·)
  covers : ∀ k < m.length, k ∈ e ∨ k ∈ f
  shared : ∀ k ∈ e, k ∈ f → ∀ r : Row, m[k]? = some r → Division.isKnown r = true

namespace IsMerge

variable {w : Nat} {a b m : List Row} {e f : List Nat}

theorem symm (h : IsMerge w a b m e f) : IsMerge w b a m f e :=
  ⟨h.triangular, h.right, h.left, h.right_increasing, h.left_increasing,
    fun k hk => (h.covers k hk).symm, fun k hf he => h.shared k he hf⟩

theorem nil_right (ha : Triangular w a.length a) : IsMerge w a [] a (List.range a.length) [] :=
  ⟨ha, .refl ha.length_row, .nil w _ a, List.pairwise_lt_range, .nil,
    fun _ hk => .inl (List.mem_range.2 hk), by simp⟩

theorem self (ha : Triangular w a.length a) (hk : ∀ r ∈ a, Division.isKnown r = true) :
    IsMerge w a a a (List.range a.length) (List.range a.length) :=
  ⟨ha, .refl ha.length_row, .refl ha.length_row, List.pairwise_lt_range, List.pairwise_lt_range,
    fun _ hk => .inl (List.mem_range.2 hk), fun _ _ _ r hr => hk r (List.mem_of_getElem? hr)⟩

theorem exists_denominator (h : IsMerge w a b m e f) (hw : 0 < w) (ha : Triangular w a.length a)
    (hb : Triangular w b.length b) {r : Row} (hr : r ∈ m) :
    ∃ s, (s ∈ a ∨ s ∈ b) ∧ r.entry 0 = s.entry 0 := by
  obtain ⟨k, hk⟩ := List.mem_iff_getElem?.1 hr
  rcases h.covers k (List.getElem?_eq_some_iff.1 hk).1 with hke | hkf
  · obtain ⟨i, hi⟩ := List.mem_iff_getElem?.1 hke
    have hs := List.getElem?_eq_getElem (h.left.getElem?_lt hi)
    exact ⟨_, .inl (List.mem_of_getElem? hs),
      h.left.entry_of_lt (fun _ => ha.le_length) hs hi hk hw⟩
  · obtain ⟨j, hj⟩ := List.mem_iff_getElem?.1 hkf
    have hs := List.getElem?_eq_getElem (h.right.getElem?_lt hj)
    exact ⟨_, .inr (List.mem_of_getElem? hs),
      h.right.entry_of_lt (fun _ => hb.le_length) hs hj hk hw⟩

theorem isKnown (h : IsMerge w a b m e f) (hw : 0 < w) (ha : Triangular w a.length a)
    (hb : Triangular w b.length b) (hka : ∀ r ∈ a, Division.isKnown r = true)
    (hkb : ∀ r ∈ b, Division.isKnown r = true) : ∀ r ∈ m, Division.isKnown r = true := by
  intro r hr
  obtain ⟨s, hs, heq⟩ := h.exists_denominator hw ha hb hr
  rw [Division.isKnown_iff, heq, ← Division.isKnown_iff]
  exact hs.elim (hka s) (hkb s)

end IsMerge

theorem Matrix.mergeDivs_spec {w : Nat} {a b : Matrix} (hw : 0 < w)
    (hac : a.columns = w + a.rows.length) (ha : Triangular w a.rows.length a.rows)
    (hb : Triangular w b.rows.length b.rows) :
    IsMerge w a.rows b.rows (a.mergeDivs b).matrix.rows (a.mergeDivs b).left
        (a.mergeDivs b).right ∧
      (a.mergeDivs b).matrix.columns = w + (a.mergeDivs b).matrix.rows.length := by
  have hwidth : a.columns - a.height = w := by
    rw [Matrix.height]
    omega
  unfold mergeDivs
  simp only [hwidth]
  have hn : a.rows.length + b.rows.length ≤ a.height + b.height := Nat.le_refl _
  have h := (Merging.empty w _).extend ha hb hn a.rows b.rows _ rfl rfl
  generalize MergedRows.extend w (a.height + b.height) a.rows b.rows ⟨[], [], []⟩ = m at h ⊢
  have hm : m.rows.length ≤ a.height + b.height := h.count_le
  refine ⟨⟨?_, ?_, ?_, h.left_increasing, h.right_increasing, ?_, ?_⟩, ?_⟩
  · rw [List.length_map]
    exact h.triangular.map_take hm
  · rw [List.length_map]
    exact h.left.map_take hm fun _ => ha.le_length
  · rw [List.length_map]
    exact h.right.map_take hm fun _ => hb.le_length
  · intro k hk
    rw [List.length_map] at hk
    exact h.covers k hk
  · intro k he hf r hr
    rw [List.getElem?_map, Option.map_eq_some_iff] at hr
    obtain ⟨s, hs, rfl⟩ := hr
    rw [Division.isKnown_iff, Row.entry_take, if_pos, ← Division.isKnown_iff]
    · exact h.shared k he hf s hs
    · omega
  · rw [List.length_map]
    rfl

theorem Canonical.ordered {w : Nat} {m : List Row} (h : Canonical w m)
    (hk : ∀ r ∈ m, Division.isKnown r = true) : Ordered False w m := by
  refine ⟨h.triangular, fun r hr hu => ?_, ?_⟩
  · rw [hk r hr] at hu
    cases hu
  · rw [Division.markAll_of_known hk]
    exact h.sorted.imp Division.precedes_false.2

/-- Merging lists in canonical order keeps the order. -/
theorem Matrix.canonical_mergeDivs {w : Nat} {a b : Matrix} (hw : 0 < w)
    (hac : a.columns = w + a.rows.length) (ha : Canonical w a.rows) (hb : Canonical w b.rows)
    (hka : ∀ r ∈ a.rows, Division.isKnown r = true)
    (hkb : ∀ r ∈ b.rows, Division.isKnown r = true) :
    Canonical w (a.mergeDivs b).matrix.rows := by
  obtain ⟨hmerge, -⟩ := mergeDivs_spec hw hac ha.triangular hb.triangular
  have hordered := ordered_mergeDivs hw hac (ha.ordered hka) (hb.ordered hkb)
    (decides_of_known hka hkb)
  rw [Division.markAll_of_known
    (hmerge.isKnown hw ha.triangular hb.triangular hka hkb)] at hordered
  exact ⟨hmerge.triangular, hordered.imp Division.precedes_false.1⟩

namespace LocalSpace

theorem merge_eq_ok {a b : LocalSpace} (ha : a.WellFormed) (hb : b.WellFormed)
    (hs : a.space.agrees b.space = true) (ht : a.space.total = b.space.total) :
    ∃ merged, a.merge b = .ok merged ∧ merged.ls.space = a.space ∧ merged.ls.WellFormed ∧
      IsMerge (2 + a.space.total) a.divs.rows b.divs.rows merged.ls.divs.rows merged.left
        merged.right ∧
      (Canonical (2 + a.space.total) a.divs.rows → Canonical (2 + a.space.total) b.divs.rows →
        a.allKnown = true → b.allKnown = true →
        Canonical (2 + a.space.total) merged.ls.divs.rows) := by
  have hat := ha.triangular
  have hbt := hb.triangular
  rw [← ht] at hbt
  have hac : a.divs.columns = 2 + a.space.total + a.divs.rows.length := ha.columns
  have hbc : b.divs.columns = 2 + b.space.total + b.divs.rows.length := hb.columns
  rw [merge, hs]
  by_cases hb0 : b.divCount = 0
  · have hnil : b.divs.rows = [] := List.eq_nil_of_length_eq_zero hb0
    refine ⟨⟨a, List.range a.divCount, []⟩, by simp [hb0, require, bind, Except.bind]; rfl,
      rfl, ha, ?_, fun h _ _ _ => h⟩
    rw [hnil]
    exact .nil_right hat
  by_cases ha0 : a.divCount = 0
  · have hnil : a.divs.rows = [] := List.eq_nil_of_length_eq_zero ha0
    refine ⟨⟨{ a with divs := b.divs }, [], List.range b.divCount⟩,
      by simp [ha0, hb0, require, bind, Except.bind]; rfl, rfl, ?_, ?_, fun _ h _ _ => h⟩
    · exact (wellFormed_iff _).2 ⟨ht ▸ hbc, hbt⟩
    · rw [hnil]
      exact (IsMerge.nil_right hbt).symm
  · obtain ⟨hmerge, hcols⟩ := Matrix.mergeDivs_spec (by omega) hac hat hbt
    refine ⟨⟨{ a with divs := (a.divs.mergeDivs b.divs).matrix }, (a.divs.mergeDivs b.divs).left,
      (a.divs.mergeDivs b.divs).right⟩, by simp [ha0, hb0, require, bind, Except.bind]; rfl, rfl,
      ?_, hmerge, ?_⟩
    · exact (wellFormed_iff _).2 ⟨hcols, hmerge.triangular⟩
    · intro hca hcb hka hkb
      exact Matrix.canonical_mergeDivs (by omega) hac hca hcb (List.all_eq_true.1 hka)
        (List.all_eq_true.1 hkb)

structure IsCanonical (ls : LocalSpace) : Prop where
  wellFormed : ls.WellFormed
  proper : ls.space.Proper
  known : ls.allKnown = true
  unmoved : ls.sortDivs.swaps = []
  distinct : ls.divs.rows.Nodup

/-- A local space over `w - 2` dimensions that is, or is merged from, canonical ones. -/
structure Mergeable (w : Nat) (ls : LocalSpace) : Prop where
  wellFormed : ls.WellFormed
  total : 2 + ls.space.total = w
  known : ls.allKnown = true
  canonical : Canonical w ls.divs.rows

theorem IsCanonical.mergeable {a b : LocalSpace} (ha : a.IsCanonical) (hb : b.IsCanonical)
    (hs : a.space.agrees b.space = true) : Mergeable (2 + a.space.total) b := by
  have ht := Space.total_eq_of_agrees hs ha.proper hb.proper
  refine ⟨hb.wellFormed, by rw [ht], hb.known, ?_⟩
  rw [ht]
  exact canonical_of_sortDivs hb.wellFormed hb.known hb.unmoved hb.distinct

namespace Mergeable

variable {w : Nat} {a b c : LocalSpace}

theorem le_length (h : Mergeable w a) : ∀ r ∈ a.divs.rows, w ≤ r.length :=
  fun _ => h.canonical.triangular.le_length

theorem merge (ha : Mergeable w a) (hb : Mergeable w b) (hs : a.space.agrees b.space = true) :
    ∃ merged, a.merge b = .ok merged ∧ merged.ls.space = a.space ∧ Mergeable w merged.ls ∧
      IsMerge w a.divs.rows b.divs.rows merged.ls.divs.rows merged.left merged.right := by
  have hat := ha.total
  have hbt := hb.total
  obtain ⟨merged, hok, hspace, hwf, hmerge, hcanonical⟩ :=
    merge_eq_ok ha.wellFormed hb.wellFormed hs (by omega)
  rw [hat] at hmerge hcanonical
  have hknown := hmerge.isKnown (by omega) ha.canonical.triangular hb.canonical.triangular
    (List.all_eq_true.1 ha.known) (List.all_eq_true.1 hb.known)
  exact ⟨merged, hok, hspace, ⟨hwf, hspace ▸ hat, List.all_eq_true.2 hknown,
    hcanonical ha.canonical hb.canonical ha.known hb.known⟩, hmerge⟩

theorem divs_eq (ha : Mergeable w a) (hb : Mergeable w b) (h : a.divs.rows = b.divs.rows) :
    a.divs = b.divs := by
  have hac := ha.wellFormed.columns
  have hbc := hb.wellFormed.columns
  rw [Matrix.height, ha.total, h] at hac
  rw [Matrix.height, hb.total] at hbc
  cases hda : a.divs
  cases hdb : b.divs
  simp_all

end Mergeable

end LocalSpace

section Amalgam

variable {w : Nat} {a b c ab bc m m' : List Row} {e e' f f' g g' h h' : List Nat}

theorem IsMerge.unique (hm : IsMerge w a b m e f) (hm' : IsMerge w a b m' e' f')
    (hc : Canonical w m) (hc' : Canonical w m') (ha : ∀ r ∈ a, w ≤ r.length)
    (hb : ∀ r ∈ b, w ≤ r.length) : m = m' ∧ e = e' ∧ f = f' := by
  let operand : Bool → List Row := fun s => if s then a else b
  let index : Bool → List Nat := fun s => if s then e else f
  let index' : Bool → List Nat := fun s => if s then e' else f'
  have hwide : ∀ s, ∀ r ∈ operand s, w ≤ r.length := fun s => by cases s <;> assumption
  have he : ∀ s, Embeds w m.length (operand s) m (index s) := fun
    | true => hm.left
    | false => hm.right
  have he' : ∀ s, Embeds w m'.length (operand s) m' (index' s) := fun
    | true => hm'.left
    | false => hm'.right
  have cover : Covers m index := fun k hk =>
    (hm.covers k hk).elim (fun h => ⟨true, h⟩) fun h => ⟨false, h⟩
  have cover' : Covers m' index' := fun k hk =>
    (hm'.covers k hk).elim (fun h => ⟨true, h⟩) fun h => ⟨false, h⟩
  have hindex := hc.embedding_unique hc' hwide he he' cover cover'
  exact ⟨hc.unique hc' hwide he he' cover cover', congrFun hindex true, congrFun hindex false⟩

theorem IsMerge.covers_merge (hab : IsMerge w a b ab e f) (hm : IsMerge w ab c m g h) {k : Nat}
    (hk : k < m.length) :
    k ∈ e.map (g.getD · 0) ∨ k ∈ f.map (g.getD · 0) ∨ k ∈ h := by
  rcases hm.covers k hk with hkg | hkh
  · obtain ⟨j, hj⟩ := List.mem_iff_getElem?.1 hkg
    have hjk : g.getD j 0 = k := by simp [List.getD_eq_getElem?_getD, hj]
    rcases hab.covers j (hm.left.getElem?_lt hj) with hje | hjf
    · exact .inl (List.mem_map.2 ⟨j, hje, hjk⟩)
    · exact .inr (.inl (List.mem_map.2 ⟨j, hjf, hjk⟩))
  · exact .inr (.inr hkh)

/-- Merging three lists from the left and from the right gives the same canonical list. -/
theorem IsMerge.unique_assoc (hab : IsMerge w a b ab e f) (hm : IsMerge w ab c m g h)
    (hbc : IsMerge w b c bc e' f') (hm' : IsMerge w a bc m' g' h') (hc : Canonical w m)
    (hc' : Canonical w m') (ha : ∀ r ∈ a, w ≤ r.length) (hb : ∀ r ∈ b, w ≤ r.length)
    (hcw : ∀ r ∈ c, w ≤ r.length) : m = m' := by
  let operand : Fin 3 → List Row := fun | 0 => a | 1 => b | 2 => c
  let index : Fin 3 → List Nat := fun
    | 0 => e.map (g.getD · 0)
    | 1 => f.map (g.getD · 0)
    | 2 => h
  let index' : Fin 3 → List Nat := fun
    | 0 => g'
    | 1 => e'.map (h'.getD · 0)
    | 2 => f'.map (h'.getD · 0)
  have hwide : ∀ s, ∀ r ∈ operand s, w ≤ r.length := fun | 0 => ha | 1 => hb | 2 => hcw
  have he : ∀ s, Embeds w m.length (operand s) m (index s) := fun
    | 0 => hab.left.trans hm.left ha (Nat.le_refl _)
    | 1 => hab.right.trans hm.left hb (Nat.le_refl _)
    | 2 => hm.right
  have he' : ∀ s, Embeds w m'.length (operand s) m' (index' s) := fun
    | 0 => hm'.left
    | 1 => hbc.left.trans hm'.right hb (Nat.le_refl _)
    | 2 => hbc.right.trans hm'.right hcw (Nat.le_refl _)
  have cover : Covers m index := by
    intro k hk
    rcases hab.covers_merge hm hk with h | h | h
    · exact ⟨0, h⟩
    · exact ⟨1, h⟩
    · exact ⟨2, h⟩
  have cover' : Covers m' index' := by
    intro k hk
    rcases hbc.covers_merge hm'.symm hk with h | h | h
    · exact ⟨1, h⟩
    · exact ⟨2, h⟩
    · exact ⟨0, h⟩
  exact hc.unique hc' hwide he he' cover cover'

/-- Two divisions of the operands become one just if they are equal over the merged divisions. -/
theorem IsMerge.index_eq_iff (hm : IsMerge w a b m e f) (hc : Canonical w m) {i j : Nat} {r s : Row}
    (hr : a[i]? = some r) (hs : b[j]? = some s) :
    e[i]? = f[j]? ↔ r.expand w e m.length = s.expand w f m.length := by
  obtain ⟨k, hk⟩ := hm.left.exists_index (List.getElem?_eq_some_iff.1 hr).1
  obtain ⟨l, hl⟩ := hm.right.exists_index (List.getElem?_eq_some_iff.1 hs).1
  have hkr := hm.left.row i r k hr hk
  have hls := hm.right.row j s l hs hl
  rw [hk, hl, Option.some.injEq]
  constructor
  · rintro rfl
    exact Option.some.inj (hkr.symm.trans hls)
  · intro heq
    rw [heq, ← hls] at hkr
    exact (List.getElem?_inj (hm.left.lt k (List.mem_of_getElem? hk)) hc.nodup).1 hkr

end Amalgam

namespace LocalSpace

/-- Merging is commutative, associative and idempotent on canonical local spaces, and it makes two
divisions one just if they have the same definition over the merged divisions. -/
theorem merge_semilattice (a b c : LocalSpace) (ha : a.IsCanonical) (hb : b.IsCanonical)
    (hc : c.IsCanonical) (hab : a.space.agrees b.space = true)
    (hbc : b.space.agrees c.space = true) :
    ∃ ab ba bc ab_c a_bc : MergedSpace,
      a.merge b = .ok ab ∧ b.merge a = .ok ba ∧ b.merge c = .ok bc ∧
      ab.ls.merge c = .ok ab_c ∧ a.merge bc.ls = .ok a_bc ∧
      (ab.ls.divs = ba.ls.divs ∧ ab.left = ba.right ∧ ab.right = ba.left) ∧
      ab_c.ls.divs = a_bc.ls.divs ∧
      a.merge a = .ok ⟨a, List.range a.divCount, List.range a.divCount⟩ ∧
      (∀ i < a.divCount, ∀ j < b.divCount, ab.left[i]? = ab.right[j]? ↔
        (a.divs.row i).expand (2 + a.space.total) ab.left ab.ls.divCount =
          (b.divs.row j).expand (2 + a.space.total) ab.right ab.ls.divCount) ∧
      ab.ls.divs.rows.Nodup := by
  have hac := Space.agrees_trans hab hbc
  have hma := ha.mergeable ha (Space.agrees_refl _)
  have hmb := ha.mergeable hb hab
  have hmc := ha.mergeable hc hac
  obtain ⟨ab, hab_ok, hab_space, hmab, hab_merge⟩ := hma.merge hmb hab
  obtain ⟨ba, hba_ok, -, hmba, hba_merge⟩ := hmb.merge hma (Space.agrees_symm hab)
  obtain ⟨bc, hbc_ok, hbc_space, hmbc, hbc_merge⟩ := hmb.merge hmc hbc
  obtain ⟨ab_c, hab_c_ok, -, hmab_c, hab_c_merge⟩ := hmab.merge hmc (hab_space ▸ hac)
  obtain ⟨a_bc, ha_bc_ok, -, hma_bc, ha_bc_merge⟩ := hma.merge hmbc (hbc_space ▸ hab)
  obtain ⟨aa, haa_ok, haa_space, hmaa, haa_merge⟩ := hma.merge hma (Space.agrees_refl _)
  refine ⟨ab, ba, bc, ab_c, a_bc, hab_ok, hba_ok, hbc_ok, hab_c_ok, ha_bc_ok, ?_, ?_, ?_, ?_, ?_⟩
  · obtain ⟨hrows, hl, hr⟩ := hab_merge.unique hba_merge.symm hmab.canonical hmba.canonical
      hma.le_length hmb.le_length
    exact ⟨hmab.divs_eq hmba hrows, hl, hr⟩
  · exact hmab_c.divs_eq hma_bc (hab_merge.unique_assoc hab_c_merge hbc_merge ha_bc_merge
      hmab_c.canonical hma_bc.canonical hma.le_length hmb.le_length hmc.le_length)
  · have hself := IsMerge.self hma.canonical.triangular (List.all_eq_true.1 hma.known)
    obtain ⟨hrows, hl, hr⟩ := haa_merge.unique hself hmaa.canonical hma.canonical hma.le_length
      hma.le_length
    have hls : aa.ls = a := by
      have hdivs := hmaa.divs_eq hma hrows
      cases hls : aa.ls
      simp_all
    cases aa
    simp_all [divCount, Matrix.height]
  · intro i hi j hj
    have hri : a.divs.rows[i]? = some (a.divs.row i) := by
      simp [Matrix.row, List.getD_eq_getElem?_getD, List.getElem?_eq_getElem hi]
    have hsj : b.divs.rows[j]? = some (b.divs.row j) := by
      simp [Matrix.row, List.getD_eq_getElem?_getD, List.getElem?_eq_getElem hj]
    exact hab_merge.index_eq_iff hmab.canonical hri hsj
  · exact hmab.canonical.nodup

def overOneVariable (rows : List Row) : LocalSpace :=
  ⟨.anonymousSet 0 1, ⟨3 + rows.length, rows⟩⟩

theorem wellFormed_overOneVariable {rows : List Row} (hw : ∀ r ∈ rows, r.length = 3 + rows.length)
    (ho : ∀ k < rows.length, Row.isZero ((rows.getD k []).drop (3 + k)) = true) :
    (overOneVariable rows).WellFormed :=
  wellFormed_of_forall_lt rfl hw ho

theorem isCanonical_overOneVariable {rows : List Row} (hw : ∀ r ∈ rows, r.length = 3 + rows.length)
    (ho : ∀ k < rows.length, Row.isZero ((rows.getD k []).drop (3 + k)) = true)
    (hk : (overOneVariable rows).allKnown = true)
    (hs : (overOneVariable rows).sortDivs.swaps = []) (hd : rows.Nodup) :
    (overOneVariable rows).IsCanonical :=
  ⟨wellFormed_overOneVariable hw ho, fun _ => rfl, hk, hs, hd⟩

/-- `⌊x/2⌋` and `⌊(x + ⌊x/2⌋)/3⌋` on the left, `⌊x/2⌋`, `⌊x/5⌋` and `⌊(x + ⌊x/2⌋)/3⌋` on the
right: the nested divisions meet although `⌊x/5⌋` stands before one of them. -/
theorem merge_semilattice_nestedFloors :
    let a := overOneVariable [[2, 0, 1, 0, 0], [3, 0, 1, 1, 0]]
    let b := overOneVariable [[2, 0, 1, 0, 0, 0], [5, 0, 1, 0, 0, 0], [3, 0, 1, 1, 0, 0]]
    let c := overOneVariable [[7, 1, 1, 0]]
    a.IsCanonical ∧ b.IsCanonical ∧ c.IsCanonical ∧ a.space.agrees b.space = true ∧
      b.space.agrees c.space = true ∧
      ∃ ab ba, a.merge b = .ok ab ∧ b.merge a = .ok ba ∧ ab.ls.divs = ba.ls.divs ∧
        ab.left = ba.right ∧ ab.right = ba.left ∧ ab.ls.divs.rows.Nodup := by
  intro a b c
  have ha : a.IsCanonical := isCanonical_overOneVariable (by decide) (by decide) (by decide)
    (by decide) (by decide)
  have hb : b.IsCanonical := isCanonical_overOneVariable (by decide) (by decide) (by decide)
    (by decide) (by decide)
  have hc : c.IsCanonical := isCanonical_overOneVariable (by decide) (by decide) (by decide)
    (by decide) (by decide)
  obtain ⟨ab, ba, -, -, -, hab, hba, -, -, -, ⟨hdivs, hl, hr⟩, -, -, -, hd⟩ :=
    merge_semilattice a b c ha hb hc rfl rfl
  exact ⟨ha, hb, hc, rfl, rfl, ab, ba, hab, hba, hdivs, hl, hr, hd⟩

end LocalSpace

end Quasiaffine
