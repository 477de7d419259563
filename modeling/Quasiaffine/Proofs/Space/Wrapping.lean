import Quasiaffine.Proofs.Except
import Quasiaffine.Proofs.Space

/-!
Wrapped tuples and their parts. A wrapped tuple lists the names of its dimensions, and its parts list
theirs again. Whoever inserts or removes dimensions unwraps the tuple; a new name for a dimension
goes into the list of the tuple alone, so that the parts keep the old one.
-/

set_option autoImplicit false

namespace Quasiaffine

namespace Tuple

variable {t : Tuple} {ids : List Label}

def Covered : Tuple → Prop
  | flat _ _ => True
  | wrapping _ ids domain range =>
    ids.length = domain.size + range.size ∧ domain.Consistent ∧ range.Consistent

theorem Consistent.covered (h : t.Consistent) : t.Covered := by
  cases t with
  | flat => trivial
  | wrapping _ ids domain range =>
    obtain ⟨rfl, hd, hr⟩ := h
    exact ⟨List.length_append, hd, hr⟩

theorem Covered.setIds (h : t.Covered) (hl : ids.length = t.size) : (t.setIds ids).Covered := by
  cases t with
  | flat => trivial
  | wrapping _ _ domain range => exact ⟨hl.trans h.1, h.2⟩

theorem consistent_setIds_iff (h : t.Consistent) (ids : List Label) :
    (t.setIds ids).Consistent ↔ t.parts? = none ∨ ids = t.ids := by
  cases t with
  | flat => simp [Tuple.setIds, Consistent, parts?]
  | wrapping _ _ domain range =>
    obtain ⟨rfl, hd, hr⟩ := h
    simp [Tuple.setIds, Consistent, parts?, Tuple.ids, hd, hr]

end Tuple

namespace Space

structure Consistent (s : Space) : Prop where
  input : s.input.Consistent
  output : s.output.Consistent

structure Covered (s : Space) : Prop where
  input : s.input.Covered
  output : s.output.Covered

/-- A dimension gets a name that the parts of its tuple do not contradict: the tuple wraps nothing,
or the name is the one that the dimension has. -/
def Faithful (s : Space) (kind : DimKind) (pos : Nat) (label : Label) : Prop :=
  (∀ t, s.tuple? kind = some t → t.parts? = none) ∨ s.label kind pos = label

variable {s s' : Space} {kind : DimKind} {first n pos : Nat} {label : Label}

theorem Consistent.covered (h : s.Consistent) : s.Covered := ⟨h.input.covered, h.output.covered⟩

theorem set_labels_eq_iff (hpos : pos < s.dim kind) :
    (s.labels kind).set pos label = s.labels kind ↔ s.label kind pos = label := by
  have hget : (s.labels kind)[pos]? = some (s.labels kind)[pos] := List.getElem?_eq_getElem hpos
  rw [Space.label, hget, Option.join_some]
  constructor
  · intro h
    have hset := congrArg (·[pos]?) h
    simp only [hget, List.getElem?_set_self hpos, Option.some.injEq] at hset
    exact hset.symm
  · rintro rfl
    exact List.set_getElem_self hpos

section Steps

theorem setLabel_eq_ok (hok : s.setLabel kind pos label = .ok s') :
    kind ≠ .div ∧ pos < s.dim kind ∧ s' = s.setLabels ((s.labels kind).set pos label) kind := by
  simp only [setLabel, bind_eq_ok_iff, require_eq_ok_iff, exists_const, decide_eq_true_eq] at hok
  obtain ⟨-, hkind, hpos, hok⟩ := hok
  exact ⟨hkind, hpos, (Except.ok.inj hok).symm⟩

theorem Covered.setLabel (h : s.Covered) (hok : s.setLabel kind pos label = .ok s') :
    s'.Covered := by
  obtain ⟨-, -, rfl⟩ := setLabel_eq_ok hok
  cases kind with
  | param => exact ⟨h.input, h.output⟩
  | input => exact ⟨h.input.setIds List.length_set, h.output⟩
  | output => exact ⟨h.input, h.output.setIds List.length_set⟩
  | div => exact h

/-- Giving a dimension a name keeps a space consistent just where the name is faithful. -/
theorem consistent_setLabel_iff (h : s.Consistent) (hok : s.setLabel kind pos label = .ok s') :
    s'.Consistent ↔ s.Faithful kind pos label := by
  obtain ⟨hkind, hpos, rfl⟩ := setLabel_eq_ok hok
  rw [Faithful, ← set_labels_eq_iff hpos]
  cases kind with
  | param => exact iff_of_true ⟨h.input, h.output⟩ (.inl nofun)
  | input =>
    have hset := Tuple.consistent_setIds_iff h.input ((s.labels .input).set pos label)
    simp only [tuple?, Option.some.injEq, forall_eq']
    exact Iff.trans ⟨Consistent.input, fun hi => ⟨hi, h.output⟩⟩ hset
  | output =>
    have hset := Tuple.consistent_setIds_iff h.output ((s.labels .output).set pos label)
    simp only [tuple?, Option.some.injEq, forall_eq']
    exact Iff.trans ⟨Consistent.output, fun ho => ⟨h.input, ho⟩⟩ hset
  | div => exact absurd rfl hkind

theorem insertDims_eq_ok (hok : s.insertDims kind first n = .ok s') :
    s' = s.insertUnchecked first n kind := by
  simp only [insertDims, bind_eq_ok_iff, require_eq_ok_iff, exists_const] at hok
  exact (Except.ok.inj hok.2.2).symm

theorem dropDims_eq_ok (hok : s.dropDims kind first n = .ok s') :
    s' = s.dropUnchecked first n kind := by
  simp only [dropDims, bind_eq_ok_iff, require_eq_ok_iff, exists_const] at hok
  exact (Except.ok.inj hok.2.2).symm

theorem relationFrom_eq_ok (hok : s.relationFrom = .ok s') :
    s' = ofRelation s.params s.output .unit := by
  simp only [relationFrom, bind_eq_ok_iff, require_eq_ok_iff, exists_const] at hok
  exact (Except.ok.inj hok.2).symm

end Steps

/-- The spaces that operations lead to from consistent tuples. The names that dimensions are given
satisfy `renamed`. -/
inductive Reachable (renamed : Space → DimKind → Nat → Label → Prop) : Space → Prop
  | ofParams (params : List Label) : Reachable renamed (ofParams params)
  | anonymousSet (params n : Nat) : Reachable renamed (anonymousSet params n)
  | anonymousRelation (params nIn nOut : Nat) : Reachable renamed (anonymousRelation params nIn nOut)
  | ofSet (params : List Label) {t : Tuple} : t.Consistent → Reachable renamed (ofSet params t)
  | ofRelation (params : List Label) {t u : Tuple} : t.Consistent → u.Consistent →
      Reachable renamed (ofRelation params t u)
  | setLabel {s s' : Space} {kind : DimKind} {pos : Nat} {label : Label} : Reachable renamed s →
      renamed s kind pos label → s.setLabel kind pos label = .ok s' → Reachable renamed s'
  | insertDims {s s' : Space} {kind : DimKind} {first n : Nat} : Reachable renamed s →
      s.insertDims kind first n = .ok s' → Reachable renamed s'
  | addDims {s s' : Space} {kind : DimKind} {n : Nat} : Reachable renamed s →
      s.addDims kind n = .ok s' → Reachable renamed s'
  | dropDims {s s' : Space} {kind : DimKind} {first n : Nat} : Reachable renamed s →
      s.dropDims kind first n = .ok s' → Reachable renamed s'
  | domain {s : Space} : Reachable renamed s → Reachable renamed s.domain
  | range {s : Space} : Reachable renamed s → Reachable renamed s.range
  | relationFrom {s s' : Space} : Reachable renamed s → s.relationFrom = .ok s' →
      Reachable renamed s'
  | flatten {s : Space} : Reachable renamed s → Reachable renamed s.flatten

/-- What holds of the tuples that are handed in and of every flat tuple holds of all tuples in the
end, if new names keep it. -/
theorem Reachable.tuples {renamed : Space → DimKind → Nat → Label → Prop} {P : Tuple → Prop}
    (given : ∀ t : Tuple, t.Consistent → P t) (flat : ∀ name ids, P (.flat name ids))
    (rename : ∀ {s s' : Space} {kind : DimKind} {pos : Nat} {label : Label}, P s.input →
      P s.output → renamed s kind pos label → s.setLabel kind pos label = .ok s' →
      P s'.input ∧ P s'.output) (h : Reachable renamed s) : P s.input ∧ P s.output := by
  have insert : ∀ {s s' : Space} {kind : DimKind} {first n : Nat}, P s.input ∧ P s.output →
      s.insertDims kind first n = .ok s' → P s'.input ∧ P s'.output := by
    intro s s' kind first n h hok
    obtain rfl := insertDims_eq_ok hok
    cases kind with
    | param | div => exact h
    | input => exact ⟨flat _ _, h.2⟩
    | output => exact ⟨h.1, flat _ _⟩
  -- Only `setLabel` keeps a wrapping tuple and changes it; all other operations flatten it or
  -- leave it alone.
  induction h with
  | ofParams => exact ⟨flat _ _, flat _ _⟩
  | anonymousSet => exact ⟨flat _ _, flat _ _⟩
  | anonymousRelation => exact ⟨flat _ _, flat _ _⟩
  | ofSet _ ht => exact ⟨flat _ _, given _ ht⟩
  | ofRelation _ ht hu => exact ⟨given _ ht, given _ hu⟩
  | setLabel _ hr hok ih => exact rename ih.1 ih.2 hr hok
  | insertDims _ hok ih => exact insert ih hok
  | addDims _ hok ih => exact insert ih hok
  | @dropDims s _ kind _ _ _ hok ih =>
    obtain rfl := dropDims_eq_ok hok
    cases kind with
    | param | div => exact ih
    | input => exact ⟨flat _ _, ih.2⟩
    | output => exact ⟨ih.1, flat _ _⟩
  | domain _ ih => exact ⟨flat _ _, ih.1⟩
  | range _ ih => exact ⟨flat _ _, ih.2⟩
  | relationFrom _ hok ih =>
    obtain rfl := relationFrom_eq_ok hok
    exact ⟨ih.2, flat _ _⟩
  | @flatten s _ ih =>
    rw [Space.flatten]
    split
    · exact ih
    · exact ⟨flat _ _, flat _ _⟩

/-- Over whole runs the parts of wrapped tuples stay consistent and keep their sizes. Where all names
are faithful the tuples stay consistent with their parts, and one name that is not faithful ends
that. -/
theorem consistent_of_reachable {renamed : Space → DimKind → Nat → Label → Prop}
    (h : Reachable renamed s) :
    s.Covered ∧
    ((∀ t kind pos label, renamed t kind pos label → t.Faithful kind pos label) → s.Consistent) ∧
    ∀ t kind pos label, s.Consistent → s.setLabel kind pos label = .ok t →
      (t.Consistent ↔ s.Faithful kind pos label) := by
  refine ⟨?_, fun hfaithful => ?_, fun t kind pos label hs hok => consistent_setLabel_iff hs hok⟩
  · obtain ⟨hi, ho⟩ := h.tuples (P := Tuple.Covered) (fun _ => Tuple.Consistent.covered)
      (fun _ _ => trivial) fun hi ho _ hok =>
        have hs' := Covered.setLabel ⟨hi, ho⟩ hok
        ⟨hs'.input, hs'.output⟩
    exact ⟨hi, ho⟩
  · obtain ⟨hi, ho⟩ := h.tuples (P := Tuple.Consistent) (fun _ ht => ht) (fun _ _ => trivial)
      fun hi ho hr hok =>
        have hs' := (consistent_setLabel_iff ⟨hi, ho⟩ hok).2 (hfaithful _ _ _ _ hr)
        ⟨hs'.input, hs'.output⟩
    exact ⟨hi, ho⟩

/-- A new name in the flat range leaves the wrapped domain alone; one in the domain does not. -/
theorem consistent_of_reachable_wrappedDomain :
    let wrapped : Tuple := .wrap none (.flat none [some "a"]) (.flat none [some "b"])
    let named : Space := ofRelation [] wrapped (.flat none [some "z"])
    let s : Space := ofRelation [] wrapped (.flat none [some "z", none, none])
    (ofRelation [] wrapped (.flat none [some "c"])).setLabel .output 0 (some "z") = .ok named ∧
      named.insertDims .output 1 2 = .ok s ∧ s.Consistent ∧ s.domain.Consistent ∧
      ∀ t, s.domain.setLabel .output 0 (some "x") = .ok t → t.Covered ∧ ¬t.Consistent := by
  intro wrapped named s
  have hnamed : (ofRelation [] wrapped (.flat none [some "c"])).setLabel .output 0 (some "z") =
      .ok named := rfl
  have hs : named.insertDims .output 1 2 = .ok s := rfl
  have hfaithful : (ofRelation [] wrapped (.flat none [some "c"])).Faithful .output 0 (some "z") :=
    .inl fun t ht => by
      obtain rfl := Option.some.inj ht
      rfl
  have hwrapped : wrapped.Consistent := ⟨rfl, trivial, trivial⟩
  have hflat : (Tuple.flat none [some "c"]).Consistent := trivial
  have hreach : Reachable Faithful s :=
    .insertDims (.setLabel (.ofRelation [] hwrapped hflat) hfaithful hnamed) hs
  have hconsistent := (consistent_of_reachable hreach).2.1 fun _ _ _ _ h => h
  obtain ⟨-, hdomain, hstep⟩ := consistent_of_reachable hreach.domain
  refine ⟨hnamed, hs, hconsistent, hdomain fun _ _ _ _ h => h, fun t ht => ?_⟩
  have hunfaithful : ¬s.domain.Faithful .output 0 (some "x") := by
    rintro (h | h)
    · cases h wrapped rfl
    · exact absurd h (by decide)
  exact ⟨(hdomain fun _ _ _ _ h => h).covered.setLabel ht,
    fun h => hunfaithful ((hstep _ _ _ _ (hdomain fun _ _ _ _ h => h) ht).1 h)⟩

/-- The first dimension of `[[a] -> [b]]` gets the name `x`, and its part still calls it `a`. -/
theorem not_consistent_setLabel_wrapped :
    let s : Space := ofSet [] (.wrap none (.flat none [some "a"]) (.flat none [some "b"]))
    s.Consistent ∧ ∃ t, s.setLabel .output 0 (some "x") = .ok t ∧
      t.output = .wrapping none [some "x", some "b"] (.flat none [some "a"]) (.flat none [some "b"]) ∧
      ¬t.Consistent := by
  intro s
  refine ⟨⟨trivial, rfl, trivial, trivial⟩, _, rfl, rfl, fun h => ?_⟩
  have hids : [some "x", some "b"] = [some "a"] ++ [some "b"] := h.output.1
  exact absurd hids (by decide)

end Space

end Quasiaffine
