import Quasiaffine.Proofs.Division.Reachable
import Quasiaffine.Proofs.Parse.Texts
import Quasiaffine.Proofs.Relation.Consistent
import Quasiaffine.Proofs.Relation.Members

set_option autoImplicit false

namespace Quasiaffine

section Sorting

theorem BasicRelation.WellFormed.sortDivs {b : BasicRelation} (h : b.WellFormed)
    (hs : b.space.Proper) : b.sortDivs.WellFormed := by
  have hsorted : b.ls.sortDivs.ls.Coherent True :=
    LocalSpace.Coherent.sortDivs ⟨h.divisions, hs, fun _ => h.positive⟩ h.positive
  have hwide : b.sortDivs.Wide :=
    BasicRelation.sortDivs_induction h.wide h.wide fun _ _ _ hc _ _ _ => hc.swapDiv
  refine ⟨hsorted.wellFormed, hsorted.nonNegative trivial, fun c hc => ?_⟩
  rw [hwide.constraints c hc, BasicRelation.width, LocalSpace.total, LocalSpace.divCount,
    Matrix.height, Nat.add_assoc]

theorem Relation.WellFormed.sortDivs {r : Relation} (h : r.WellFormed) : r.sortDivs.WellFormed := by
  refine ⟨h.proper, fun b hb => ?_⟩
  obtain ⟨c, hc, rfl⟩ := List.mem_map.1 hb
  have hlies := h.basics c hc
  have hspace := (BasicRelation.sortDivs_spec hlies.wellFormed.wide).1
  exact ⟨hlies.wellFormed.sortDivs hlies.proper, hspace ▸ hlies.proper, hspace ▸ hlies.agrees⟩

end Sorting

structure Space.Declared (s : Space) : Prop where
  proper : s.Proper
  params : ∃ xs : List String, xs.Nodup ∧ (∀ x ∈ xs, IsName x) ∧ s.params = xs.map some
  labels : ∀ x, some x ∈ s.input.ids ++ s.output.ids → IsTitle x
  input : s.input.Writable
  output : s.output.Writable

structure Relation.Declared (r : Relation) : Prop where
  space : r.space.Declared
  wellFormed : r.WellFormed
  consistent : ∀ b ∈ r.basics, b.contradictory = false

namespace Relation.Declared

variable {r r' : Relation}

theorem sortDivs (h : r.Declared) : r.sortDivs.Declared :=
  ⟨h.space, h.wellFormed.sortDivs, Consistent.sortDivs h.consistent⟩

theorem union (h : r.Declared) (h' : r'.Declared) {both : Relation} (hok : r.union r' = .ok both) :
    both.Declared := by
  obtain ⟨hspace, hwf, -⟩ := h.wellFormed.union h'.wellFormed hok
  exact ⟨hspace ▸ h.space, hwf, Consistent.union h.consistent hok⟩

end Relation.Declared

def Object.Declared (o : Object) : Prop := ∀ r ∈ o.toUnion.members, r.Declared

theorem Object.Declared.insert {o o' : Object} {r : Relation} {span : Span} (ho : o.Declared)
    (hr : r.Declared) (hok : o.insert r span = .ok o') : o'.Declared :=
  RelationUnion.forall_members_insert ho hr (fun _ _ hm hboth => hm.union hr hboth)
    (toUnion_insert hok)

namespace Scope

variable {sc : Scope}

theorem Named.exists_names (h : sc.Named) (hd : sc.Distinct) (n : Nat) : ∃ xs : List String,
    xs.Nodup ∧ (∀ x ∈ xs, IsName x) ∧ sc.names.take n = xs.map some := by
  obtain ⟨xs, hnodup, hnames⟩ := hd.take n
  refine ⟨xs, hnodup, fun x hx => h x (List.mem_of_mem_take (i := n) ?_), hnames⟩
  rw [hnames]
  exact List.mem_map_of_mem hx

end Scope

namespace Parse

open Reading Grammar

variable {F : Frame} {b : Symbols} {depth : Nat} {params : Relation}

theorem follows_located (hb : Clear b) (hd : F.scope.Distinct) (hn : F.scope.Named)
    (hp : params.LiesOver F) : Follows F b (located depth params) fun read G c =>
      F.Extends G ∧ Clear c ∧ read.space.Declared ∧ ∃ H : Frame, read.set.LiesOver H := by
  refine follows_parameterNames.bind ?_
  rintro names F b ⟨hnames, rfl, rfl⟩
  have hparams := hn.exists_names hd (params.dim .param)
  rw [← hnames] at hparams
  have hunit : Tuple.unit.Writable := Tuple.writable_flat_none
  refine .nextIs_bind (fun _ => (follows_optionalCondition hb hp).bind ?_) fun _ =>
    (follows_tuple hb (.inl rfl) hp).bind ?_
  · rintro set F c ⟨rfl, hc, hset, -⟩
    exact follows_pure ⟨⟨rfl, List.prefix_refl _⟩, hc,
      ⟨Space.proper_ofSet names .unit, hparams, nofun, hunit, hunit⟩, F, hset⟩
  · rintro first G c ⟨⟨n, hG⟩, hfirst, hc, hset, hw, -⟩
    have hlabels := hfirst.labels nofun
    refine .eatMark_bind (fun _ => (follows_tuple hc.tail (.inl rfl) hset).bind ?_) fun _ =>
      (follows_optionalCondition hc hset).bind ?_
    · rintro second H d ⟨⟨m, hH⟩, hsecond, hd, hset, hw', -⟩
      refine (follows_optionalCondition hd hset).bind ?_
      rintro set H e ⟨rfl, he, hset, -⟩
      exact follows_pure ⟨(hG.trans hH).extends, he, ⟨Space.proper_ofRelation names _ _, hparams,
        (hfirst.append hsecond).labels nofun, hw, hw'⟩, H, hset⟩
    · rintro set G d ⟨rfl, hd, hset, -⟩
      exact follows_pure ⟨hG.extends, hd,
        ⟨Space.proper_ofSet names _, hparams, hlabels, hunit, hw⟩, G, hset⟩

theorem follows_body (config : Config) (hb : Clear b) (hd : F.scope.Distinct) (hn : F.scope.Named)
    (hp : params.LiesOver F) : Follows F b (body config depth params) fun r G c =>
      G = F ∧ Clear c ∧ r.Declared := by
  refine (Follows.inScope (Q := fun read _ => read.space.Declared ∧
    ∃ H : Frame, read.set.LiesOver H) (follows_located hb hd hn hp)).bind ?_
  rintro read F c ⟨rfl, hc, hs, H, hset⟩
  refine .check_bind fun r hok => follows_pure ⟨rfl, hc, ?_⟩
  obtain ⟨_, ht, -⟩ := bind_eq_ok_iff.1 hok
  obtain ⟨r', hok', hspace, hwf, htidy, -⟩ := Relation.resetSpace_eq_ok hset.wellFormed hs.proper
    (beq_iff_eq.1 (require_eq_ok_iff.1 ht))
  obtain rfl := Except.ok.inj (hok'.symm.trans hok)
  have hdeclared : r'.Declared :=
    ⟨hspace ▸ hs, hwf, fun b hb => (htidy hset.tidy b hb).consistent⟩
  split
  · exact hdeclared.sortDivs
  · exact hdeclared

theorem follows_moreBodies (config : Config) (hb : Clear b) (hd : F.scope.Distinct)
    (hn : F.scope.Named) (hp : params.LiesOver F) {o : Object} (ho : o.Declared) :
    Follows F b (moreBodies config params depth o) fun o _ _ => o.Declared := by
  induction depth generalizing b o with
  | zero => exact follows_throw _
  | succ depth ih =>
    rw [moreBodies]
    refine .enter_bind (.eatMark_bind (fun _ => .nextIs_bind (fun _ => follows_pure ho) fun _ => ?_)
      fun _ => follows_pure ho)
    refine .peek_bind fun start _ => (follows_body config hb.tail hd hn hp).bind ?_
    rintro r F c ⟨rfl, hc, hr⟩
    exact .check_bind fun o' hok => ih hc (ho.insert hr hok)

theorem follows_bodies (config : Config) (hb : Clear b) (hd : F.scope.Distinct)
    (hn : F.scope.Named) (hp : params.LiesOver F) :
    Follows F b (bodies config depth params) fun o _ _ => o.Declared := by
  refine (follows_body config hb hd hn hp).bind ?_
  rintro r F c ⟨rfl, hc, hr⟩
  refine (follows_moreBodies config hc hd hn hp (o := .relation r)
    (List.forall_mem_singleton.2 hr)).bind ?_
  rintro o F c ho
  refine .expectMark_bind fun _ => follows_expectEnd.bind ?_
  rintro _ F c -
  exact follows_pure ho

/-- The tuple behind `Sym` declares more parameters, none of which has a name that is taken. -/
theorem follows_object (config : Config) (hb : Clear b) :
    Follows noFrame b (object config depth) fun o _ _ => o.Declared := by
  refine (follows_parameters hb).bind ?_
  rintro params F c ⟨⟨hF, hn⟩, hc, hp, hheader⟩
  refine .expectMark_bind fun _ => .next_bind fun t hs ht => ?_
  split
  · refine .expectMark_bind fun _ => (follows_tuple hc.tail.tail.tail hF hp).bind ?_
    rintro more G d ⟨-, hworded, hd, hset, -, htuple⟩
    exact follows_bodies config hd (htuple.distinct hheader.distinct) (hworded.scope hn) hset
  · refine follows_expectEnd.bind ?_
    rintro _ G d -
    exact follows_pure nofun
  · exact .back_bind hs ht (follows_bodies config hc.tail hheader.distinct hn hp)

end Parse

namespace Reader

open Parse

variable {config : Config} {source : String}

theorem declared_of_object {o : Object} (h : (object config source).result = .ok o) :
    o.Declared := by
  have hclear : Clear (symbols source) := Cursor.clear_symbols _
  obtain ⟨-, -, -, ho⟩ := follows_object config hclear (initial source) rfl (.of_clear hclear) rfl
    o _ (Prod.ext h rfl)
  exact ho

end Reader

end Quasiaffine
