import Quasiaffine.Proofs.Parse.Shape

set_option autoImplicit false

namespace Quasiaffine

namespace Symbol

variable {l l' : Symbol}

theorem Alike.eq_iff (h : Alike l l') {s : Symbol} (hs : s.isStop = false) : l' = s ↔ l = s := by
  rcases h with rfl | ⟨hl, hl'⟩
  · rfl
  · constructor <;> rintro rfl <;> simp_all

theorem Alike.symm (h : Alike l l') : Alike l' l := h.imp Eq.symm And.symm

theorem eq_of_nest {n m : Nat} (ho : l ≠ .mark .leftBracket) (hc : l ≠ .mark .rightBracket)
    (h : l.nest n = some m) : m = n := by
  unfold nest at h
  split at h <;> simp_all

theorem isPlain_of_mayNameTuple (h : l.mayNameTuple = true) : l.IsPlain := by
  cases l with
  | name | word => exact fun _ => rfl
  | _ => cases h

end Symbol

namespace Parse

variable {kind : DimKind} {sc sc' : Scope} {P Q : Set Row} {b c d : Symbols} {u : List Symbol}
  {l : Symbol} {n : Nat} {v : Value}

open Stream' in
/-- The symbols of a tuple behind its bracket tell whether an arrow stands behind the first tuple in
it. -/
theorem ArrowBehind.of_nesting (h : ArrowBehind n b) (hb : b = u ++ₛ c)
    (hu : nesting (n + 1) u = some 0) (hd : c.head.Alike d.head) : ArrowBehind n (u ++ₛ d) := by
  induction h generalizing u with
  | @opens n b h _ ih =>
    cases u with
    | nil => cases hu
    | cons l u =>
      subst hb
      obtain rfl : l = .mark .leftBracket := h
      exact .opens (b := cons _ _) rfl (ih rfl hu)
  | @closes n b h hn _ ih =>
    cases u with
    | nil => cases hu
    | cons l u =>
      subst hb
      obtain rfl : l = .mark .rightBracket := h
      refine .closes (b := cons _ _) rfl hn (ih rfl ?_)
      rw [Nat.sub_add_cancel (Nat.le_of_lt hn)]
      exact hu
  | @found n b h hn ha =>
    cases u with
    | nil => cases hu
    | cons l u =>
      subst hb
      obtain rfl : l = .mark .rightBracket := h
      refine .found (b := cons _ _) rfl hn ?_
      cases u with
      | nil => exact (hd.eq_iff rfl).2 ha
      | cons => exact ha
  | @other n b ho hc he _ ih =>
    cases u with
    | nil => cases hu
    | cons l u =>
      subst hb
      refine .other (b := cons _ _) ho hc he (ih rfl ?_)
      rw [nesting, List.foldlM_cons] at hu
      obtain ⟨m, hm, hu⟩ := Option.bind_eq_some_iff.1 hu
      obtain rfl := Symbol.eq_of_nest ho hc hm
      exact hu

theorem Wraps.of_nesting (h : Wraps kind (u ++ₛ c)) (hu : nesting 1 u = some 0)
    (hd : c.head.Alike d.head) : Wraps kind (u ++ₛ d) := by
  obtain ⟨hk, hstarts, ha⟩ := h
  refine ⟨hk, ?_, ha.of_nesting rfl hu hd⟩
  cases u with
  | nil => cases hu
  | cons l u =>
    refine hstarts.imp_right fun ⟨hl, hb⟩ => ⟨hl, ?_⟩
    cases u with
    | nil => exact (hd.eq_iff rfl).2 hb
    | cons => exact hb

theorem wraps_iff_of_nesting (hu : nesting 1 u = some 0) (hd : c.head.Alike d.head) :
    Wraps kind (u ++ₛ c) ↔ Wraps kind (u ++ₛ d) :=
  ⟨fun h => h.of_nesting hu hd, fun h => h.of_nesting hu hd.symm⟩

theorem DerivesItem.exists_local (h : DerivesItem kind sc P b sc' Q c) : ∃ u, Leads b c u ∧ u ≠ [] ∧
    ∀ d : Symbols, c.head.Alike d.head → DerivesItem kind sc P (u ++ₛ d) sc' Q d := by
  cases h with
  | fresh h =>
    obtain ⟨u, hu⟩ := h.exists_local
    exact ⟨u, hu.leads, hu.ne_nil rfl, fun d hd => .fresh (hu.again d hd)⟩
  | value hk hx h =>
    obtain ⟨u, hu⟩ := h.exists_local
    refine ⟨u, hu.leads, hu.ne_nil rfl, fun d hd => .value hk ?_ (hu.again d hd)⟩
    exact ((hu.leads.alike hd).congr (fun l => ∀ x, l = .name x → sc.position? x ≠ none)
      (by simp)).mpr hx

def Inside (u : List Symbol) : Prop := ∀ n, nesting (n + 1) u = some (n + 1)

theorem Balanced.inside (h : Balanced u) : Inside u := fun n => h (n + 1)

theorem nesting_append {u v : List Symbol} {n m : Nat} (hu : nesting n u = some m) :
    nesting n (u ++ v) = nesting m v := by
  rw [nesting, List.foldlM_append, ← nesting, hu]
  rfl

theorem Inside.append {u v : List Symbol} (hu : Inside u) (hv : Inside v) : Inside (u ++ v) :=
  fun n => (nesting_append (hu n)).trans (hv n)

theorem inside_reopened : Inside [.mark .rightBracket, .mark .leftBracket] := fun _ => rfl

theorem Inside.closed (h : Inside u) (n : Nat) :
    nesting (n + 1) (u ++ [.mark .rightBracket]) = some n := nesting_append (h n)

open Stream' in
theorem DerivesItems.exists_local (h : DerivesItems kind sc P b sc' Q c) : ∃ u, b = u ++ₛ c ∧
    Inside u ∧ u ≠ [] ∧ ∀ d : Symbols, c.head.Alike d.head → c.tail.head.Alike d.tail.head →
      DerivesItems kind sc P (u ++ₛ d) sc' Q d := by
  induction h with
  | last h hc hn =>
    obtain ⟨u, hu, hne, hagain⟩ := h.exists_local
    refine ⟨u, hu.eq, hu.balanced.inside, hne, fun d hd hd' => .last (hagain d hd) (hd.ne rfl hc) ?_⟩
    exact fun hclose => hd'.ne rfl (hn ((hd.eq_iff rfl).1 hclose))
  | @comma _ _ _ _ _ _ _ c _ h hc _ ih =>
    obtain ⟨u, hu, hne, hagain⟩ := h.exists_local
    obtain ⟨v, hv, hvi, -, hvagain⟩ := ih
    have hv' := hu.concat hc fun _ => rfl
    refine ⟨_, ?_, hv'.balanced.inside.append hvi, by simp, fun d hd hd' => ?_⟩
    · rw [append_append_stream, ← hv]
      exact hv'.eq
    · simp only [append_append_stream, cons_append_stream, nil_append_stream]
      exact .comma (c := cons _ _) (hagain _ (.inl hc)) rfl (hvagain d hd hd')
  | @brackets _ _ _ _ _ _ _ c _ h hc hn _ ih =>
    obtain ⟨u, hu, hne, hagain⟩ := h.exists_local
    obtain ⟨v, hv, hvi, -, hvagain⟩ := ih
    refine ⟨u ++ ([.mark .rightBracket, .mark .leftBracket] ++ v), ?_,
      hu.balanced.inside.append (inside_reopened.append hvi), by simp, fun d hd hd' => ?_⟩
    · simp only [append_append_stream, cons_append_stream, nil_append_stream]
      rw [← hv, ← hn, Stream'.eta, ← hc, Stream'.eta]
      exact hu.eq
    · simp only [append_append_stream, cons_append_stream, nil_append_stream]
      exact .brackets (c := cons _ (cons _ _)) (hagain _ (.inl hc)) rfl rfl (hvagain d hd hd')

open Stream' in
theorem Inside.leads (h : Inside u) (ho : b.head = .mark .leftBracket) (hb : b.tail = u ++ₛ c)
    (hc : c.head = .mark .rightBracket) :
    Leads b c.tail (.mark .leftBracket :: (u ++ [.mark .rightBracket])) where
  eq := by
    rw [cons_append_stream, append_append_stream, append_eq_cons, ← hc, Stream'.eta, ← hb, ← ho,
      Stream'.eta]
  balanced := h.closed

theorem two_le_length_inBrackets (u : List Symbol) :
    2 ≤ (Symbol.mark .leftBracket :: (u ++ [.mark .rightBracket])).length := by simp

theorem three_le_length_inBrackets {u w : List Symbol} (hu : u ≠ []) :
    3 ≤ (Symbol.mark .leftBracket :: (u ++ [.mark .rightBracket]) ++ w).length := by
  have := List.length_pos_of_ne_nil hu
  simp only [List.length_append, List.length_cons, List.length_nil]
  omega

open Stream' in
theorem DerivesTuple.exists_local (h : DerivesTuple kind sc P b sc' Q c) : ∃ u, Leads b c u ∧
    2 ≤ u.length ∧ ∀ d : Symbols, c.head.Alike d.head → DerivesTuple kind sc P (u ++ₛ d) sc' Q d := by
  induction h with
  | named h ho _ ih =>
    obtain ⟨u, hu, hlen, hagain⟩ := ih
    refine ⟨_, hu.cons rfl (Symbol.isPlain_of_mayNameTuple h), Nat.le_succ_of_le hlen, fun d hd => ?_⟩
    refine .named (b := cons _ _) h ?_ (hagain d hd)
    exact (Symbol.Alike.eq_iff (hu.alike hd) rfl).2 ho
  | unit h hc =>
    refine ⟨_, Inside.leads (u := []) (fun _ => rfl) h rfl hc, by simp, fun d _ => ?_⟩
    exact .unit (b := cons _ (cons _ d)) rfl rfl
  | @flat _ _ _ _ b c h hw hne _ hc =>
    rename_i hi
    obtain ⟨u, hu, hinside, hpos, hagain⟩ := hi.exists_local
    have hclosed := hinside.closed 0
    refine ⟨_, hinside.leads h hu hc, by simp, fun d hd => ?_⟩
    simp only [append_append_stream, cons_append_stream, nil_append_stream]
    refine .flat (b := cons _ _) (c := cons _ d) rfl ?_ ?_ (hagain _ (.inl hc) hd) rfl
    · have hb : b.tail = (u ++ [.mark .rightBracket]) ++ₛ c.tail := by
        rw [append_append_stream, append_eq_cons, ← hc, Stream'.eta, hu]
      rw [hb, wraps_iff_of_nesting hclosed hd, append_append_stream] at hw
      exact hw
    · obtain ⟨l, u', rfl⟩ := List.exists_cons_of_ne_nil hpos
      rw [hu] at hne
      exact hne
  | @wrap _ _ _ _ _ _ b c e h hw _ ha _ hd ihs iht =>
    obtain ⟨u, hu, hlen, hagain⟩ := ihs
    obtain ⟨v, hv, -, hagain'⟩ := iht
    have hlead := (hu.concat ha fun _ => rfl).append hv
    have hclosed := hlead.balanced.inside.closed 0
    refine ⟨_, hlead.brackets h hd, two_le_length_inBrackets _, fun d hd' => ?_⟩
    have hb : b.tail = (u ++ [.mark .arrow] ++ v ++ [.mark .rightBracket]) ++ₛ e.tail := by
      rw [append_append_stream, append_eq_cons, ← hd, Stream'.eta, ← hlead.eq]
    rw [hb, wraps_iff_of_nesting hclosed hd'] at hw
    simp only [append_append_stream, cons_append_stream, nil_append_stream] at hw ⊢
    exact .wrap (b := cons _ _) (c := cons _ _) (d := cons _ d) rfl hw (hagain _ (.inl ha)) rfl
      (hagain' _ (.inl hd)) rfl

open Stream' in
theorem DerivesHeader.exists_local (h : DerivesHeader b sc P c) : ∃ u, Leads b c u ∧
    ∀ d : Symbols, c.head.Alike d.head → DerivesHeader (u ++ₛ d) sc P d := by
  cases h with
  | none h => exact ⟨[], leads_nil, fun d hd => .none (hd.ne rfl h)⟩
  | some h ht ha =>
    obtain ⟨u, hu, hlen, hagain⟩ := ht.exists_local
    refine ⟨_, hu.concat ha fun _ => rfl, fun d _ => ?_⟩
    rw [append_append_stream]
    refine .some (c := cons _ d) ?_ (hagain _ (.inl ha)) rfl
    exact (Symbol.Alike.eq_iff (hu.alike (d := cons _ d) (.inl ha)) rfl).2 h

open Stream' in
theorem DerivesValue.exists_local (h : DerivesValue sc P b v c) : ∃ u, Leads b c u ∧
    3 ≤ u.length ∧ ∀ d : Symbols, c.head.Alike d.head → DerivesValue sc P (u ++ₛ d) v d := by
  cases h with
  | unconditional h hv hc hn =>
    obtain ⟨u, hu⟩ := hv.exists_local
    refine ⟨_, (hu.leads.brackets h hc).append leads_nil,
      three_le_length_inBrackets (hu.ne_nil rfl), fun d hd => ?_⟩
    simp only [append_append_stream, cons_append_stream, nil_append_stream]
    exact .unconditional (b := cons _ _) (c := cons _ d) rfl (hu.again _ (.inl hc)) rfl
      ⟨hd.ne rfl hn.1, hd.ne rfl hn.2⟩
  | @conditional _ _ c _ h hv hc hn hQ =>
    obtain ⟨u, hu⟩ := hv.exists_local
    obtain ⟨q, hq⟩ := hQ.exists_local
    have hplain : c.tail.head.IsPlain := by
      rcases hn with hn | hn <;> rw [hn] <;> exact fun _ => rfl
    refine ⟨_, (hu.leads.brackets h hc).append (hq.leads.cons rfl hplain),
      three_le_length_inBrackets (hu.ne_nil rfl), fun d hd => ?_⟩
    simp only [append_append_stream, cons_append_stream, nil_append_stream]
    exact .conditional (b := cons _ _) (c := cons _ (cons _ _)) rfl (hu.again _ (.inl hc)) rfl hn
      (hq.again d hd)

theorem hasDomain_iff_of_length (h : 3 ≤ u.length) :
    HasDomain sc (u ++ₛ c) ↔ HasDomain sc (u ++ₛ d) := by
  match u, h with
  | _ :: _ :: _ :: _, _ => exact Iff.rfl

open Stream' in
theorem DerivesPiece.exists_local (h : DerivesPiece sc P b v c) : ∃ u, Leads b c u ∧ u ≠ [] ∧
    ∀ d : Symbols, c.head.Alike d.head → DerivesPiece sc P (u ++ₛ d) v d := by
  cases h with
  | onDomain hd ht ha hv =>
    obtain ⟨u, hu, hlen, hagain⟩ := ht.exists_local
    obtain ⟨w, hw, hlen', hagain'⟩ := hv.exists_local
    have hlead := (hu.concat ha fun _ => rfl).append hw
    refine ⟨_, hlead, by simp, fun d hd' => ?_⟩
    rw [hlead.eq, hasDomain_iff_of_length (d := d) (by
      simp only [List.length_append, List.length_cons, List.length_nil]; omega)] at hd
    simp only [append_append_stream, cons_append_stream, nil_append_stream] at hd ⊢
    exact .onDomain (c := cons _ _) hd (hagain _ (.inl ha)) rfl (hagain' d hd')
  | onParams hd hv =>
    obtain ⟨u, hu, hlen, hagain⟩ := hv.exists_local
    refine ⟨u, hu, ?_, fun d hd' => .onParams ?_ (hagain d hd')⟩
    · rintro rfl
      exact absurd hlen (by decide)
    · rwa [hu.eq, hasDomain_iff_of_length hlen] at hd

end Parse

end Quasiaffine
