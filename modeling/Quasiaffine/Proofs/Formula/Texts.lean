import Quasiaffine.Proofs.Formula.Conditions
import Quasiaffine.Proofs.Formula.Spelling
import Quasiaffine.Proofs.Reader.Objects

set_option autoImplicit false

namespace Quasiaffine

namespace Formula

open Phrase

theorem exists_eq_concat {x : Row} {n : Nat} (hx : x.length = n + 1) :
    ∃ y a, x = y ++ [a] ∧ y.length = n := by
  rcases List.eq_nil_or_concat' x with rfl | ⟨y, a, rfl⟩
  · cases hx
  · exact ⟨y, a, rfl, by simpa using hx⟩

section Points

variable {env : Env} {items : List Item} {item : Item} {x : Row} {a : ℤ}

theorem bindAll_concat (hx : x.length = items.length) :
    bindAll env (items ++ [item]) (x ++ [a]) = item.bind (bindAll env items x) a := by
  induction items generalizing env x with
  | nil =>
    obtain rfl := List.eq_nil_of_length_eq_zero hx
    rfl
  | cons i is ih =>
    obtain ⟨b, x, rfl⟩ := List.exists_cons_of_length_eq_add_one hx
    exact ih (Nat.succ_inj.1 hx)

theorem allowAll_concat (hx : x.length = items.length) : AllowAll env (items ++ [item]) (x ++ [a]) ↔
    AllowAll env items x ∧ item.Allows (bindAll env items x) a := by
  induction items generalizing env x with
  | nil =>
    obtain rfl := List.eq_nil_of_length_eq_zero hx
    simp [AllowAll, bindAll]
  | cons i is ih =>
    obtain ⟨b, x, rfl⟩ := List.exists_cons_of_length_eq_add_one hx
    simp only [List.cons_append, AllowAll, bindAll, ih (Nat.succ_inj.1 hx), and_assoc]

end Points

theorem listed_map {α β : Type} (tokens : β → List Lexeme) (f : α → β) (as : List α) :
    listed tokens (as.map f) = listed (tokens ∘ f) as := by
  induction as with
  | nil => rfl
  | cons a as ih =>
    cases as with
    | nil => rfl
    | cons b bs => exact congrArg (tokens (f a) ++ .mark .comma :: ·) ih

def Item.declared : Item → Label
  | .var v => some v.name.1
  | .expression _ => none

structure Reached (F : Frame) (items : List Item) : Prop where
  knows : F.Knows (items.foldl Item.extend [])
  names : F.scope.names = items.map Item.declared
  env : ∀ x : Row, x.length = F.size → F.scope.env x = bindAll (fun _ => 0) items x

theorem Reached.size {F : Frame} {items : List Item} (h : Reached F items) :
    F.size = items.length := by
  rw [Frame.size, Scope.size, h.names, List.length_map]

variable {kind : DimKind} {F : Frame} {items : List Item}

theorem Reached.size_le {G : Frame} {more : List Item} (hF : Reached F items)
    (hG : Reached G (items ++ more)) : F.size ≤ G.size := by
  rw [hF.size, hG.size, List.length_append]
  exact Nat.le_add_right _ _

theorem Reached.length_take {G : Frame} {more : List Item} (hF : Reached F items)
    (hG : Reached G (items ++ more)) {x : Row} (hx : x.length = G.size) :
    (x.take F.size).length = F.size := by
  rw [List.length_take, hx, Nat.min_eq_left (hF.size_le hG)]

theorem Reached.declareAs (hF : Reached F items) (kind : DimKind) (item : Item) :
    Reached (F.declareAs kind item.declared) (items ++ [item]) := by
  have hscope : (F.declareAs kind item.declared).scope = F.scope.declare item.declared :=
    Frame.scope_declareAs
  refine ⟨?_, ?_, fun x hx => ?_⟩
  · rw [List.foldl_append, Frame.Knows, hscope]
    cases item with
    | var v => exact hF.knows.declare v.name.1
    | expression => exact hF.knows.declare_none
  · rw [hscope, Scope.declare, hF.names, List.map_append]
    rfl
  · rw [Frame.size_declareAs] at hx
    obtain ⟨y, a, rfl, hy⟩ := exists_eq_concat hx
    rw [hscope, bindAll_concat (hy.trans hF.size), ← hF.env y hy]
    cases item with
    | var v => exact Frame.env_declare hy v.name.1 a
    | expression => exact Frame.env_declare_none hy a

/-- What the tokens of items are once some others have been read. -/
def Extends (F : Frame) (items more : List Item) (phrase : Frame → (Row → Prop) → Prop) : Prop :=
  ∃ G D, phrase G D ∧ Reached G (items ++ more) ∧ ∀ x : Row, x.length = G.size →
    (AllowAll (fun _ => 0) (items ++ more) x ↔ AllowAll (fun _ => 0) items (x.take F.size) ∧ D x)

theorem Item.isPhrase (kind : DimKind) (item : Item) (hF : Reached F items)
    (h : item.In (items.foldl Item.extend [])) (hk : kind = .param → ∃ v, item = .var v) :
    Extends F items [item] fun G D => Phrase.Item kind F item.tokens G item.label D := by
  have hG := hF.declareAs kind item
  have hD : ∃ D, Phrase.Item kind F item.tokens (F.declareAs kind item.declared) item.label D ∧
      ∀ (y : Row) (a : ℤ), y.length = F.size →
        (D (y ++ [a]) ↔ item.Allows (bindAll (fun _ => 0) items y) a) := by
    -- A definition is an expression over all variables up to the one that it defines.
    have hvalue : ∀ (e : Expr) (y : Row) (a : ℤ), y.length = F.size →
        (((Row.entry (y ++ [a]) F.size : ℤ) : ℚ) =
            e.value (F.declareAs kind item.declared) (y ++ [a]) ↔
          a = e.eval (item.bind (bindAll (fun _ => 0) items y) a)) := by
      intro e y a hy
      rw [Frame.entry_concat hy, Expr.value, hG.env _ (by simp [hy]),
        bindAll_concat (hy.trans hF.size), Int.cast_inj]
    have hknows := hG.knows
    rw [List.foldl_append] at hknows
    cases item with
    | expression e =>
      refine ⟨_, .expression (fun hp => ?_) (e.isPhrase hknows h).sum, hvalue e⟩
      obtain ⟨v, hv⟩ := hk hp
      cases hv
    | var v =>
      obtain ⟨name, definition⟩ := v
      have hfree := hF.knows.position?_eq_none h.1
      cases definition with
      | none => exact ⟨_, .free hfree, fun y a _ => by simp [Allows, Var.Allows]⟩
      | some e =>
        refine ⟨_, .defined hfree (e.isPhrase hknows (h.2 e rfl)).sum, fun y a hy => ?_⟩
        simp only [Allows, Var.Allows, Option.mem_some_iff, forall_eq']
        exact hvalue e y a hy
  obtain ⟨D, hD, hallows⟩ := hD
  refine ⟨_, D, hD, hG, fun x hx => ?_⟩
  rw [Frame.size_declareAs] at hx
  obtain ⟨y, a, rfl, hy⟩ := exists_eq_concat hx
  rw [allowAll_concat (hy.trans hF.size), hallows y a hy, List.take_left' hy]

theorem Extends.trans {more more' : List Item} {a c : Frame → (Row → Prop) → Prop}
    {b : Frame → Frame → (Row → Prop) → Prop} (hF : Reached F items) (h : Extends F items more a)
    (h' : ∀ G, Reached G (items ++ more) → Extends G (items ++ more) more' (b G))
    (hboth : ∀ G H D E, a G D → b G H E → c H fun x => D (x.take G.size) ∧ E x) :
    Extends F items (more ++ more') c := by
  obtain ⟨G, D, hD, hG, hiff⟩ := h
  obtain ⟨H, E, hE, hH, hiff'⟩ := h' G hG
  refine ⟨H, _, hboth G H D E hD hE, by rwa [← List.append_assoc], fun x hx => ?_⟩
  rw [← List.append_assoc, hiff' x hx, hiff _ (hG.length_take hH hx), List.take_take,
    Nat.min_eq_left (hF.size_le hG), and_assoc]

theorem isPhrase_items (more : List Item) (hne : more ≠ []) (hF : Reached F items)
    (h : ItemsIn (items.foldl Item.extend []) more)
    (hk : kind = .param → ∀ item ∈ more, ∃ v, item = .var v) :
    Extends F items more fun G D =>
      Items kind F (listed Item.tokens more) G (more.map Item.label) D := by
  induction more generalizing F items with
  | nil => exact absurd rfl hne
  | cons item more ih =>
    have hitem := item.isPhrase kind hF h.1 fun hp => hk hp item List.mem_cons_self
    cases more with
    | nil =>
      obtain ⟨G, D, hD, hG, hiff⟩ := hitem
      exact ⟨G, D, .last hD, hG, hiff⟩
    | cons item' more =>
      let items' := item' :: more
      refine hitem.trans
        (b := fun G H E => Items kind G (listed Item.tokens items') H (items'.map Item.label) E) hF
        (fun G hG => ih (by simp) hG ?_ fun hp i hi => hk hp i (List.mem_cons_of_mem _ hi))
        fun G H D E hD hE => .more hD hE
      rw [List.foldl_append]
      exact h.2

theorem isPhrase_inBrackets (kind : DimKind) (more : List Item) (hF : Reached F items)
    (h : ItemsIn (items.foldl Item.extend []) more)
    (hk : kind = .param → ∀ item ∈ more, ∃ v, item = .var v) :
    Extends F items more fun G D => Bracketed kind F (inBrackets (listed Item.tokens more)) G
      (.flat none (more.map Item.label)) D := by
  by_cases hne : more = []
  · subst hne
    exact ⟨F, _, .unit, by simpa using hF, fun x hx => by simp [← hx]⟩
  · obtain ⟨G, D, hD, hG, hiff⟩ := isPhrase_items more hne hF h hk
    exact ⟨G, D, .flat hD, hG, hiff⟩

theorem isPhrase_titled (name : Option Name) {ls : List Lexeme} {G : Frame} {t : Tuple}
    {D : Row → Prop} (h : Bracketed kind F ls G t D) :
    Shape kind F (titled name ls) G (t.rename (name.map (·.1))) D := by
  cases name with
  | none => exact .unnamed h
  | some x => exact .named (l := .identifier x.1) rfl h

theorem itemsIn_append {names : List String} {is js : List Item} :
    ItemsIn names (is ++ js) ↔ ItemsIn names is ∧ ItemsIn (is.foldl Item.extend names) js := by
  induction is generalizing names with
  | nil => simp [ItemsIn]
  | cons i is ih => simp only [List.cons_append, ItemsIn, List.foldl_cons, ih, and_assoc]

theorem Listing.isPhrase (t : Listing) (hF : Reached F items)
    (h : ItemsIn (items.foldl Item.extend []) t.items) :
    Extends F items t.items fun G D => Shape .output F t.tokens G t.tuple D := by
  induction t generalizing F items with
  | flat name more =>
    obtain ⟨G, D, hD, hG, hiff⟩ := isPhrase_inBrackets .output more hF h fun hk => by cases hk
    exact ⟨G, D, isPhrase_titled name hD, hG, hiff⟩
  | wrap name domain range ihd ihr =>
    rw [Listing.items, itemsIn_append, ← List.foldl_append] at h
    refine (ihd hF h.1).trans hF (fun G hG => ihr hG h.2) fun G H D E hD hE => ?_
    have hwrap : Bracketed .output F (inBrackets (domain.tokens ++ .mark .arrow :: range.tokens)) H
        (.wrap none domain.tuple range.tuple) fun x => D (x.take G.size) ∧ E x := by
      rw [inBrackets, List.append_assoc]
      exact .wrap (by decide) hD hE
    exact isPhrase_titled name hwrap

theorem Listing.size_tuple (t : Listing) : t.tuple.size = t.items.length := by
  induction t with
  | flat name items => simp [tuple, Listing.items, Tuple.size, Tuple.ids]
  | wrap name domain range ihd ihr =>
    simpa [tuple, Listing.items, Tuple.wrap, Tuple.size, Tuple.ids] using congrArg₂ (· + ·) ihd ihr

namespace Text

variable {fails : Prop} {t : Text}

theorem total_space (t : Text) : t.space.total = t.items.length := by
  have hparams : (t.params.getD []).length = t.parameters.length := by
    rw [parameters, List.length_map]
  rw [space, items, List.length_append, List.length_append, ← t.first.size_tuple, ← hparams]
  cases t.second with
  | none =>
    simp only [Space.total, Space.ofSet, List.length_map, Option.elim, List.length_nil]
    exact Nat.add_right_comm ..
  | some second =>
    simp only [Space.total, Space.ofRelation, List.length_map, Option.elim, second.size_tuple]

theorem header_isPhrase (h : ItemsIn [] t.parameters) :
    ∃ F P, Header t.header F P ∧ Reached F t.parameters ∧
      ∀ x : Row, x.length = F.size → (P x ↔ AllowAll (fun _ => 0) t.parameters x) := by
  have hempty : Reached ⟨0, .empty, Nat.le_refl 0⟩ [] :=
    ⟨fun x => by simp [Scope.position?, Scope.empty, Scope.lastPosition?], rfl, fun x _ => rfl⟩
  obtain ⟨params, first, second, condition⟩ := t
  cases params with
  | none => exact ⟨_, _, .none, hempty, fun x _ => by simp [parameters, AllowAll]⟩
  | some vs =>
    obtain ⟨F, D, hD, hF, hiff⟩ := isPhrase_inBrackets .param (vs.map .var) hempty h (by simp)
    rw [listed_map] at hD
    exact ⟨F, D, .params hD, hF, fun x hx => ((hiff x hx).trans (by simp [AllowAll])).symm⟩

theorem body_isPhrase (h : t.WellFormed) (hfails : t.condition.negatesExists = true → fails)
    {F : Frame} {P : Row → Prop} (hF : Reached F t.parameters)
    (hP : ∀ x : Row, x.length = F.size → (P x ↔ AllowAll (fun _ => 0) t.parameters x)) :
    ∃ C, Body fails F P t.body t.space C ∧ ∀ x : Row, x.length = t.space.total →
      (P (x.take F.size) ∧ C x ↔ t.Holds x) := by
  have hitems := h.items
  have hcondition := h.condition
  have htotal := t.total_space
  have hnames : (t.params.getD []).map (fun v => some v.name.1) = F.scope.names := by
    rw [hF.names, parameters, List.map_map]
    rfl
  rw [items, itemsIn_append, itemsIn_append] at hitems
  obtain ⟨G, D, hD, hG, hfirst⟩ := t.first.isPhrase hF hitems.1.2
  -- A set has one tuple behind the parameters, a relation two, each read in the frame that the
  -- one before it leaves.
  cases hsecond : t.second with
  | none =>
    have hall : t.items = t.parameters ++ t.first.items := by
      rw [items, hsecond, Option.elim, List.append_nil]
    rw [hall] at hcondition htotal
    obtain ⟨C, hC⟩ := t.condition.isPhrase hG.knows hcondition (fun _ => trivial) hfails
      fun x => P (x.take F.size) ∧ D x
    refine ⟨fun x => D x ∧ C x, ?_, fun x hx => ?_⟩
    · rw [body, space, hnames, hsecond]
      exact .set hD (.condition hC.condition)
    · rw [htotal, ← hG.size] at hx
      rw [Holds, hall, hfirst x hx, ← hG.env x hx, ← hC.points x hx,
        ← hP _ (hF.length_take hG hx)]
      exact and_assoc.symm
  | some second =>
    have hall : t.items = t.parameters ++ t.first.items ++ second.items := by
      rw [items, hsecond, Option.elim]
    rw [hall] at hcondition htotal
    rw [hsecond] at hitems
    obtain ⟨H, E, hE, hH, hrange⟩ := second.isPhrase hG hitems.2
    obtain ⟨C, hC⟩ := t.condition.isPhrase hH.knows hcondition (fun _ => trivial) hfails
      fun x => (P ((x.take G.size).take F.size) ∧ D (x.take G.size)) ∧ E x
    refine ⟨fun x => (D (x.take G.size) ∧ E x) ∧ C x, ?_, fun x hx => ?_⟩
    · rw [body, space, hnames, hsecond]
      exact .relation hD hE (.condition hC.condition)
    · rw [htotal, ← hH.size] at hx
      have hxG := hG.length_take hH hx
      rw [Holds, hall, hrange x hx, hfirst _ hxG, ← hH.env x hx, ← hC.points x hx,
        ← hP _ (hF.length_take hG hxG), List.take_take, Nat.min_eq_left (hF.size_le hG)]
      simp only [and_assoc]

theorem head?_body (h : t.WellFormed) : t.body.head? ≠ some (.identifier "Sym") := by
  have htitled : ∀ (name : Option Name) (ls ls' : List Lexeme), (∀ x ∈ name, x.1 ≠ "Sym") →
      (titled name (inBrackets ls) ++ ls').head? ≠ some (.identifier "Sym") := by
    rintro (_ | x) ls ls' hname
    · exact nofun
    · simpa [titled] using hname x rfl
  obtain ⟨params, first, second, condition⟩ := t
  cases first with
  | flat | wrap => exact htitled _ _ _ h.first

/-- A text is read as a relation over its space, to which the points belong that it describes. Where
there is a quantifier under a negation the reader may give up, with this one error. -/
theorem read_source (h : t.WellFormed) (config : Config) :
    (∃ r : Relation, (Reader.object config t.source).result = .ok (.relation r) ∧
      r.space = t.space ∧ ∀ x : Row, x ∈ r ↔ x.length = t.space.total ∧ t.Holds x) ∨
    t.condition.negatesExists = true ∧ (Reader.object config t.source).result =
      .error (.error (.unsupported .subtractingQuantified)) := by
  have hitems := h.items
  rw [items, itemsIn_append, itemsIn_append] at hitems
  obtain ⟨F, P, hheader, hF, hP⟩ := header_isPhrase hitems.1.1
  obtain ⟨C, hC, hpoints⟩ := body_isPhrase h id hF hP
  have hspells := t.spells_source
  rw [tokens, List.append_assoc, List.cons_append, List.append_assoc] at hspells
  refine (Reader.object_spec config hheader (.last hC) ⟨by simp, by simp⟩ (head?_body h)
    hspells).imp_left ?_
  rintro ⟨o, hok, ho⟩
  cases ho with
  | relation hr =>
    exact ⟨_, hok, hr.space, fun x => (hr.points x).trans (and_congr_right (hpoints x))⟩
  | union _ hne => exact absurd rfl hne

/-- The even numbers up to a parameter: `[n] -> { [x] : 0 <= x <= n and not x % 2 = 1 }`. -/
def evens : Text where
  params := some [⟨⟨"n", rfl⟩, none⟩]
  first := .flat none [.var ⟨⟨"x", rfl⟩, none⟩]
  second := none
  condition :=
    .and
      (.compare (.last (.literal 0)) (.more .le (.last (.name ⟨"x", rfl⟩))
        (.last .le (.last (.name ⟨"n", rfl⟩)))))
      (.not (.compare (.last (.remainder (.name ⟨"x", rfl⟩) 2)) (.last .eq (.last (.literal 1)))))

theorem read_source_evens : evens.WellFormed ∧ ∃ r : Relation,
    (Reader.object {} evens.source).result = .ok (.relation r) ∧
      [5, 4] ∈ r ∧ [5, 3] ∉ r ∧ [3, 4] ∉ r := by
  have hwf : evens.WellFormed := by
    constructor <;> simp [evens, items, parameters, Listing.items, Listing.name, ItemsIn, Item.In,
      Item.extend, Var.In, Cond.In, Chain.In, Exprs.In, Expr.In]
  have htotal : evens.space.total = 2 := by rw [total_space]; rfl
  have hholds : ∀ n x : ℤ, evens.Holds [n, x] ↔ (0 ≤ x ∧ x ≤ n) ∧ x % 2 ≠ 1 := by
    intro n x
    simp [evens, Holds, items, parameters, Listing.items, AllowAll, Item.Allows, Item.bind, bindAll,
      Var.Allows, Cond.Holds, Chain.Holds, Exprs.values, Expr.eval, Comparison.Relates]
  rcases read_source hwf {} with ⟨r, hok, -, hr⟩ | ⟨hquantified, -⟩
  · refine ⟨hwf, r, hok, ?_, ?_, ?_⟩ <;> rw [hr, hholds, htotal] <;> decide
  · cases hquantified

end Text

end Formula

end Quasiaffine
