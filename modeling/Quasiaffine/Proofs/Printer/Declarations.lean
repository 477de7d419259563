import Quasiaffine.Proofs.Printer.Writing
import Quasiaffine.Proofs.Reader.Objects
import Quasiaffine.Space.Names

set_option autoImplicit false

namespace Quasiaffine

section Separators

variable {sep text text' : String} {l : Lexeme} {ls ls' : List Lexeme}

structure Separator (sep : String) (l : Lexeme) : Prop where
  separated (text : String) : Separated (sep ++ text)
  writes {text : String} {ls : List Lexeme} (h : Writes text ls) : Writes (sep ++ text) (l :: ls)

theorem separator_spaced (hl : l.Written) (hsep : sep = " " ++ l.text ++ " ") : Separator sep l where
  separated text := by
    rw [hsep, String.append_assoc, String.append_assoc]
    exact separated_blank _
  writes h := h.spaced hl hsep

theorem Writes.markBlank (h : Writes text ls) (m : Mark) (hm : m ≠ .caret ∧ m ≠ .slash) :
    Writes (m.text ++ (" " ++ text)) (.mark m :: ls) := by
  refine h.blank.markBefore m hm fun a ha => ?_
  rw [String.toList_append] at ha
  obtain ⟨⟩ := ha
  exact (Lexeme.Written.mark hm.1).endsBefore_blank

theorem separator_mark {m : Mark} {c : Char} (hm : m ≠ .caret ∧ m ≠ .slash)
    (hsep : sep = m.text ++ " ") (hc : m.text.toList = [c]) (hs : isSeparator c = true) :
    Separator sep (.mark m) where
  separated text := by
    rw [hsep, Separated, String.append_assoc, String.toList_append, hc]
    rintro a ⟨⟩
    exact hs
  writes {text ls} h := by
    rw [hsep, String.append_assoc]
    exact h.markBlank m hm

theorem separator_comma : Separator ", " (.mark .comma) :=
  separator_mark (c := ',') (by decide) rfl rfl rfl

theorem separator_semicolon : Separator "; " (.mark .semicolon) :=
  separator_mark (c := ';') (by decide) rfl rfl rfl

theorem separator_and : Separator " and " (.keyword .and true) := separator_spaced (.keyword _) rfl

theorem separator_or : Separator " or " (.keyword .or true) := separator_spaced (.keyword _) rfl

theorem separator_arrow : Separator " -> " (.mark .arrow) := separator_spaced (.mark nofun) rfl

theorem separator_colon : Separator " : " (.mark .colon) := separator_spaced (.mark nofun) rfl

theorem Separator.between (hsep : Separator sep l) (h : Writes text ls) (h' : Writes text' ls') :
    Writes (text ++ (sep ++ text')) (ls ++ l :: ls') :=
  h.append (hsep.writes h') (hsep.separated text')

theorem Separator.intercalate (hsep : Separator sep l) {texts : List String}
    {lss : List (List Lexeme)} (h : List.Forall₂ Writes texts lss) :
    Writes (sep.intercalate texts) ([l].intercalate lss) := by
  induction h with
  | nil => exact writes_empty
  | cons h hs ih =>
    cases hs with
    | nil => simpa using h
    | cons => simpa [String.append_assoc] using hsep.between h ih

end Separators

namespace Scope

variable {x : String} {xs : List String}

theorem lastPosition?_eq_none (h : x ∉ xs) : lastPosition? x (xs.map some) = none := by
  simpa [lastPosition?_eq_none_iff] using h

end Scope

namespace Frame

variable {F : Frame} {x : String} {xs ys : List String}

def Lists (F : Frame) (xs : List String) : Prop := F.scope.names = xs.map some

theorem Lists.position?_eq_none (h : F.Lists xs) (hx : x ∉ xs) : F.scope.position? x = none := by
  rw [Scope.position?, h]
  exact Scope.lastPosition?_eq_none hx

theorem Lists.position? (h : F.Lists (xs ++ x :: ys)) (hx : x ∉ ys) :
    F.scope.position? x = some xs.length := by
  rw [Scope.position?, h, List.map_append, Scope.lastPosition?_append, List.map_cons,
    Scope.lastPosition?, Scope.lastPosition?_eq_none hx]
  simp

theorem Lists.size (h : F.Lists xs) : F.size = xs.length := by
  rw [Frame.size, Scope.size, h, List.length_map]

theorem Lists.declare {G : Frame} (h : F.Lists xs) (hG : G.scope = F.scope.declare (some x)) :
    G.Lists (xs ++ [x]) := by
  rw [Lists, hG, Scope.declare, h, List.map_append]
  rfl

end Frame

namespace Phrase

variable {F : Frame} {kind : DimKind} {xs ys : List String}

/-- A phrase that makes a frame with these names and restricts no point. -/
def Declares (xs : List String) (phrase : Frame → (Row → Prop) → Prop) : Prop :=
  ∃ G D, phrase G D ∧ G.Lists xs ∧ ∀ x, D x

def nameTokens (xs : List String) : List Lexeme :=
  [.mark .comma].intercalate (xs.map fun x => [.identifier x])

theorem writes_names (h : ∀ x ∈ xs, IsName x) : Writes (", ".intercalate xs) (nameTokens xs) := by
  refine separator_comma.intercalate ?_
  rw [List.forall₂_map_right_iff, List.forall₂_same]
  exact fun x hx => writes_name (h x hx)

theorem declares_names (declare : Frame → String → Frame)
    (phrase : Frame → List String → List Lexeme → Frame → (Row → Prop) → Prop)
    (hdeclare : ∀ F x, (declare F x).scope = F.scope.declare (some x))
    (hlast : ∀ {F x}, F.scope.position? x = none →
      phrase F [x] [.identifier x] (declare F x) fun _ => True)
    (hmore : ∀ {F x G ys ls D}, F.scope.position? x = none → phrase (declare F x) ys ls G D →
      phrase F (x :: ys) ([.identifier x] ++ .mark .comma :: ls) G fun r => True ∧ D r)
    (hF : F.Lists xs) (hnodup : (xs ++ ys).Nodup) (hne : ys ≠ []) :
    Declares (xs ++ ys) (phrase F ys (nameTokens ys)) := by
  induction ys generalizing F xs with
  | nil => exact absurd rfl hne
  | cons y ys ih =>
    have hy : y ∉ xs := fun hmem => (List.nodup_append.1 hnodup).2.2 y hmem y List.mem_cons_self rfl
    have hfree := hF.position?_eq_none hy
    have hG := hF.declare (hdeclare F y)
    cases ys with
    | nil => exact ⟨_, _, hlast hfree, hG, fun _ => trivial⟩
    | cons z zs =>
      rw [List.append_cons] at hnodup ⊢
      obtain ⟨G, D, hD, hlists, hall⟩ := ih hG hnodup (by simp)
      exact ⟨G, _, hmore hfree hD, hlists, fun r => ⟨trivial, hall r⟩⟩

theorem declares_items (kind : DimKind) (hF : F.Lists xs) (hnodup : (xs ++ ys).Nodup)
    (hne : ys ≠ []) : Declares (xs ++ ys)
      (Items kind F (nameTokens ys) · (ys.map fun y => some (Grammar.dimensionName y))) :=
  declares_names (fun F x => F.declareAs kind (some x))
    (fun F ys ls G => Items kind F ls G (ys.map fun y => some (Grammar.dimensionName y)))
    (fun _ _ => Frame.scope_declareAs) (fun h => .last (.free h)) (fun h hs => .more (.free h) hs)
    hF hnodup hne

theorem declares_variables (hF : F.Lists xs) (hnodup : (xs ++ ys).Nodup) (hne : ys ≠ []) :
    Declares (xs ++ ys) (Variables F (nameTokens ys)) :=
  declares_names (fun F x => F.declare (some x)) (fun F _ ls G => Variables F ls G)
    (fun _ _ => rfl) (fun h => .last (.free h)) (fun h hs => .more (.free h) hs) hF hnodup hne

theorem declares_bracketed (kind : DimKind) (hF : F.Lists xs) (hnodup : (xs ++ ys).Nodup) :
    Declares (xs ++ ys) (Bracketed kind F
      (.mark .leftBracket :: (nameTokens ys ++ [.mark .rightBracket])) ·
      (.flat none (ys.map fun y => some (Grammar.dimensionName y)))) := by
  by_cases hne : ys = []
  · subst hne
    exact ⟨F, _, .unit, by rwa [List.append_nil], fun _ => trivial⟩
  · obtain ⟨G, D, hD, hG, hall⟩ := declares_items kind hF hnodup hne
    exact ⟨G, D, .flat hD, hG, hall⟩

end Phrase

theorem IsTitle.writes {x : String} (h : IsTitle x) :
    ∃ l, Grammar.mayNameTuple l = true ∧ l.tupleName = some x ∧ Writes x [l] := by
  rcases h with h | ⟨word, rfl⟩
  · exact ⟨.identifier x, rfl, rfl, writes_name h⟩
  · exact ⟨.keyword word true, rfl, rfl, writes_keyword word⟩

namespace Phrase

variable {F G : Frame} {kind : DimKind} {name : Label} {text : String} {t : Tuple}
  {ls : List Lexeme} {D : Row → Prop} {xs ys : List String}

theorem shape_titled (hname : ∀ x ∈ name, IsTitle x) (hw : Writes ("[" ++ text) ls)
    (hb : Bracketed kind F ls G t D) :
    ∃ ls', Writes (name.getD "" ++ ("[" ++ text)) ls' ∧ Shape kind F ls' G (t.rename name) D := by
  cases name with
  | none => exact ⟨ls, by simpa using hw, .unnamed hb⟩
  | some x =>
    obtain ⟨l, hl, htitle, hx⟩ := (hname x rfl).writes
    refine ⟨l :: ls, hx.append hw ?_, htitle ▸ .named hl hb⟩
    rw [Separated, String.toList_append]
    rintro a ⟨⟩
    rfl

theorem declares_tuple (ht : t.Writable) (hF : F.Lists xs) (hlength : ys.length = t.size)
    (hnodup : (xs ++ ys).Nodup) (hnames : ∀ y ∈ ys, IsName y) :
    ∃ ls t', Writes (t.text ys) ls ∧ t.sameShape t' = true ∧
      Declares (xs ++ ys) (Shape .output F ls · t') := by
  induction t generalizing F xs ys with
  | flat name ids =>
    obtain ⟨G, D, hD, hG, hall⟩ := declares_bracketed .output hF hnodup
    obtain ⟨ls, hls, hshape⟩ := shape_titled ht (writes_names hnames).inBrackets hD
    refine ⟨ls, _, ?_, ?_, G, D, hshape, hG, hall⟩
    · simpa [Tuple.text, String.append_assoc] using hls
    · have hids : ids.length = ys.length := hlength.symm
      simp [Tuple.rename, Tuple.sameShape, hids]
  | wrapping name ids domain range ihd ihr =>
    obtain ⟨hname, hids, hdomain, hrange⟩ := ht
    have hsize : ys.length = domain.size + range.size := hlength.trans hids
    rw [← List.take_append_drop domain.size ys, ← List.append_assoc] at hnodup
    obtain ⟨ls, d, hls, hd, G, D, hD, hG, hallD⟩ := ihd hdomain hF (by simp [hsize])
      (List.nodup_append.1 hnodup).1 fun y hy => hnames y (List.mem_of_mem_take hy)
    obtain ⟨ls', r, hls', hr, H, E, hE, hH, hallE⟩ := ihr hrange hG (by simp [hsize]) hnodup
      fun y hy => hnames y (List.mem_of_mem_drop hy)
    have hnot : DimKind.output ≠ .param := by decide
    have hwrap := Bracketed.wrap hnot hD hE
    have hw := (separator_arrow.between hls hls').inBrackets
    rw [List.append_assoc, List.cons_append] at hw
    obtain ⟨ls'', hls'', hshape⟩ := shape_titled hname hw hwrap
    rw [List.append_assoc, List.take_append_drop] at hH
    refine ⟨ls'', _, ?_, ?_, H, _, hshape, hH, fun x => ⟨hallD _, hallE x⟩⟩
    · simpa [Tuple.text, String.append_assoc] using hls''
    · have hdids := Tuple.size_eq_of_sameShape hd
      have hrids := Tuple.size_eq_of_sameShape hr
      simp only [Tuple.size] at hdids hrids hids
      simp [Tuple.wrap, Tuple.rename, Tuple.sameShape, hd, hr, hids, hdids, hrids]

end Phrase

end Quasiaffine
