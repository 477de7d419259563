set_option autoImplicit false

namespace Quasiaffine

inductive Json where
  | null
  | boolean (value : Bool)
  | integer (value : Int)
  | text (value : String)
  | list (elements : List Json)
  | object (fields : List (String × Json))
  /-- A well written value without any meaning here: a number with a point or an exponent, minus
  zero, text that holds half of a surrogate pair, or a list or an object that is nested too deeply. -/
  | foreign
  deriving Repr, Inhabited

namespace Json

mutual

def depth : Json → Nat
  | list elements => depthOfElements elements + 1
  | object fields => depthOfFields fields + 1
  | _ => 0

def depthOfElements : List Json → Nat
  | [] => 0
  | j :: js => max j.depth (depthOfElements js)

def depthOfFields : List (String × Json) → Nat
  | [] => 0
  | (_, j) :: fs => max j.depth (depthOfFields fs)

end

mutual

/-- The value as far as `room` levels of lists and objects reach. Those below lose their meaning. -/
def within (room : Nat) : Json → Json
  | list elements => if room = 0 then foreign else list (elementsWithin (room - 1) elements)
  | object fields => if room = 0 then foreign else object (fieldsWithin (room - 1) fields)
  | j => j

def elementsWithin (room : Nat) : List Json → List Json
  | [] => []
  | j :: js => j.within room :: elementsWithin room js

def fieldsWithin (room : Nat) : List (String × Json) → List (String × Json)
  | [] => []
  | (name, j) :: fs => (name, j.within room) :: fieldsWithin room fs

end

mutual

theorem within_of_depth_le {room : Nat} {j : Json} (h : j.depth ≤ room) : j.within room = j := by
  match j with
  | list elements =>
    simp only [depth] at h
    rw [within, if_neg (by omega), elementsWithin_of_depth_le (by omega)]
  | object fields =>
    simp only [depth] at h
    rw [within, if_neg (by omega), fieldsWithin_of_depth_le (by omega)]
  | null | boolean _ | integer _ | text _ | foreign => rfl

theorem elementsWithin_of_depth_le {room : Nat} {js : List Json}
    (h : depthOfElements js ≤ room) : elementsWithin room js = js := by
  match js with
  | [] => rfl
  | j :: js =>
    simp only [depthOfElements, Nat.max_le] at h
    rw [elementsWithin, within_of_depth_le h.1, elementsWithin_of_depth_le h.2]

theorem fieldsWithin_of_depth_le {room : Nat} {fs : List (String × Json)}
    (h : depthOfFields fs ≤ room) : fieldsWithin room fs = fs := by
  match fs with
  | [] => rfl
  | (_, j) :: fs =>
    simp only [depthOfFields, Nat.max_le] at h
    rw [fieldsWithin, within_of_depth_le h.1, fieldsWithin_of_depth_le h.2]

end

/-- The values of the named fields, none for a missing one. A list of at least `least` values in
the order of the names may stand for the object. Fields of other names do not matter; a field of
one of the names may not be repeated. -/
def fieldsFrom? (least : Nat) (names : List String) : Json → Option (List (Option Json))
  | list elements =>
    if least ≤ elements.length ∧ elements.length ≤ names.length then
      some (elements.map some ++ List.replicate (names.length - elements.length) none)
    else none
  | object fields =>
    if names.all (fun name => fields.countP (·.1 == name) ≤ 1) then
      some (names.map fun name => fields.lookup name)
    else none
  | _ => none

def fields? (names : List String) (j : Json) : Option (List (Option Json)) :=
  j.fieldsFrom? names.length names

def elements? {α : Type} (f : Json → Option α) : Json → Option (List α)
  | list elements => elements.mapM f
  | _ => none

def boolean? : Json → Option Bool
  | boolean value => some value
  | _ => none

def natural? (bound : Nat) : Json → Option Nat
  | integer value => if 0 ≤ value ∧ value < bound then some value.toNat else none
  | _ => none

theorem natural?_natCast {bound n : Nat} (h : n < bound) :
    natural? bound (integer n) = some n := by
  simp only [natural?, Int.natCast_nonneg, Int.ofNat_lt, h, and_self, if_true, Int.toNat_natCast]

theorem elements?_map {α : Type} {json : α → Json} {f : Json → Option α} {xs : List α}
    (h : ∀ x ∈ xs, f (json x) = some x) : elements? f (list (xs.map json)) = some xs := by
  simp only [elements?]
  induction xs with
  | nil => rfl
  | cons x xs ih =>
    have hx := h x (by simp)
    have hxs := ih fun y hy => h y (by simp [hy])
    simp [hx, hxs]

end Json

end Quasiaffine
