import Quasiaffine.Proofs.Piecewise.Choice
import Quasiaffine.Reader.Grammar

set_option autoImplicit false

namespace Quasiaffine

namespace Scope

@[simp] theorem size_declare (sc : Scope) (label : Label) :
    (sc.declare label).size = sc.size + 1 := by
  simp [declare, size]

/-- The values of all names at a point. A name that is not in scope has the value zero. -/
def env (sc : Scope) (x : Row) (name : String) : Int := (sc.position? name).elim 0 x.entry

variable {sc : Scope} {name : String} {x y : Row}

theorem env_eq_entry {pos : Nat} (h : sc.position? name = some pos) :
    sc.env x name = x.entry pos := by
  rw [env, h]
  rfl

/-- Only the coordinates of the variables in scope count. -/
theorem env_append (hx : x.length = sc.size) : sc.env (x ++ y) = sc.env x := by
  funext name
  rw [env, env]
  cases hpos : sc.position? name with
  | none => rfl
  | some pos => exact Row.entry_append_left y (by rw [hx]; exact lt_size_of_position? hpos)

theorem lastPosition?_eq_none_iff {labels : List Label} :
    lastPosition? name labels = none ↔ some name ∉ labels := by
  induction labels with
  | nil => simp [lastPosition?]
  | cons l ls ih =>
    rw [List.mem_cons, not_or, ← ih, lastPosition?]
    cases lastPosition? name ls with
    | none => simp [eq_comm]
    | some i => simp

theorem lastPosition?_append (name : String) (ls ms : List Label) :
    lastPosition? name (ls ++ ms) =
      ((lastPosition? name ms).map (ls.length + ·)).or (lastPosition? name ls) := by
  induction ls with
  | nil => simp [lastPosition?]
  | cons l ls ih =>
    rw [List.cons_append, lastPosition?, ih, lastPosition?]
    cases lastPosition? name ms with
    | none => simp
    | some i => simp [Nat.add_right_comm]

theorem position?_declare_of_ne {label : Label} (h : label ≠ some name) :
    (sc.declare label).position? name = sc.position? name := by
  rw [position?, declare, lastPosition?_append]
  simp [lastPosition?, h, position?]

end Scope

/-- The variables in scope, of which the first are parameters. -/
structure Frame where
  params : Nat
  scope : Scope
  within : params ≤ scope.size

namespace Frame

variable {F : Frame}

def size (F : Frame) : Nat := F.scope.size

def space (F : Frame) : Space := .anonymousSet F.params (F.size - F.params)

@[simp] theorem total_space (F : Frame) : F.space.total = F.size := by
  rw [space, Relation.total_anonymousSet]
  exact Nat.add_sub_of_le F.within

theorem proper_space (F : Frame) : F.space.Proper := Relation.proper_anonymousSet

def declare (F : Frame) (label : Label) : Frame :=
  ⟨F.params, F.scope.declare label, Nat.le_trans F.within (by simp)⟩

def declareParam (F : Frame) (label : Label) : Frame :=
  ⟨F.scope.size + 1, F.scope.declare label, by simp⟩

@[simp] theorem size_declare (F : Frame) (label : Label) : (F.declare label).size = F.size + 1 := by
  simp [size, declare]

theorem size_declareParam (F : Frame) (label : Label) :
    (F.declareParam label).size = F.size + 1 := by
  simp [size, declareParam]

theorem variableAt_eq_ok {pos : Nat} (h : pos < F.size) :
    ∃ f, Grammar.variableAt F.space pos = .ok f ∧ f.Denotes F.space fun x => x.entry pos := by
  have hwithin := F.within
  have hsize : F.size = F.scope.size := rfl
  have hparam : F.space.dim .param = F.params := Relation.dim_anonymousSet_param
  have houtput : F.space.dim .output = F.size - F.params := Relation.dim_anonymousSet_output
  rw [Grammar.variableAt, hparam]
  by_cases hpos : pos < F.params
  · obtain ⟨a, hok, ha⟩ := Affine.var_eq_ok (s := F.space) .param pos (by decide)
      (by rw [hparam]; exact hpos)
    refine ⟨.ofAffine a, by simp only [if_pos hpos, hok]; rfl, ?_⟩
    simpa [Space.offset] using Piecewise.denotes_ofAffine ha F.proper_space
  · obtain ⟨a, hok, ha⟩ := Affine.var_eq_ok (s := F.space) .output
      (pos - F.params) (by decide) (by rw [houtput]; omega)
    have hoff : F.space.offset .output + (pos - F.params) = pos := by
      rw [space, Relation.offset_anonymousSet_output]
      omega
    rw [hoff] at ha
    exact ⟨.ofAffine a, by simp only [if_neg hpos, hok]; rfl,
      Piecewise.denotes_ofAffine ha F.proper_space⟩

end Frame

end Quasiaffine
