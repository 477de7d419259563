import Quasiaffine.Space.Basic

set_option autoImplicit false

namespace Quasiaffine

structure Scope where
  /-- A variable may be anonymous. -/
  names : List Label
  deriving DecidableEq, Repr, Inhabited

namespace Scope

def empty : Scope := ⟨[]⟩

def size (s : Scope) : Nat := s.names.length

def lastPosition? (name : String) : List Label → Option Nat
  | [] => none
  | label :: labels =>
    match lastPosition? name labels with
    | some i => some (i + 1)
    | none => if label = some name then some 0 else none

/-- The position of the variable that a name stands for: the one declared last. -/
def position? (s : Scope) (name : String) : Option Nat := lastPosition? name s.names

def declare (s : Scope) (label : Label) : Scope := ⟨s.names ++ [label]⟩

def label (s : Scope) (pos : Nat) : Label := (s.names[pos]?).join

def labels (s : Scope) (first n : Nat) : List Label := (s.names.drop first).take n

def rollback (s : Scope) (mark : Nat) : Scope := ⟨s.names.take mark⟩

def drop (s : Scope) (n : Nat) : Scope := s.rollback (s.size - n)

theorem position?_declare (s : Scope) (name : String) :
    (s.declare (some name)).position? name = some s.size := by
  unfold position? declare size
  simp only
  induction s.names with
  | nil => simp [lastPosition?]
  | cons l ls ih => simp [lastPosition?, ih]

theorem lt_size_of_position? {s : Scope} {name : String} {pos : Nat}
    (h : s.position? name = some pos) : pos < s.size := by
  unfold position? at h
  unfold size
  generalize s.names = labels at h
  induction labels generalizing pos with
  | nil => simp [lastPosition?] at h
  | cons l ls ih =>
    simp only [lastPosition?] at h
    split at h
    · rename_i i hi
      have := ih hi
      simp only [Option.some.injEq] at h
      simp only [List.length_cons]
      omega
    · split at h <;> simp_all
      omega

end Scope

end Quasiaffine
