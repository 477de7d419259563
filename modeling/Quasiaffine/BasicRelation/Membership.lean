import Quasiaffine.BasicRelation.Definitions

/-!
Testing whether a point belongs to a basic relation. Divisions get their values one after the
other: those with a definition are computed, those that an equality fixes are solved for, and all
others are searched within a window of limited size.
-/

set_option autoImplicit false

namespace Quasiaffine.BasicRelation

/-- How far a search goes from a bound, or from zero where there is no bound. -/
def defaultRadius : Nat := 32

def holdsSoFar (b : BasicRelation) (values : Row) : Bool :=
  (b.constraints.filter (·.isZeroFrom values.length)).all (·.isSatisfied values)

/-- What constraints leave of the values of a division: those an equality solves to, or those
between two bounds, either of which may be missing. -/
inductive Window where
  | solved (values : List Int)
  | between (low high : Option Int)
  deriving DecidableEq, Repr

namespace Window

def raise (low : Option Int) (bound : Int) : Option Int :=
  match low with
  | some l => some (if l < bound then bound else l)
  | none => some bound

def lower (high : Option Int) (bound : Int) : Option Int :=
  match high with
  | some h => some (if bound < h then bound else h)
  | none => some bound

/-- Takes into account that a constraint `a d + rest` holds, where `a` is not zero. The first
equality settles the matter. -/
def narrow (window : Window) (kind : ConstraintKind) (a rest : Int) : Window :=
  match window, kind with
  | solved values, _ => solved values
  | between _ _, .equality =>
    solved (if (-rest).tmod a = 0 then [(-rest).tdiv a] else [])
  | between low high, .inequality =>
    if 0 < a then between (raise low (ceilDiv (-rest) a)) high
    else between low (lower high (rest.fdiv (-a)))

def integers (first last : Int) : List Int :=
  (List.range (last + 1 - first).toNat).map fun (i : Nat) => first + (i : Int)

/-- The values to try. A window with one bound or none is cut off, and a wide one is cut short. -/
def candidates (radius : Int) : Window → List Int
  | solved values => values
  | between (some l) (some h) => integers l (if l + radius * 2 < h then l + radius * 2 else h)
  | between (some l) none => integers l (l + radius * 2)
  | between none (some h) => integers (h - radius * 2) h
  | between none none => integers (-radius) radius

end Window

def candidates (b : BasicRelation) (radius : Int) (div values : Row) : List Int :=
  if Division.isKnown div then [Division.value div values]
  else
    let pos := values.length
    -- Constraints that mention a later division cannot be used yet.
    let window := (b.constraints.filter (boundsLast pos)).foldl
      (fun window c => window.narrow c.kind (c.row.entry pos) (Row.dot (c.row.take pos) values))
      (Window.between none none)
    window.candidates radius

def search (b : BasicRelation) (radius : Int) : List Row → Row → Bool
  | [], values => b.constraints.all (·.isSatisfied values)
  | div :: divs, values =>
    (b.candidates radius div values).any fun value =>
      b.holdsSoFar (values ++ [value]) && b.search radius divs (values ++ [value])

/-- Whether a point, with a value for every dimension of the space, belongs to the relation. -/
def contains (b : BasicRelation) (point : Row) (radius : Nat) : Except Error Bool := do
  require (point.length == b.space.total) (.pointSize point.length b.space.total)
  return !b.contradictory && b.holdsSoFar (1 :: point)
    && b.search radius b.ls.divs.rows (1 :: point)

end Quasiaffine.BasicRelation
