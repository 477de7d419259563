import Quasiaffine.Affine.Basic

set_option autoImplicit false

namespace Quasiaffine.LocalSpace

/-- With `g / s` for the dimension in column `j`, a division `⌊(a x + f) / m⌋` becomes
`⌊(a g + s f) / (s m)⌋`. -/
def replaceColumn (replacement : Row) (j : Nat) (row : Row) : Row :=
  let a := row.entry j
  if a = 0 then row
  else
    let s := replacement.entry 0
    let rest := Row.scale s ((row.set j 0).drop 1)
    Division.normalize (row.entry 0 * s :: Row.combine 1 a rest (replacement.drop 1))

def substitute (ls : LocalSpace) (kind : DimKind) (pos : Nat) (replacement : Affine) :
    Except Error LocalSpace := do
  require (ls.space.agrees replacement.space) .replacementElsewhere
  if replacement.ls.divCount ≠ 0 then throw (.unsupported .replacementWithDivisions)
  require (kind ≠ .div && pos < ls.dim kind) (.notReplaceable kind pos)
  return { ls with
    divs := ls.divs.mapRows ls.divs.columns (replaceColumn replacement.row (ls.column kind pos)) }

end Quasiaffine.LocalSpace
