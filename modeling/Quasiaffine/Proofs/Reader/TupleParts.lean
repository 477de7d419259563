import Quasiaffine.Reader.Shape

set_option autoImplicit false

namespace Quasiaffine.Grammar

open Reading

def closeTuple (name : Label) (shaped : Shaped) : Reading Shaped := do
  expectMark .rightBracket
  return { shaped with tuple := shaped.tuple.rename name }

def insideTuple (depth : Nat) (kind : DimKind) (set : Relation) (name : Label) (wraps : Bool) :
    Reading Shaped := do
  let closes ← nextIsMark .rightBracket
  if wraps then
    let domain ← tuple depth kind set
    expectMark .arrow
    let range ← tuple depth kind domain.set
    closeTuple name ⟨range.set, .wrap none domain.tuple range.tuple⟩
  else if closes then
    closeTuple name ⟨set, .unit⟩
  else
    let read ← items depth kind ⟨set, []⟩
    closeTuple name ⟨read.set, .flat none read.labels⟩

def openTuple (depth : Nat) (kind : DimKind) (set : Relation) (name : Label) (opening : Token) :
    Reading Shaped :=
  if opening.kind ≠ .mark .leftBracket then
    stop (opening.unfit .tuple)
  else if kind = .param then
    insideTuple depth kind set name false
  else do
    let wraps ← startsRelation depth
    insideTuple depth kind set name wraps

theorem tuple_succ (depth : Nat) (kind : DimKind) (set : Relation) :
    tuple (depth + 1) kind set = (do
      enter
      let t ← next
      if mayNameTuple t.lexeme then
        let opening ← next
        openTuple depth kind set t.lexeme.tupleName opening
      else
        openTuple depth kind set none t) := by
  have hstop : ∀ (e : Error) (k : PUnit → Reading Shaped), (stop e >>= k) = stop e :=
    fun _ _ => rfl
  rw [tuple]
  simp only [openTuple, insideTuple, closeTuple, pure_bind, hstop]
  refine congrArg (enter >>= ·) (funext fun _ => congrArg (next >>= ·) (funext fun t => ?_))
  cases mayNameTuple t.lexeme <;> simp only [Bool.false_eq_true, if_false, if_true]

end Quasiaffine.Grammar
