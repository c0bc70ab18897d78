import QirProfile.Program.Edit

/-!
# Building instructions at a place

A builder makes instructions and puts them at its place in the program. The place `after` moves
behind each instruction made there, so that a sequence keeps its order. An instruction that cannot
be put in its place has been made all the same: its number is used up.
-/

namespace QirProfile

/-- Where new instructions go. -/
inductive Place where
  | before (anchor : InstrId)
  | after (anchor : InstrId)
  | endOf (block : BlockId)
  /-- Nowhere: instructions are made and stand in no block. -/
  | detached
  deriving DecidableEq

/-- How a place is written. -/
def Place.text : Place → String
  | before i => "before " ++ i.text
  | after i => "after " ++ i.text
  | endOf b => "end " ++ b.text
  | detached => "detached"

namespace Edit

/-- Makes an instruction at a place; gives its handle and the place for the next one. -/
def insertMoving (place : Place) (kind : InstrKind) (ty : Ty) (operands : List Value)
    (name : Option String) : Edit (InstrId × Place) := do
  let id ← make (·.createInstr kind ty operands)
  modify (·.setInstrName id name)
  match place with
  | .before anchor =>
    attempt (·.insertBefore anchor id)
    return (id, place)
  | .after anchor =>
    attempt (·.insertAfter anchor id)
    return (id, .after id)
  | .endOf b =>
    attempt (·.appendInstr b id)
    return (id, place)
  | .detached => return (id, place)

/-- An instruction that a builder can make. -/
structure Draft where
  kind : InstrKind
  ty : Ty
  operands : List Value
  name : Option String := none

/-- Makes one drafted instruction at a place. -/
def insert (place : Place) (d : Draft) : Edit InstrId := do
  return (← insertMoving place d.kind d.ty d.operands d.name).1

end Edit

namespace Program

open Edit (Draft)

/-- A direct call. A call without a result has no name. -/
def draftCall (p : Program) (callee : FuncId) (args : List Value) (name : Option String) : Draft :=
  let ty := (p.func callee).ret
  ⟨.call .none, ty, args ++ [.func callee], if ty.isVoid then none else name⟩

/-- A conversion. -/
def draftCast (op : CastOp) (v : Value) (target : Ty) (name : Option String) : Draft :=
  ⟨.cast op, target, [v], name⟩

/-- A binary operation with the type of its left operand. -/
def draftBinary (p : Program) (op : BinaryOp) (lhs rhs : Value) (name : Option String) : Draft :=
  ⟨.binary op, p.valueTy lhs, [lhs, rhs], name⟩

/-- The negation of all bits. -/
def draftNot (p : Program) (v : Value) (name : Option String) : Draft :=
  let ty := p.valueTy v
  ⟨.binary .xor, ty, [v, .ofInt (ty.width?.getD 1) (-1)], name⟩

/-- An unconditional branch. -/
def draftBr (dest : BlockId) : Draft :=
  ⟨.br, .void, [.block dest], none⟩

/-- A conditional branch. -/
def draftCondBr (cond : Value) (ifTrue ifFalse : BlockId) : Draft :=
  ⟨.br, .void, [cond, .block ifFalse, .block ifTrue], none⟩

/-- A return. -/
def draftRet (v : Option Value) : Draft :=
  ⟨.ret, .void, v.toList, none⟩

end Program

end QirProfile
