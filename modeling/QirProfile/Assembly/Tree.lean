import QirProfile.Program.Basic

/-!
# Syntax trees of program text

A tree stays close to the text: symbols are not resolved, and a constant does not know its type
except where the text gives one.
-/

namespace QirProfile.Assembly

/-- A local or global symbol. -/
inductive Symbol where
  | named (name : String)
  | numbered (n : Nat)
  deriving DecidableEq

namespace Symbol

/-- The name a node keeps; a numbered one is unnamed. -/
def name? : Symbol → Option String
  | named name => some name
  | numbered _ => none

/-- The text under which definitions and uses meet. -/
def key : Symbol → String
  | named name => name
  | numbered n => toString n

end Symbol

mutual

/-- A value as it is written. -/
inductive Term where
  | local (symbol : Symbol)
  | global (symbol : Symbol)
  | int (value : Int)
  | bool (value : Bool)
  | float (bits : UInt64)
  | null
  | undef
  | zero
  | bytes (data : List UInt8)
  | array (elements : List TypedTerm)
  | struct (fields : List TypedTerm)
  | cast (op : CastOp) (value : TypedTerm) (target : Ty)
  | gep (inbounds : Bool) (source : Ty) (base : TypedTerm) (indices : List TypedTerm)

/-- A value with the type written before it. -/
inductive TypedTerm where
  | mk (ty : Ty) (term : Term)

end

/-- The written type. -/
def TypedTerm.ty : TypedTerm → Ty
  | mk ty _ => ty

/-- The written value. -/
def TypedTerm.term : TypedTerm → Term
  | mk _ term => term

/-- What an instruction does, as it is written. -/
inductive Operation where
  | ret (value : Option TypedTerm)
  | br (dest : Symbol)
  | condBr (cond : TypedTerm) (ifTrue ifFalse : Symbol)
  | switch (cond : TypedTerm) (default : Symbol) (cases : List (TypedTerm × Symbol))
  | unreachable
  | call (marker : TailMarker) (ret : Ty) (callee : Term) (args : List TypedTerm)
  | invoke (ret : Ty) (callee : Term) (args : List TypedTerm) (normal unwind : Symbol)
  | binary (op : BinaryOp) (ty : Ty) (lhs rhs : Term)
  | icmp (pred : Predicate) (ty : Ty) (lhs rhs : Term)
  | cast (op : CastOp) (value : TypedTerm) (target : Ty)
  | load (ty : Ty) (ptr : TypedTerm) (align : Option Nat)
  | store (value ptr : TypedTerm) (align : Option Nat)
  | alloca (ty : Ty) (align : Option Nat)
  | gep (inbounds : Bool) (source : Ty) (base : TypedTerm) (indices : List TypedTerm)
  | select (cond ifTrue ifFalse : TypedTerm)
  | phi (ty : Ty) (incoming : List (Term × Symbol))

/-- An alignment given behind an instruction. Only memory operations keep it. -/
def Operation.withAlign (align : Nat) : Operation → Operation
  | load ty ptr _ => load ty ptr (some align)
  | store value ptr _ => store value ptr (some align)
  | alloca ty _ => alloca ty (some align)
  | op => op

/-- One instruction. -/
structure InstrTree where
  result : Option Symbol
  operation : Operation
  line : Nat

/-- A block; the entry may have no label. -/
structure BlockTree where
  label : Option Symbol
  instrs : List InstrTree

/-- A global variable. -/
structure GlobalTree where
  name : Symbol
  ty : Ty
  linkage : Option String
  unnamedAddr : Option String
  constant : Bool
  initializer : Option Term
  align : Option Nat

/-- A function; a declaration has no blocks. -/
structure FuncTree where
  name : String
  ret : Ty
  params : List (Ty × Option Symbol)
  varArg : Bool
  linkage : Option String
  unnamedAddr : Option String
  attributes : List Attribute
  groups : List Nat
  blocks : List BlockTree

/-- A whole program text. -/
structure ProgramTree where
  sourceFile : Option String := none
  dataLayout : Option String := none
  targetTriple : Option String := none
  namedTypes : List (String × Option Ty) := []
  globals : List GlobalTree := []
  functions : List FuncTree := []
  groups : List (Nat × List Attribute) := []

end QirProfile.Assembly
