/-!
# Operators of instructions

The operators an instruction can carry and the words they are written with. For each kind, `name`
gives the word and `ofName?` reads it back.
-/

namespace QirProfile

/-! ## 1. Binary operators -/

/-- Binary operators on integers and floats. -/
inductive BinaryOp where
  | add | sub | mul | udiv | sdiv | urem | srem | shl | lshr | ashr | and | or | xor
  | fadd | fsub | fmul | fdiv
  deriving DecidableEq, Repr

namespace BinaryOp

/-- The operator's word. -/
def name : BinaryOp → String
  | add => "add" | sub => "sub" | mul => "mul" | udiv => "udiv" | sdiv => "sdiv"
  | urem => "urem" | srem => "srem" | shl => "shl" | lshr => "lshr" | ashr => "ashr"
  | and => "and" | or => "or" | xor => "xor"
  | fadd => "fadd" | fsub => "fsub" | fmul => "fmul" | fdiv => "fdiv"

/-- The operator that a word names. -/
def ofName? : String → Option BinaryOp
  | "add" => some add | "sub" => some sub | "mul" => some mul | "udiv" => some udiv
  | "sdiv" => some sdiv | "urem" => some urem | "srem" => some srem | "shl" => some shl
  | "lshr" => some lshr | "ashr" => some ashr | "and" => some and | "or" => some or
  | "xor" => some xor | "fadd" => some fadd | "fsub" => some fsub | "fmul" => some fmul
  | "fdiv" => some fdiv
  | _ => none

@[simp] theorem ofName?_name (op : BinaryOp) : ofName? op.name = some op := by
  cases op <;> rfl

end BinaryOp

/-! ## 2. Comparisons -/

/-- Integer comparisons: equality, unsigned order, signed order. -/
inductive Predicate where
  | eq | ne | ugt | uge | ult | ule | sgt | sge | slt | sle
  deriving DecidableEq, Repr

namespace Predicate

/-- The comparison's word. -/
def name : Predicate → String
  | eq => "eq" | ne => "ne" | ugt => "ugt" | uge => "uge" | ult => "ult" | ule => "ule"
  | sgt => "sgt" | sge => "sge" | slt => "slt" | sle => "sle"

/-- The comparison that a word names. -/
def ofName? : String → Option Predicate
  | "eq" => some eq | "ne" => some ne | "ugt" => some ugt | "uge" => some uge
  | "ult" => some ult | "ule" => some ule | "sgt" => some sgt | "sge" => some sge
  | "slt" => some slt | "sle" => some sle
  | _ => none

@[simp] theorem ofName?_name (p : Predicate) : ofName? p.name = some p := by
  cases p <;> rfl

end Predicate

/-! ## 3. Conversions -/

/-- Conversions between types. -/
inductive CastOp where
  | trunc | zext | sext | bitcast | inttoptr | ptrtoint
  | sitofp | uitofp | fptosi | fptoui | fpext | fptrunc
  deriving DecidableEq, Repr

namespace CastOp

/-- The conversion's word. -/
def name : CastOp → String
  | trunc => "trunc" | zext => "zext" | sext => "sext" | bitcast => "bitcast"
  | inttoptr => "inttoptr" | ptrtoint => "ptrtoint" | sitofp => "sitofp" | uitofp => "uitofp"
  | fptosi => "fptosi" | fptoui => "fptoui" | fpext => "fpext" | fptrunc => "fptrunc"

/-- The conversion that a word names. -/
def ofName? : String → Option CastOp
  | "trunc" => some trunc | "zext" => some zext | "sext" => some sext
  | "bitcast" => some bitcast | "inttoptr" => some inttoptr | "ptrtoint" => some ptrtoint
  | "sitofp" => some sitofp | "uitofp" => some uitofp | "fptosi" => some fptosi
  | "fptoui" => some fptoui | "fpext" => some fpext | "fptrunc" => some fptrunc
  | _ => none

@[simp] theorem ofName?_name (op : CastOp) : ofName? op.name = some op := by
  cases op <;> rfl

end CastOp

/-! ## 4. Tail markers -/

/-- What a call says about its stack frame. -/
inductive TailMarker where
  | none | tail | mustTail | noTail
  deriving DecidableEq, Repr

namespace TailMarker

/-- The word before `call`, with the blank after it. -/
def lead : TailMarker → String
  | none => "" | tail => "tail " | mustTail => "musttail " | noTail => "notail "

/-- The marker's own word, `none` where the call has none. -/
def name : TailMarker → String
  | none => "none" | tail => "tail" | mustTail => "musttail" | noTail => "notail"

/-- The marker that a word names. -/
def ofName? : String → Option TailMarker
  | "none" => some none | "tail" => some tail | "musttail" => some mustTail
  | "notail" => some noTail
  | _ => Option.none

end TailMarker

end QirProfile
