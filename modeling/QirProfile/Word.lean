import QirProfile.Opcode
import QirProfile.Span

/-!
# Integers of a given width

An integer constant of width `w` is held as the number that its lowest `w` bits write in two's
complement (`normalize`), and read without sign as the number those bits write (`unsigned`).
Words have at most 64 bits: width 0 and every width from 64 on use all 64 of them.
-/

namespace QirProfile.Word

/-! ## 1. Readings -/

/-- The number of bits that count at a type's width. -/
def bits (width : Nat) : Nat :=
  if width = 0 ∨ 64 ≤ width then 64 else width

/-- The signed reading of the lowest bits at the given width. -/
def normalize (value : Int) (width : Nat) : Int :=
  value.bmod (span (bits width))

/-- The unsigned reading of the lowest bits at the given width. -/
def unsigned (value : Int) (width : Nat) : Nat :=
  (value % span (bits width)).toNat

/-- The least signed word of 64 bits. -/
def least : Int := -(span 63 : Int)

/-- The greatest signed word of 64 bits. -/
def greatest : Int := span 63 - 1

/-- Whether a number is a signed word of 64 bits. -/
def isSigned (value : Int) : Bool :=
  least ≤ value && value ≤ greatest

/-! ## 2. Operators -/

/-- Bits of two words combined one by one, through their unsigned readings. -/
def bitwise (f : Nat → Nat → Nat) (a b : Int) : Int :=
  f (unsigned a 64) (unsigned b 64)

/-- The result of an integer operator on two words of the given width, where it has one: no
    division by zero, no signed division that leaves 64 bits, no shift by the width or more, and
    no floating point operator. -/
def binary? (op : BinaryOp) (width : Nat) (lhs rhs : Int) : Option Int :=
  let ul := unsigned lhs width
  let ur := unsigned rhs width
  let divides := rhs ≠ 0 ∧ ¬(lhs = least ∧ rhs = -1)
  let shifts := ur < min width 64
  let result : Option Int :=
    match op with
    | .add => some (lhs + rhs)
    | .sub => some (lhs - rhs)
    | .mul => some (lhs * rhs)
    | .udiv => if ur = 0 then none else some (ul / ur : Nat)
    | .sdiv => if divides then some (lhs.tdiv rhs) else none
    | .urem => if ur = 0 then none else some (ul % ur : Nat)
    | .srem => if divides then some (lhs.tmod rhs) else none
    | .shl => if shifts then some (lhs * span ur) else none
    | .lshr => if shifts then some (ul / span ur : Nat) else none
    | .ashr => if shifts then some (lhs / span ur) else none
    | .and => some (bitwise Nat.land lhs rhs)
    | .or => some (bitwise Nat.lor lhs rhs)
    | .xor => some (bitwise Nat.xor lhs rhs)
    | .fadd | .fsub | .fmul | .fdiv => none
  result.map (normalize · width)

/-- The truth of a comparison of two words of the given width. -/
def compare (p : Predicate) (width : Nat) (lhs rhs : Int) : Bool :=
  let ul := unsigned lhs width
  let ur := unsigned rhs width
  match p with
  | .eq => lhs == rhs
  | .ne => lhs != rhs
  | .ugt => ul > ur
  | .uge => ul ≥ ur
  | .ult => ul < ur
  | .ule => ul ≤ ur
  | .sgt => lhs > rhs
  | .sge => lhs ≥ rhs
  | .slt => lhs < rhs
  | .sle => lhs ≤ rhs

end QirProfile.Word
