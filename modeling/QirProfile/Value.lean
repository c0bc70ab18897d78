import QirProfile.Ty
import QirProfile.Word

/-!
# Values

A value is what an operand refers to: a node of the program (by its handle) or a constant.
Constants nest: an array, a structure and a constant expression hold further values, which may
again be nodes. Two walks over a value carry the use relation: `mentions` (does a value occur
inside) and `substitute` (put another one in its place). `exchange` is the walk that also says
whether it has put anything there.
-/

namespace QirProfile

/-! ## 1. Handles -/

/-- Handle of a function. -/
structure FuncId where
  index : Nat
  deriving DecidableEq, Hashable, Repr

/-- Handle of a basic block. -/
structure BlockId where
  index : Nat
  deriving DecidableEq, Hashable, Repr

/-- Handle of an instruction. -/
structure InstrId where
  index : Nat
  deriving DecidableEq, Hashable, Repr

/-- Handle of a global variable. -/
structure GlobalId where
  index : Nat
  deriving DecidableEq, Hashable, Repr

/-- How a function's handle is written. -/
def FuncId.text (id : FuncId) : String := "fn" ++ toString id.index

/-- How a block's handle is written. -/
def BlockId.text (id : BlockId) : String := "bb" ++ toString id.index

/-- How an instruction's handle is written. -/
def InstrId.text (id : InstrId) : String := "inst" ++ toString id.index

/-- How a global's handle is written. -/
def GlobalId.text (id : GlobalId) : String := "global" ++ toString id.index

/-! ## 2. Values -/

/-- What an operand refers to. -/
inductive Value where
  /-- The result of an instruction. -/
  | instr (id : InstrId)
  /-- A formal argument of a function, by position. -/
  | arg (function : FuncId) (index : Nat)
  /-- A block, as a branch target. -/
  | block (id : BlockId)
  /-- The address of a function. -/
  | func (id : FuncId)
  /-- The address of a global variable. -/
  | global (id : GlobalId)
  /-- An integer constant, held as its signed reading. -/
  | int (bits : Nat) (value : Int)
  /-- A floating point constant, held as the bits of a double. -/
  | float (ty : Ty) (bits : UInt64)
  | null (ty : Ty)
  | undef (ty : Ty)
  /-- The constant of all zeros. -/
  | zero (ty : Ty)
  /-- A byte string. -/
  | bytes (data : List UInt8)
  | array (ty : Ty) (elements : List Value)
  | struct (ty : Ty) (fields : List Value)
  /-- A conversion of a constant. -/
  | cast (op : CastOp) (value : Value) (target : Ty)
  /-- An address computed from a constant base; `ty` is the resulting pointer type. -/
  | gep (inbounds : Bool) (source : Ty) (base : Value) (indices : List Value) (ty : Ty)
  deriving Inhabited

namespace Value

/-! ## 3. Equality -/

mutual

/-- Whether two values are the same. -/
def beq : Value → Value → Bool
  | instr i, instr j => i == j
  | arg f i, arg g j => f == g && i == j
  | block i, block j => i == j
  | func i, func j => i == j
  | global i, global j => i == j
  | int m a, int n b => m == n && a == b
  | float s a, float t b => s == t && a == b
  | null s, null t => s == t
  | undef s, undef t => s == t
  | zero s, zero t => s == t
  | bytes a, bytes b => a == b
  | array s as, array t bs => s == t && beqList as bs
  | struct s as, struct t bs => s == t && beqList as bs
  | cast o a s, cast p b t => o == p && beq a b && s == t
  | gep i s a as u, gep j t b bs v => i == j && s == t && beq a b && beqList as bs && u == v
  | _, _ => false

/-- Whether two lists of values are the same. -/
def beqList : List Value → List Value → Bool
  | [], [] => true
  | a :: as, b :: bs => beq a b && beqList as bs
  | _, _ => false

end

mutual

theorem beq_refl : (v : Value) → beq v v = true
  | instr _ | arg _ _ | block _ | func _ | global _ | int _ _ | float _ _ | null _ | undef _
  | zero _ | bytes _ => by simp [beq]
  | array _ vs => by simp [beq, beqList_refl vs]
  | struct _ vs => by simp [beq, beqList_refl vs]
  | cast _ v _ => by simp [beq, beq_refl v]
  | gep _ _ v vs _ => by simp [beq, beq_refl v, beqList_refl vs]

theorem beqList_refl : (vs : List Value) → beqList vs vs = true
  | [] => rfl
  | v :: vs => by simp [beqList, beq_refl v, beqList_refl vs]

end

mutual

theorem eq_of_beq : (v w : Value) → beq v w = true → v = w
  | instr _, w, h | arg _ _, w, h | block _, w, h | func _, w, h | global _, w, h | int _ _, w, h
  | float _ _, w, h | null _, w, h | undef _, w, h | zero _, w, h | bytes _, w, h => by
    cases w <;> simp_all [beq]
  | array _ vs, w, h => by
    cases w <;> simp [beq] at h
    case array t ws => rw [h.1, eq_of_beqList vs ws h.2]
  | struct _ vs, w, h => by
    cases w <;> simp [beq] at h
    case struct t ws => rw [h.1, eq_of_beqList vs ws h.2]
  | cast _ v _, w, h => by
    cases w <;> simp [beq] at h
    case cast o w t => rw [h.1.1, eq_of_beq v w h.1.2, h.2]
  | gep _ _ v vs _, w, h => by
    cases w <;> simp [beq] at h
    case gep i s w ws t =>
      rw [h.1.1.1.1, h.1.1.1.2, eq_of_beq v w h.1.1.2, eq_of_beqList vs ws h.1.2, h.2]

theorem eq_of_beqList : (vs ws : List Value) → beqList vs ws = true → vs = ws
  | [], ws, h => by cases ws <;> simp_all [beqList]
  | v :: vs, ws, h => by
    cases ws with
    | nil => simp [beqList] at h
    | cons w ws =>
      simp [beqList] at h
      rw [eq_of_beq v w h.1, eq_of_beqList vs ws h.2]

end

instance : DecidableEq Value := fun v w =>
  decidable_of_iff (beq v w = true) ⟨eq_of_beq v w, fun h => h ▸ beq_refl v⟩

/-! ## 4. Constants and views -/

/-- The integer constant of a width, normalized. -/
def ofInt (bits : Nat) (value : Int) : Value :=
  int bits (Word.normalize value bits)

/-- A truth value as a constant of one bit: all bits set for true. -/
def ofBool (b : Bool) : Value :=
  ofInt 1 (if b then 1 else 0)

/-- The number of an integer constant. -/
def toInt? : Value → Option Int
  | int _ v => some v
  | _ => none

/-- The instruction whose result this is. -/
def toInstr? : Value → Option InstrId
  | instr id => some id
  | _ => none

/-- The block this is. -/
def toBlock? : Value → Option BlockId
  | block id => some id
  | _ => none

/-- The function this is the address of. -/
def toFunc? : Value → Option FuncId
  | func id => some id
  | _ => none

/-- The bits of a floating point constant. -/
def floatBits? : Value → Option UInt64
  | float _ bits => some bits
  | _ => none

/-- Whether this is a constant, and not a node of the program. -/
def isConstant : Value → Bool
  | instr _ | arg _ _ | block _ | func _ | global _ => false
  | _ => true

/-- Whether this is the undefined value of some type. -/
def isUndef : Value → Bool
  | undef _ => true
  | _ => false

/-- The operands of a constant expression; other values have none. -/
def constantOperands : Value → List Value
  | cast _ v _ => [v]
  | gep _ _ base indices _ => base :: indices
  | _ => []

/-- The type a constant was written with; nodes get theirs from the program. -/
def constantTy : Value → Ty
  | int bits _ => .int bits
  | float ty _ | null ty | undef ty | zero ty | array ty _ | struct ty _ => ty
  | bytes data => .array data.length (.int 8)
  | cast _ _ target => target
  | gep _ _ _ _ ty => ty
  | instr _ | arg _ _ | block _ | func _ | global _ => .void

/-! ## 5. Occurrences -/

mutual

/-- Whether `needle` is this value or occurs inside it. -/
def mentions (needle : Value) : Value → Bool
  | v@(array _ vs) | v@(struct _ vs) => v == needle || mentionsAny needle vs
  | v@(cast _ w _) => v == needle || mentions needle w
  | v@(gep _ _ base vs _) => v == needle || mentions needle base || mentionsAny needle vs
  | v => v == needle

/-- Whether `needle` occurs in one of the values. -/
def mentionsAny (needle : Value) : List Value → Bool
  | [] => false
  | v :: vs => mentions needle v || mentionsAny needle vs

end

mutual

/-- This value with `new` in the place of every occurrence of `old`. -/
def substitute (old new : Value) : Value → Value
  | v@(array ty vs) => if v = old then new else array ty (substituteAll old new vs)
  | v@(struct ty vs) => if v = old then new else struct ty (substituteAll old new vs)
  | v@(cast op w target) =>
    if v = old then new else cast op (substitute old new w) target
  | v@(gep inbounds source base vs ty) =>
    if v = old then new
    else gep inbounds source (substitute old new base) (substituteAll old new vs) ty
  | v => if v = old then new else v

/-- The values with `new` in the place of every occurrence of `old`. -/
def substituteAll (old new : Value) : List Value → List Value
  | [] => []
  | v :: vs => substitute old new v :: substituteAll old new vs

end

mutual

/-- Puts `new` in the place of every occurrence of `old` in a value, and says whether there was
    one. -/
def exchange (old new : Value) : Value → Value × Bool
  | v@(array ty vs) =>
    if v = old then (new, true)
    else
      let (vs, changed) := exchangeAll old new vs
      (array ty vs, changed)
  | v@(struct ty vs) =>
    if v = old then (new, true)
    else
      let (vs, changed) := exchangeAll old new vs
      (struct ty vs, changed)
  | v@(cast op w target) =>
    if v = old then (new, true)
    else
      let (w, changed) := exchange old new w
      (cast op w target, changed)
  | v@(gep inbounds source base vs ty) =>
    if v = old then (new, true)
    else
      let (base, inBase) := exchange old new base
      let (vs, inIndices) := exchangeAll old new vs
      (gep inbounds source base vs ty, inIndices || inBase)
  | v => if v = old then (new, true) else (v, false)

/-- The same for a list of values. What was found in front does not end the walk. -/
def exchangeAll (old new : Value) : List Value → List Value × Bool
  | [] => ([], false)
  | v :: vs =>
    let (v, here) := exchange old new v
    let (vs, behind) := exchangeAll old new vs
    (v :: vs, here || behind)

end

end Value

end QirProfile
