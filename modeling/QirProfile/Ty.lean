import QirProfile.Text.Quoted

/-!
# Types

Pointers are typed, and runtime handles are pointers to named types without a body (`%Qubit*`).
Equality of types is decided by a walk over both (`Ty.beq`), and `Ty.text` is how a type is written.
-/

namespace QirProfile

/-- A type of the program representation. -/
inductive Ty where
  | void
  | int (bits : Nat)
  | half
  | float
  | double
  | label
  | metadata
  | ptr (pointee : Ty)
  | named (name : String)
  | array (length : Nat) (element : Ty)
  | struct (fields : List Ty)
  | func (ret : Ty) (params : List Ty) (varArg : Bool)
  deriving Inhabited

namespace Ty

/-! ## 1. Equality -/

mutual

/-- Whether two types are the same. -/
def beq : Ty → Ty → Bool
  | void, void | half, half | float, float | double, double | label, label
  | metadata, metadata => true
  | int m, int n => m == n
  | ptr s, ptr t => beq s t
  | named m, named n => m == n
  | array m s, array n t => m == n && beq s t
  | struct ss, struct ts => beqList ss ts
  | func r ss v, func q ts w => beq r q && beqList ss ts && v == w
  | _, _ => false

/-- Whether two lists of types are the same. -/
def beqList : List Ty → List Ty → Bool
  | [], [] => true
  | s :: ss, t :: ts => beq s t && beqList ss ts
  | _, _ => false

end

mutual

theorem beq_refl : (t : Ty) → beq t t = true
  | void | half | float | double | label | metadata => rfl
  | int _ | named _ => by simp [beq]
  | ptr t => by simp [beq, beq_refl t]
  | array _ t => by simp [beq, beq_refl t]
  | struct ts => by simp [beq, beqList_refl ts]
  | func r ts _ => by simp [beq, beq_refl r, beqList_refl ts]

theorem beqList_refl : (ts : List Ty) → beqList ts ts = true
  | [] => rfl
  | t :: ts => by simp [beqList, beq_refl t, beqList_refl ts]

end

mutual

theorem eq_of_beq : (s t : Ty) → beq s t = true → s = t
  | void, t, h | half, t, h | float, t, h | double, t, h | label, t, h | metadata, t, h => by
    cases t <;> simp_all [beq]
  | int _, t, h | named _, t, h => by cases t <;> simp_all [beq]
  | ptr s, t, h => by
    cases t <;> simp [beq] at h
    case ptr t => rw [eq_of_beq s t h]
  | array _ s, t, h => by
    cases t <;> simp [beq] at h
    case array n t => rw [h.1, eq_of_beq s t h.2]
  | struct ss, t, h => by
    cases t <;> simp [beq] at h
    case struct ts => rw [eq_of_beqList ss ts h]
  | func r ss v, t, h => by
    cases t <;> simp [beq] at h
    case func q ts w => rw [eq_of_beq r q h.1.1, eq_of_beqList ss ts h.1.2, h.2]

theorem eq_of_beqList : (ss ts : List Ty) → beqList ss ts = true → ss = ts
  | [], ts, h => by cases ts <;> simp_all [beqList]
  | s :: ss, ts, h => by
    cases ts with
    | nil => simp [beqList] at h
    | cons t ts =>
      simp [beqList] at h
      rw [eq_of_beq s t h.1, eq_of_beqList ss ts h.2]

end

instance : DecidableEq Ty := fun s t =>
  decidable_of_iff (beq s t = true) ⟨eq_of_beq s t, fun h => h ▸ beq_refl s⟩

/-! ## 2. Common types and tests -/

/-- The type of truth values. -/
def bool : Ty := int 1

/-- A pointer to the named type. -/
def namedPtr (name : String) : Ty := ptr (named name)

/-- Whether this is an integer type. -/
def isInt : Ty → Bool
  | int _ => true
  | _ => false

/-- The width of an integer type. -/
def width? : Ty → Option Nat
  | int bits => some bits
  | _ => none

/-- Whether this is a pointer type. -/
def isPtr : Ty → Bool
  | ptr _ => true
  | _ => false

/-- Whether this is the type without values. -/
def isVoid : Ty → Bool
  | void => true
  | _ => false

/-- Whether this is a floating point type. -/
def isFloat : Ty → Bool
  | half | float | double => true
  | _ => false

/-- What a pointer points to. -/
def pointee? : Ty → Option Ty
  | ptr t => some t
  | _ => none

/-! ## 3. Text -/

/-- Texts joined by commas. -/
def commas (parts : List String) : String :=
  ", ".intercalate parts

mutual

/-- How a type is written. -/
def text : Ty → String
  | void => "void"
  | int bits => "i" ++ toString bits
  | half => "half"
  | float => "float"
  | double => "double"
  | label => "label"
  | metadata => "metadata"
  | ptr t => t.text ++ "*"
  | named n => "%" ++ Text.quoteName n
  | array n t => "[" ++ toString n ++ " x " ++ t.text ++ "]"
  | struct [] => "\x7b\x7d"
  | struct (t :: ts) => "\x7b " ++ commas (t.text :: texts ts) ++ " \x7d"
  | func r ts varArg =>
    r.text ++ " (" ++ commas (texts ts ++ if varArg then ["..."] else []) ++ ")"

/-- How each type of a list is written. -/
def texts : List Ty → List String
  | [] => []
  | t :: ts => t.text :: texts ts

end

/-- The texts of a list are those of its members. -/
theorem texts_eq_map (ts : List Ty) : texts ts = ts.map text := by
  induction ts with
  | nil => simp [texts]
  | cons t ts ih => simp [texts, ih]

end Ty

end QirProfile
