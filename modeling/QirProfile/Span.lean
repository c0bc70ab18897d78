/-!
# How many words there are

A word of `n` bits is a number below `span n`. A decimal with `n` digits is one below `decimals n`.
-/

namespace QirProfile

/-- The number of words of `bits` bits. -/
def span (bits : Nat) : Nat := Nat.pow 2 bits

/-- The number of decimals of `digits` digits. -/
def decimals (digits : Nat) : Nat := Nat.pow 10 digits

end QirProfile
