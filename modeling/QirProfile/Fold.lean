import QirProfile.Program.Uses

/-!
# Constant folding

An instruction folds when its result is known without running the program: integer arithmetic,
comparisons and width changes on constants, a `select` with a constant condition, and a `phi` all
of whose incoming values are the same. Pointer conversions never fold, since static addresses are
written as such.
-/

namespace QirProfile

namespace Predicate

/-- The truth of a comparison of two null pointers, which have no signed order. -/
def onNulls? : Predicate → Option Bool
  | eq | uge | ule => some true
  | ne | ugt | ult => some false
  | _ => none

end Predicate

namespace CastOp

/-- The number that a width change of a constant starts from: the signed reading for `trunc` and
    `sext`, the unsigned one for `zext` if it is a signed word. -/
def widthChange? (op : CastOp) (value : Int) (width : Nat) : Option Int :=
  match op with
  | .trunc | .sext => some value
  | .zext =>
    let u := Word.unsigned value width
    if (u : Int) ≤ Word.greatest then some u else none
  | _ => none

end CastOp

namespace Program

/-- The truth of a comparison of two operands, if it is known. -/
def foldCompare? (pred : Predicate) (lhs rhs : Value) : Option Bool :=
  match lhs, rhs with
  | .null _, .null _ => pred.onNulls?
  | .int bits a, .int _ b => some (Word.compare pred bits a b)
  | _, _ => none

/-- The value of an instruction that folds. -/
def fold? (p : Program) (id : InstrId) : Option Value :=
  let i := p.instr id
  if i.erased then none
  else
    match i.kind, i.operands with
    | .binary op, .int _ a :: .int _ b :: _ => do
      let bits ← i.ty.width?
      let v ← Word.binary? op bits a b
      return .ofInt bits v
    | .icmp pred, lhs :: rhs :: _ => (foldCompare? pred lhs rhs).map Value.ofBool
    | .cast op, .int bits a :: _ => do
      let width ← i.ty.width?
      let v ← op.widthChange? a bits
      return .ofInt width v
    | .select, .int _ c :: rest => do
      let chosen ← if c ≠ 0 then rest[0]? else rest[1]?
      if chosen = .instr id then none else some chosen
    | .phi _, first :: rest =>
      if rest.all (· = first) ∧ first ≠ .instr id then some first else none
    | _, _ => none

/-- Replaces the uses of a folded instruction and erases it. -/
def foldAway (p : Program) (id : InstrId) (v : Value) : Except ProgramError Program :=
  (p.replaceUses (.instr id) v).eraseInstr id

/-- One round over the given instructions; counts those that folded. -/
def foldRound (p : Program) : List InstrId → Except ProgramError (Program × Nat)
  | [] => .ok (p, 0)
  | id :: rest =>
    match p.fold? id with
    | none => p.foldRound rest
    | some v => do
      let q ← p.foldAway id v
      let (q, n) ← q.foldRound rest
      return (q, n + 1)

/-- Rounds until nothing folds. Each round but the last takes an instruction away, so as many
    rounds as instructions and one more are enough. -/
def foldRounds (f : FuncId) : Nat → Program → Except ProgramError (Program × Nat)
  | 0, p => .ok (p, 0)
  | fuel + 1, p => do
    let (q, n) ← p.foldRound (p.instrsOf f)
    if n = 0 then return (q, 0)
    let (q, m) ← foldRounds f fuel q
    return (q, n + m)

/-- Folds a function until nothing folds; counts the instructions that went away. -/
def foldConstants (p : Program) (f : FuncId) : Except ProgramError (Program × Nat) :=
  foldRounds f ((p.instrsOf f).length + 1) p

end Program

end QirProfile
