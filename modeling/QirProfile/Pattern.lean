import QirProfile.Program.Basic

/-!
# Patterns of values

A pattern is a tree. Each node tests the shape of one value, and its children are held against the
operands of that value, one by one. A node can carry a name: a match then records the value found
there. A node without children accepts any operands.

All nodes record into one table, and each does so before its children are tried. What a record
overwrites is kept in a journal. Where a child fails, its parent takes back whatever has been recorded
since, so a match that fails leaves the table as it found it.
-/

namespace QirProfile

/-- Values recorded under names; no name stands twice. -/
abbrev Captures := List (String × Value)

/-- Records a value, in place of an earlier one of the same name. -/
def Captures.insert (c : Captures) (name : String) (v : Value) : Captures :=
  (name, v) :: c.filter (·.1 != name)

/-- The integer constant recorded under a name. -/
def Captures.int? (c : Captures) (name : String) : Option Int :=
  (c.lookup name).bind Value.toInt?

/-- The instruction recorded under a name. -/
def Captures.instr? (c : Captures) (name : String) : Option InstrId :=
  (c.lookup name).bind Value.toInstr?

/-- The block recorded under a name. -/
def Captures.block? (c : Captures) (name : String) : Option BlockId :=
  (c.lookup name).bind Value.toBlock?

/-- What a node of a pattern tests for. -/
inductive Shape where
  | any
  /-- A call or invoke of the function with this name. -/
  | call (function : String)
  | load
  | store
  /-- A `bitcast`, as an instruction or in a constant. -/
  | bitCast
  /-- An `inttoptr`, as an instruction or in a constant. -/
  | intToPtr
  | constInt
  | branch
  | select
  | phi
  | block
  | switch
  /-- An invoke, whatever it calls. -/
  | invoke
  deriving DecidableEq

namespace Program

/-- What an instruction that is not erased does. -/
def liveKind? (p : Program) (v : Value) : Option InstrKind :=
  v.toInstr?.bind fun id =>
    let i := p.instr id
    if i.erased then none else some i.kind

/-- Whether a value is the result of a conversion, by an instruction or in a constant. -/
def isCast (p : Program) (op : CastOp) : Value → Bool
  | .cast o _ _ => o == op
  | v => p.liveKind? v == some (.cast op)

/-- The name of the function that an instruction calls. -/
def calledName? (p : Program) (v : Value) : Option String := do
  let id ← v.toInstr?
  let f ← (p.instr id).calledFunction?
  return (p.func f).name

/-- The values below a value: the operands of an instruction or of a constant expression. -/
def operandsOf (p : Program) : Value → List Value
  | .instr id => (p.instr id).operands
  | v => v.constantOperands

end Program

/-- Whether a value has the shape. -/
def Shape.test (p : Program) (v : Value) : Shape → Bool
  | any => true
  | call function => (p.liveKind? v).isSome && p.calledName? v == some function
  | load => match p.liveKind? v with
    | some (.load _) => true
    | _ => false
  | store => match p.liveKind? v with
    | some (.store _) => true
    | _ => false
  | bitCast => p.isCast .bitcast v
  | intToPtr => p.isCast .inttoptr v
  | constInt => v.toInt?.isSome
  | branch => p.liveKind? v == some .br
  | select => p.liveKind? v == some .select
  | phi => match p.liveKind? v with
    | some (.phi _) => true
    | _ => false
  | block => v.toBlock?.isSome
  | switch => p.liveKind? v == some .switch
  | invoke => p.liveKind? v == some .invoke

/-- A pattern. -/
inductive Pattern where
  | node (shape : Shape) (capture : Option String) (children : List Pattern)

instance : Inhabited Pattern := ⟨.node .any none []⟩

namespace Pattern

/-- What the root tests for. -/
def shape : Pattern → Shape
  | node s _ _ => s

/-- The name of the root. -/
def capture? : Pattern → Option String
  | node _ c _ => c

/-- The patterns of the operands. -/
def children : Pattern → List Pattern
  | node _ _ cs => cs

end Pattern

/-! ## 1. Records that can be taken back -/

/-- Drops what is recorded under a name. -/
def Captures.remove (c : Captures) (name : String) : Captures :=
  c.filter (·.1 != name)

/-- Makes a name stand for what it stood for before. -/
def Captures.restore (c : Captures) : String × Option Value → Captures
  | (name, some old) => c.insert name old
  | (name, none) => c.remove name

/-- Names recorded, the latest first, each with the value it stood for before. -/
abbrev Journal := List (String × Option Value)

/-- A table of captures and the journal of its changes. -/
structure Recording where
  captures : Captures
  journal : Journal := []

namespace Recording

/-- Records a value and enters what it overwrites. -/
def record (r : Recording) (name : String) (v : Value) : Recording where
  captures := r.captures.insert name v
  journal := (name, r.captures.lookup name) :: r.journal

/-- Takes back the latest records until the journal is no longer than a mark. -/
def undoTo (mark : Nat) (c : Captures) : Journal → Recording
  | [] => { captures := c }
  | entry :: rest =>
    if mark < (entry :: rest).length then undoTo mark (c.restore entry) rest
    else { captures := c, journal := entry :: rest }

end Recording

/-! ## 2. Matching -/

namespace Pattern

mutual

/-- Holds a value against a pattern: its name first, then its children. -/
def matchRecorded (p : Program) : Pattern → Value → Recording → Bool × Recording
  | node s name cs, v, r =>
    if s.test p v then
      let named := name.elim r (r.record · v)
      let (found, tried) :=
        if cs.isEmpty then (true, named)
        else if (p.operandsOf v).length != cs.length then (false, named)
        else matchEach p cs (p.operandsOf v) named
      if found then (true, tried)
      else (false, .undoTo r.journal.length tried.captures tried.journal)
    else (false, r)

/-- Holds values against patterns, from left to right, up to the first that does not match. -/
def matchEach (p : Program) : List Pattern → List Value → Recording → Bool × Recording
  | q :: qs, v :: vs, r =>
    let (found, r) := matchRecorded p q v r
    if found then matchEach p qs vs r else (false, r)
  | _, _, r => (true, r)

end

/-- Whether a value matches a pattern, and the captures afterwards. -/
def attempt (p : Program) (q : Pattern) (v : Value) (c : Captures) : Bool × Captures :=
  let (found, r) := q.matchRecorded p v { captures := c }
  (found, r.captures)

/-- The captures of a match. -/
def match? (p : Program) (q : Pattern) (v : Value) (c : Captures) : Option Captures :=
  let (found, c) := q.attempt p v c
  if found then some c else none

/-! ## 3. Building patterns -/

/-- The same pattern, recording its match under a name. -/
def as (q : Pattern) (name : String) : Pattern :=
  node q.shape (some name) q.children

/-- Any value. -/
def any : Pattern := node .any none []

/-- A call or invoke by the name of the function, whatever its operands. -/
def callNamed (function : String) : Pattern := node (.call function) none []

/-- A call whose arguments match; the callee comes last among the operands. -/
def call (function : String) (args : List Pattern) : Pattern :=
  node (.call function) none (args ++ [any])

/-- A load from a matching address. -/
def load (pointer : Pattern) : Pattern := node .load none [pointer]

/-- A store. -/
def store (value pointer : Pattern) : Pattern := node .store none [value, pointer]

/-- A conversion between pointers. -/
def bitCast (v : Pattern) : Pattern := node .bitCast none [v]

/-- An address given as a number. -/
def intToPtr (v : Pattern) : Pattern := node .intToPtr none [v]

/-- An integer constant. -/
def constInt : Pattern := node .constInt none []

/-- A conditional branch. -/
def branch (cond ifFalse ifTrue : Pattern) : Pattern := node .branch none [cond, ifFalse, ifTrue]

/-- A choice between two values. -/
def select (cond ifTrue ifFalse : Pattern) : Pattern := node .select none [cond, ifTrue, ifFalse]

/-- A phi with matching incoming values. -/
def phi (incoming : List Pattern) : Pattern := node .phi none incoming

/-- A block. -/
def block : Pattern := node .block none []

/-- A switch with matching operands. -/
def switch (operands : List Pattern) : Pattern := node .switch none operands

/-- An invoke. -/
def invoke : Pattern := node .invoke none []

end Pattern

end QirProfile
