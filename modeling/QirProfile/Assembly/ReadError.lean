import QirProfile.Program.Basic

/-!
# Why program text is refused

One constructor for each cause, and the message that reports it.
-/

namespace QirProfile.Assembly

/-- Why program text is refused. -/
inductive ReadError where
  /-- Characters that make no token. -/
  | invalidToken (line : Nat) (text : String)
  | unexpectedToken (line : Nat) (expected found : String)
  /-- The text ends where something was expected. -/
  | unexpectedEnd (context : String)
  | undefinedSymbol (name scope : String)
  | duplicateDefinition (name : String)
  | unknownInstruction (opcode : String) (line : Nat)
  | integerOutOfRange (line : Nat) (literal : Int)
  /-- An edit of the program under construction was refused. -/
  | program (cause : ProgramError)
  /-- The number after the last numbered parameter does not fit 32 bits. -/
  | slotOverflow
  deriving DecidableEq, Repr

/-- The message of an error. -/
def ReadError.message : ReadError → String
  | invalidToken line text =>
    "Lexer error at line " ++ toString line ++ ": Invalid token: '" ++ text ++ "'"
  | unexpectedToken line expected found =>
    "Unexpected token at line " ++ toString line ++ ": expected " ++ expected ++ ", found " ++ found
  | unexpectedEnd context => "Unexpected end of input: " ++ context
  | undefinedSymbol name scope => "Undefined symbol '" ++ name ++ "' in " ++ scope
  | duplicateDefinition name => "Duplicate definition of '" ++ name ++ "'"
  | unknownInstruction opcode line =>
    "Unknown instruction '" ++ opcode ++ "' at line " ++ toString line
  | integerOutOfRange line literal =>
    "Integer literal out of range at line " ++ toString line ++ ": " ++ toString literal
  | program cause => "Module error: " ++ cause.message
  | slotOverflow => "attempt to add with overflow"

end QirProfile.Assembly
