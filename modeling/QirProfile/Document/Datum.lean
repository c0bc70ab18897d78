import QirProfile.Binary64
import QirProfile.Text.Quoted

/-!
# Documents

A datum is what a settings document or a report consists of. Maps hold their entries in the order
in which they are written; `Datum.sorted` maps keep them in the order of their keys.
-/

namespace QirProfile

/-- A value of a document. -/
inductive Datum where
  | null
  | bool (b : Bool)
  | int (n : Int)
  /-- A finite double, by its bits. -/
  | float (bits : UInt64)
  | text (s : String)
  | list (items : List Datum)
  | map (entries : List (String × Datum))
  deriving Inhabited

namespace Datum

/-- Puts an entry into a map that is sorted by key; an earlier value of the key is replaced. -/
def insertSorted (key : String) (d : Datum) : List (String × Datum) → List (String × Datum)
  | [] => [(key, d)]
  | (k, e) :: rest =>
    if key < k then (key, d) :: (k, e) :: rest
    else if key = k then (key, d) :: rest
    else (k, e) :: insertSorted key d rest

/-- The map of some entries, sorted by key; of two entries with one key the later counts. -/
def sorted (entries : List (String × Datum)) : List (String × Datum) :=
  entries.foldl (fun m (k, d) => insertSorted k d m) []

/-- What a value is called where another kind of value was expected. -/
def kindText : Datum → String
  | null => "null"
  | bool b => "boolean `" ++ toString b ++ "`"
  | int n => "integer `" ++ toString n ++ "`"
  | float bits => "floating point `" ++ Binary64.general bits ++ "`"
  | text s => "string " ++ Text.quoted s
  | list _ => "sequence"
  | map _ => "map"

/-! ## 1. JSON -/

/-- A line break and the blanks of a depth. -/
def newline (depth : Nat) : String :=
  "\n" ++ String.ofList (List.replicate (2 * depth) ' ')

mutual

/-- The JSON text of a value, on lines indented by depth. -/
def pretty (depth : Nat) : Datum → String
  | null => "null"
  | bool b => toString b
  | int n => toString n
  | float bits => Binary64.general bits
  | text s => Text.jsonQuoted s
  | list [] => "[]"
  | list (d :: ds) =>
    "[" ++ newline (depth + 1) ++ pretty (depth + 1) d ++ prettyItems (depth + 1) ds ++
      newline depth ++ "]"
  | map [] => "\x7b\x7d"
  | map ((k, d) :: rest) =>
    "\x7b" ++ newline (depth + 1) ++ Text.jsonQuoted k ++ ": " ++ pretty (depth + 1) d ++
      prettyEntries (depth + 1) rest ++ newline depth ++ "\x7d"

/-- The items after the first one. -/
def prettyItems (depth : Nat) : List Datum → String
  | [] => ""
  | d :: ds => "," ++ newline depth ++ pretty depth d ++ prettyItems depth ds

/-- The entries after the first one. -/
def prettyEntries (depth : Nat) : List (String × Datum) → String
  | [] => ""
  | (k, d) :: rest =>
    "," ++ newline depth ++ Text.jsonQuoted k ++ ": " ++ pretty depth d ++ prettyEntries depth rest

end

/-- The JSON text of a document. -/
def toJson (d : Datum) : String := pretty 0 d

end Datum

end QirProfile
