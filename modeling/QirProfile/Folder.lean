/-!
# A folder of text files

Files that a run reads and writes, by path. A path is followed step by step from the folder, or from
the root if it starts there; each step on the way must be a folder. A folder inside exists if it is
known or a file lies in it; of what lies outside only the folders around are known. The messages are
those of the system for a path that leads nowhere.
-/

namespace QirProfile

/-- Files by path; no path stands twice. -/
structure Folder where
  files : List (String × String) := []
  /-- Folders known to exist, besides those with a file in them. -/
  folders : List String := []
  deriving DecidableEq

namespace Folder

/-! ## 1. Messages -/

/-- The message for a path that leads nowhere. -/
def missing : String := "No such file or directory (os error 2)"

/-- The message for a folder where a file is needed. -/
def isFolder : String := "Is a directory (os error 21)"

/-- The message for a file where a folder is needed. -/
def notFolder : String := "Not a directory (os error 20)"

/-- The message for a path that is too long, or has a step that is. -/
def tooLong : String := "File name too long (os error 36)"

/-- The message for a path with a character that none can have. -/
def unusable : String := "file name contained an unexpected NUL byte"

/-! ## 2. Places -/

/-- The step from a place to the folder around it. The root is in no other folder. -/
def up (place : List String) : List String :=
  match place.getLast? with
  | none => [".."]
  | some ".." => place ++ [".."]
  | some "/" => place
  | some _ => place.dropLast

/-- Where a path starts. -/
def start (path : String) : List String := if path.startsWith "/" then ["/"] else []

/-- The place that a path leads to if all its steps can be taken. Empty steps and steps to the same
    place do not count. -/
def place (path : String) : List String :=
  let step := fun here name =>
    if name = "" ∨ name = "." then here else if name = ".." then up here else here ++ [name]
  (path.splitOn "/").foldl step (start path)

/-- The path of a place. -/
def pathOf : List String → String
  | "/" :: steps => "/" ++ "/".intercalate steps
  | steps => "/".intercalate steps

/-- Whether a folder is at a place: one that is around, one that is known, or one with a file
    below it. -/
def hasFolder (f : Folder) (here : List String) : Bool :=
  here.all (· == "..") || here == ["/"] ||
    f.folders.any (fun name => here.isPrefixOf (place name)) ||
    f.files.any fun (name, _) => here.isPrefixOf (place name) && place name != here

/-- The file at a place. -/
def fileAt? (f : Folder) (here : List String) : Option String :=
  (f.files.find? fun (name, _) => place name == here).map (·.2)

/-! ## 3. Following a path -/

/-- What a path leads to. -/
inductive Found where
  | folder
  | file (text : String)
  /-- Nothing is there, but a file can be put there. -/
  | nothing

/-- What a step from a folder leads to, and the place. -/
def look (f : Folder) (here : List String) (name : String) : Except String (List String × Found) :=
  if name = "" ∨ name = "." then .ok (here, .folder)
  else if name = ".." then .ok (up here, .folder)
  else if 255 < name.utf8ByteSize then .error tooLong
  else
    let there := here ++ [name]
    if f.hasFolder there then .ok (there, .folder)
    else .ok (there, ((f.fileAt? there).map .file).getD .nothing)

/-- A step on the way, which must lead to a folder. -/
def enter (f : Folder) (here : List String) (name : String) : Except String (List String) := do
  match ← f.look here name with
  | (there, .folder) => return there
  | (_, .file _) => .error notFolder
  | (_, .nothing) => .error missing

/-- Whether a path can be followed at all. -/
def check (path : String) : Except String Unit :=
  if path.contains '\x00' then .error unusable
  else if path = "" then .error missing
  else if 4095 < path.utf8ByteSize then .error tooLong
  else .ok ()

/-- Follows a path to its last step. -/
def follow (f : Folder) (path : String) : Except String (List String × Found) := do
  check path
  let steps := path.splitOn "/"
  f.look (← steps.dropLast.foldlM f.enter (start path)) (steps.getLast?.getD "")

/-! ## 4. Reading and writing -/

/-- Whether a file or a folder has this path. -/
def exists? (f : Folder) (path : String) : Bool :=
  match f.follow path with
  | .ok (_, .folder) | .ok (_, .file _) => true
  | _ => false

/-- Reads a file. -/
def read (f : Folder) (path : String) : Except String String := do
  match (← f.follow path).2 with
  | .folder => .error isFolder
  | .file text => return text
  | .nothing => .error missing

/-- Puts a file in its place; it keeps the path it had before. -/
def put (f : Folder) (here : List String) (text : String) : Folder :=
  if (f.fileAt? here).isSome then
    { f with
      files := f.files.map fun (name, old) => (name, if place name == here then text else old) }
  else { f with files := f.files ++ [(pathOf here, text)] }

/-- The path without the slashes at its end, as characters. -/
def withoutSlashes (path : String) : String :=
  String.ofList (path.toList.reverse.dropWhile (· == '/')).reverse

/-- Writes a file, in place of an earlier one. The folder around it must exist, and a slash at the
    end asks for a folder, whatever is there. -/
def write (f : Folder) (path text : String) : Except String Folder := do
  check path
  let bare := withoutSlashes path
  let steps := bare.splitOn "/"
  let around ← steps.dropLast.foldlM f.enter (start path)
  if bare != path then .error isFolder
  match ← f.look around (steps.getLast?.getD "") with
  | (_, .folder) => .error isFolder
  | (there, _) => return f.put there text

end Folder

end QirProfile
