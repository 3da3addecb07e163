/-
  Layout-aware LR toolkit — the files that commands work on.

  A path is followed from the folder, step by step.  Every step but the last has
  to lead to a folder, and so does the last one if a slash follows it; single
  dots lead nowhere, double dots lead back.  Outside the folder, only the
  folders on the way up are known.

  * `FileError`: why a file cannot be used;
  * `Folder`: a folder with its files, folders inside it included;
  * `Folder.walk`: what a path leads to;
  * `Folder.read`, `Folder.place`: looking a file up, and finding the place for a
    new one.
-/
import LayoutLR.Text.Measure

namespace LayoutLR

/-! ## Errors and paths -/

/-- Why a file cannot be used. -/
inductive FileError where
  | missing
  | notDirectory
  | isDirectory
  | nameTooLong
  /-- Any other reason. -/
  | other (reason : String)
deriving DecidableEq, Repr

/-- The message about a file that cannot be used. -/
def FileError.message : FileError → String
  | .missing => "No such file or directory (os error 2)"
  | .notDirectory => "Not a directory (os error 20)"
  | .isDirectory => "Is a directory (os error 21)"
  | .nameTooLong => "File name too long (os error 36)"
  | .other reason => reason

/-- The steps from the folder to a file or a folder.  A path out of the folder starts with double
    dots, or with a slash if it starts at the top. -/
abbrev Path := List String

namespace Path

/-- The steps of a path as text; single dots lead nowhere. -/
def ofText (s : String) : Path :=
  (s.splitOn "/").filter fun step => step != "" && step != "."

/-- A path as text. -/
def text (p : Path) : String :=
  "/".intercalate p

/-- Whether nothing below the folder is named. -/
def isAbove (p : Path) : Bool :=
  p == ["/"] || p.all fun step => step == ".."

/-- Whether a path leads out of the folder. -/
def isOutside (p : Path) : Bool :=
  p.head? == some ".." || p.head? == some "/"

/-- The folder around the one at a path. -/
def parent (p : Path) : Path :=
  if p = ["/"] then p
  else if p.isAbove then ".." :: p
  else p.dropLast

end Path

/-! ## Folders -/

/-- A folder: the paths of its files with their texts. -/
structure Folder where
  files : List (Path × String)

/-- What a path leads to. -/
inductive Spot where
  | folder (p : Path)
  | file (p : Path) (text : String)
  /-- A name that is free in a folder. -/
  | free (p : Path)

namespace Folder

/-- A folder with the given files. -/
def ofList (files : List (String × String)) : Folder :=
  ⟨files.map fun f => (Path.ofText f.1, f.2)⟩

variable (f : Folder)

/-- The text of the file at a path. -/
def file? (p : Path) : Option String :=
  f.files.lookup p

/-- Whether a path leads to a folder. -/
def isFolder (p : Path) : Bool :=
  p.isAbove || f.files.any fun e => p.isPrefixOf e.1 && decide (p.length < e.1.length)

/-- The greatest size of a name in bytes. -/
def maxName : Nat :=
  255

/-- The greatest size of a path in bytes. -/
def maxPath : Nat :=
  4095

/-- One step from the folder at a path. -/
def step (p : Path) (name : String) : Except FileError Spot :=
  if name = "" ∨ name = "." then .ok (.folder p)
  else if name = ".." then .ok (.folder p.parent)
  else if maxName < Text.byteSize name.toList then .error .nameTooLong
  else
    let q := p ++ [name]
    if f.isFolder q then .ok (.folder q)
    else match f.file? q with
      | some text => .ok (.file q text)
      | none => .ok (.free q)

/-- Follows steps from the folder at a path. -/
def walk (p : Path) : List String → Except FileError Spot
  | [] => .ok (.folder p)
  | [name] => f.step p name
  | name :: names => do
    match ← f.step p name with
    | .folder q => walk q names
    | .file .. => .error .notDirectory
    | .free _ => .error .missing

/-- Follows steps from the folder, or from the top if the path starts with a slash. -/
def walkFrom (name : String) (steps : List String) : Except FileError Spot :=
  if name = "" then .error .missing
  else if maxPath < Text.byteSize name.toList then .error .nameTooLong
  else f.walk (if name.toList.head? == some '/' then ["/"] else []) steps

/-- The text of a file. -/
def read (name : String) : Except FileError String := do
  match ← f.walkFrom name (name.splitOn "/") with
  | .folder _ => .error .isDirectory
  | .file _ text => .ok text
  | .free _ => .error .missing

/-- The path at which a file can be written.  A path that ends in a slash stands for a folder
    whether there is one or not. -/
def place (name : String) : Except FileError Path := do
  let steps := name.splitOn "/"
  if name.toList.getLast? == some '/' then
    let around := (steps.reverse.dropWhile (· == "")).reverse.dropLast
    let _ ← f.walkFrom name (around ++ [""])
    .error .isDirectory
  else match ← f.walkFrom name steps with
    | .folder _ => .error .isDirectory
    | .file p _ | .free p => .ok p

end Folder

end LayoutLR
