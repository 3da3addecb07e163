/-
  Layout-aware LR toolkit — the program.

  The files that a command line names are read first, then the response is
  worked out, printed, and its file written.
-/
import LayoutLR.Command.Respond

namespace LayoutLR.Program

/-- Why a file cannot be used, in the words of the library. -/
def fileError : IO.Error → FileError
  | .noFileOrDirectory .. => .missing
  | .inappropriateType _ code _ => if code = 20 then .notDirectory else .isDirectory
  | e => .other (toString e)

/-- The files that a request reads. -/
def filesOf : Request → List String
  | .version _ | .help => []
  | .extract t _ | .tokens t | .report t _ | .table t _ _ | .graph t _ _ | .generate t _ _ _ =>
    [t.file]
  | .parse t _ input _ => [t.file, input]

/-- Reads a file. -/
def readFile (path : String) : IO (Except FileError String) := do
  try
    return .ok (← IO.FS.readFile path)
  catch e =>
    return .error (fileError e)

/-- Writes the file of a response. -/
def writeFile (r : Response) : IO Response := do
  match r.file with
  | none => return r
  | some (path, text) =>
    try
      IO.FS.writeFile path text
      return r
    catch e =>
      return .failure (.file (fileError e))

end LayoutLR.Program

open LayoutLR Program in
/-- Answers a command line. -/
def main (args : List String) : IO UInt32 := do
  let paths := match Request.read args with
    | .ok r => filesOf r
    | .error _ => []
  let files ← paths.mapM fun path => do return (path, ← readFile path)
  let r ← writeFile (respond args fun path => (files.lookup path).getD (.error .missing))
  IO.print r.out
  IO.eprint r.err
  return r.exit.toUInt32
