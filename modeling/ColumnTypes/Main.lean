import ColumnTypes.Inspect.Run

open ColumnTypes.Inspect

/-!
# The inspector as a program

Reads the files that the arguments name and prints the outcome.
-/

namespace ColumnTypes.Inspect

/-- Only a directory has the code 21 among the things that are not files. -/
def failureOf : IO.Error → ReadFailure
  | .noFileOrDirectory .. => .absent
  | .permissionDenied .. => .denied
  | .inappropriateType _ code _ => if code = 21 then .directory else .throughFile
  | e => .other e.toString

def readFile (path : String) : IO (Except ReadFailure ByteArray) := do
  try
    let bytes ← IO.FS.readBinFile path
    pure (.ok bytes)
  catch e =>
    pure (.error (failureOf e))

def readAll : List String → IO (List (String × Except ReadFailure ByteArray))
  | [] => pure []
  | path :: paths => do
      let content ← readFile path
      let others ← readAll paths
      pure ((path, content) :: others)

end ColumnTypes.Inspect

def main (args : List String) : IO UInt32 := do
  let request := Request.ofArguments args
  let contents ← readAll request.files
  let outcome := request.perform fun path => (contents.lookup path).getD (.error .absent)
  let output ← IO.getStdout
  let errors ← IO.getStderr
  output.putStr outcome.output
  errors.putStr outcome.errors
  pure outcome.code.toUInt32
