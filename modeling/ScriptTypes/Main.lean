import ScriptTypes.CommandLine.Run

/-!
# The program

Runs a command line with the files of the machine.
-/

namespace ScriptTypes

/-- The failure that an error of the machine stands for. -/
def fileError : IO.Error → FileError
  | .noFileOrDirectory .. => .notFound
  | .inappropriateType .. => .notADirectory
  | _ => .notFound

/-- The files of the machine. -/
def machineFiles : Files IO where
  isFile p := do
    match ← (IO.FS.readBinFile p).toBaseIO with
    | .ok _ => return true
    | .error _ => return false
  canonical p := do
    match ← (IO.FS.realPath p).toBaseIO with
    | .ok path => return .ok path.toString
    | .error e => return .error (fileError e)
  readText p := do
    match ← (IO.FS.readBinFile p).toBaseIO with
    | .ok content =>
      match String.fromUTF8? content with
      | some text => return .ok text
      | none => return .error .invalidData
    | .error e => return .error (fileError e)

end ScriptTypes

def main (args : List String) : IO UInt32 := do
  let outcome ← ScriptTypes.CommandLine.run ScriptTypes.machineFiles args
  IO.print outcome.output
  unless outcome.complaint.isEmpty do IO.eprintln outcome.complaint
  return outcome.code.toUInt32
