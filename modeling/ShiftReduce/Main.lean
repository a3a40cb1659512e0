import ShiftReduce.Command.Perform

/-!
# The program

Carries out a command over the files of the system.
-/

namespace ShiftReduce

/-- The reason of a failed access to a file. The code of the system comes with either sign. -/
def FileError.ofSystem (e : IO.Error) : FileError :=
  match e with
  | .noFileOrDirectory .. => .notFound
  | .inappropriateType _ code _ =>
    if code = 21 || code = -21 then .isDirectory
    else if code = 20 || code = -20 then .notDirectory
    else .other (toString e)
  | .invalidArgument _ code _ =>
    if code = 36 || code = -36 then .nameTooLong else .other (toString e)
  | e => .other (toString e)

/-- The system as a host. -/
def Host.system : Host IO where
  read path := do
    try
      let bytes ← IO.FS.readBinFile path
      return .ok bytes.toList
    catch e => return .error (.ofSystem e)
  write path bytes := do
    try
      IO.FS.writeBinFile path ⟨bytes.toArray⟩
      return .ok ()
    catch e => return .error (.ofSystem e)
  print text := IO.print text

end ShiftReduce

/-- Carries out the command on the command line. -/
def main (args : List String) : IO UInt32 := do
  let ending ← ShiftReduce.Command.run ShiftReduce.Host.system ShiftReduce.Command.read args
  IO.eprint ending.complaint
  return ending.exitCode
