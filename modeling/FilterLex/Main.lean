import FilterLex.Command.Answer

/-!
# The command

Reads the input that the arguments ask for and prints the answer to them.
-/

namespace FilterLex.Command

/-- The system's number for a path that goes on after a file, as it comes with an error. -/
def notDirectoryCode : UInt32 := 0 - 20

/-- The file of the given name, as the file system has it. -/
def lookupFile (name : String) : IO Lookup := do
  if name.contains '\x00' then return .problem .zeroCharacter
  try
    return .content (← IO.FS.readBinFile name).toList
  catch
    | .noFileOrDirectory .. => return .problem .missing
    | .inappropriateType _ code _ =>
        return .problem (if code = notDirectoryCode then .notDirectory else .directory)
    | .invalidArgument .. => return .problem .nameTooLong
    | e => throw e

def readStdin : IO (List UInt8) := do
  return (← (← IO.getStdin).readBinToEnd).toList

/-- Prints an answer and gives the exit status. -/
def printAnswer : Answer → IO UInt32
  | .report r => do
      (← IO.getStdout).putStr r.stdout
      (← IO.getStderr).putStr r.stderr
      return r.exitCode.toUInt32
  | .unreadable e => do
      (← IO.getStderr).putStrLn e.message
      return 1

def run (arguments : List String) : IO UInt32 := do
  let input? : Option Input := (parse arguments).toOption.map (·.input)
  let file : Lookup ← match input? with
    | some (.file name) => lookupFile name
    | _ => pure (.problem .missing)
  let stdin : List UInt8 ← match input? with
    | some .standard => readStdin
    | _ => pure []
  printAnswer (answer arguments (fun _ => file) stdin)

end FilterLex.Command

def main (arguments : List String) : IO UInt32 := FilterLex.Command.run arguments
