import EbnfKit.CommandLine.Run

/-! # The program

    Runs the script of a command line against the disk. -/

open EbnfKit EbnfKit.CommandLine

namespace EbnfKit.Program

/-- The reason of a failure of the system, by its number; some failures come with the
    number negated. -/
def fileErrorOfCode (code : UInt32) (details : String) : FileError :=
  let number := if code < 0x80000000 then code else 0 - code
  if number = 2 then .notFound
  else if number = 20 then .notADirectory
  else if number = 21 then .isADirectory
  else if number = 36 then .nameTooLong
  else .other s!"{details} (os error {number})"

/-- The reason of a failure of the system. -/
def fileError : IO.Error → FileError
  | .noFileOrDirectory _ code details => fileErrorOfCode code details
  | .invalidArgument _ code details => fileErrorOfCode code details
  | .inappropriateType _ code details => fileErrorOfCode code details
  | .permissionDenied _ code details => fileErrorOfCode code details
  | e => .other (toString e)

/-- The text of a file. -/
def readText (path : String) : IO (Except FileError Text) := do
  try
    let bytes ← IO.FS.readBinFile path
    match String.fromUTF8? bytes with
    | some text => return .ok text.toList
    | none => return .error .notText
  catch e => return .error (fileError e)

/-- There is a file at the path. -/
def isFile (path : String) : IO Bool := do
  try
    let information ← (← IO.FS.realPath path).metadata
    return match information.type with
      | .file => true
      | _ => false
  catch _ => return false

/-- Writes a file; gives the reason if that fails. -/
def writeText (path : String) (contents : Text) : IO (Option FileError) := do
  try
    IO.FS.writeFile path (String.ofList contents)
    return none
  catch e => return some (fileError e)

/-- Runs a script against the disk. -/
def run : Script → IO Result
  | .finish result => return result
  | .read path next => do run (next (← readText (String.ofList path)))
  | .isFile path next => do run (next (← isFile (String.ofList path)))
  | .write path contents next => do run (next (← writeText (String.ofList path) contents))

/-- Shows an outcome and gives its exit code. -/
def finish (outcome : Outcome) : IO UInt32 := do
  (← IO.getStdout).putStr (String.ofList outcome.stdout)
  (← IO.getStderr).putStr (String.ofList outcome.stderr)
  return outcome.code.toUInt32

end EbnfKit.Program

/-- The command line. -/
def main (args : List String) : IO UInt32 := do
  match Request.ofArguments (args.map String.toList) with
  | .error e => Program.finish e.outcome
  | .ok .version => Program.finish .version
  | .ok (.run invocation) =>
      Program.finish (invocation.settings.outcome (← Program.run invocation.script))
