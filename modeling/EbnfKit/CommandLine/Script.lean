import EbnfKit.CommandLine.Log

/-! # Scripts — commands before they touch a file

    A command is a script: it asks for files, one at a time, and what it does next
    depends on the answers; in the end it has something to say.  Scripts are data, so
    the same command runs against the disk and against a tree of files in memory. -/

namespace EbnfKit.CommandLine

/-- Why a file cannot be read or written. -/
inductive FileError
  | notFound
  | notADirectory
  | isADirectory
  | notText
  | nameTooLong
  | other (message : String)
deriving DecidableEq

/-- The error in words. -/
def FileError.message : FileError → String
  | notFound => "No such file or directory (os error 2)"
  | notADirectory => "Not a directory (os error 20)"
  | isADirectory => "Is a directory (os error 21)"
  | notText => "stream did not contain valid UTF-8"
  | nameTooLong => "File name too long (os error 36)"
  | other message => message

/-- Something said besides the output proper. -/
inductive Notice
  /-- A log entry, shown if the log level has it. -/
  | log (entry : Entry)
  /-- A line for the user, shown unless the command is to be quiet. -/
  | line (text : String)

/-- What a command has to say when it is done. -/
structure Result where
  notices : List Notice
  output : Text
  success : Bool

/-- A command and all that depends on the files it asks for. -/
inductive Script
  | finish (result : Result)
  | read (path : Text) (next : Except FileError Text → Script)
  | isFile (path : Text) (next : Bool → Script)
  | write (path : Text) (contents : Text) (next : Option FileError → Script)

end EbnfKit.CommandLine
