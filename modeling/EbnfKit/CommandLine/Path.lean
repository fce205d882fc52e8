import EbnfKit.Text.Basic

/-! # Paths — where the configuration of a file is

    A path is names with slashes between them.  A name of one dot and a slash at the
    end say nothing, except that a path may begin with a dot. -/

namespace EbnfKit.CommandLine.Path

/-- A path written backwards, without slashes and single dots at its end; the root and
    a dot at its beginning stay. -/
def trimBackwards : Text → Text
  | ['/'] => ['/']
  | '/' :: cs => trimBackwards cs
  | '.' :: '/' :: cs => trimBackwards ('/' :: cs)
  | cs => cs

/-- The path of the directory that holds `path`, empty for a single name.  The root is
    in no directory. -/
def parent? (path : Text) : Option Text :=
  match trimBackwards path.reverse with
  | [] => none
  | ['/'] => none
  | backwards => some (trimBackwards (backwards.dropWhile (· != '/'))).reverse

/-- The path of `name` in `directory`. -/
def join (directory name : Text) : Text :=
  if directory.isEmpty then name
  else if directory.getLast? = some '/' then directory ++ name
  else directory ++ '/' :: name

/-- The name of a configuration file. -/
def configName : Text :=
  "ebnf.toml".toList

/-- The path of the configuration file beside `file`. -/
def configBeside (file : Text) : Text :=
  join ((parent? file).getD ['.']) configName

end EbnfKit.CommandLine.Path
