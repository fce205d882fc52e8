import EbnfKit.Check.Pass
import EbnfKit.Json.Printer
import EbnfKit.Json.Reader

/-! # Configurations in JSON

    A configuration is an object with the fields `passes` and `start-rule`, both
    optional, or an array of the same values in that order.  Unknown and repeated
    fields are refused. -/

namespace EbnfKit.Config

open Json (Value)

/-- The check that a value names: its name, or an object with the name as its one
    field and nothing in it. -/
def passOfJson? : Value → Option Pass
  | .string name => Pass.ofName? (String.ofList name)
  | .object [(name, .null)] => Pass.ofName? (String.ofList name)
  | _ => none

/-- The checks that a value lists. -/
def passesOfJson? : Value → Option (List Pass)
  | .array items => (items.mapM passOfJson?).map Pass.ordered
  | _ => none

/-- The start rule that a value gives: a name, or none. -/
def startRuleOfJson? : Value → Option (Option Text)
  | .null => some none
  | .string name => some (some name)
  | _ => none

/-- The configuration with one more field read. -/
def withField? (config : Config) (name : Text) (value : Value) : Option Config :=
  if name = "passes".toList then
    (passesOfJson? value).map fun passes => { config with passes }
  else if name = "start-rule".toList then
    (startRuleOfJson? value).map fun startRule => { config with startRule }
  else none

/-- The configuration with the given fields; those left out keep their defaults. -/
def ofFields? : List (Text × Value) → Option Config
  | [] => some {}
  | (name, value) :: fields =>
      if fields.any fun field => field.1 == name then none
      else (ofFields? fields).bind fun config => withField? config name value

/-- The configuration that a value describes. -/
def ofJson? : Value → Option Config
  | .object fields => ofFields? fields
  | .array [] => some {}
  | .array [passes] => withField? {} "passes".toList passes
  | .array [passes, startRule] =>
      (withField? {} "passes".toList passes).bind fun config =>
        withField? config "start-rule".toList startRule
  | _ => none

/-- The configuration that a JSON text describes. -/
def parseJson? (text : Text) : Option Config :=
  (Value.ofText? text).bind ofJson?

/-- The configuration as a value. -/
def toJson (config : Config) : Value :=
  .record [
    ("passes", .array (config.passes.map fun pass => .ofString pass.name)),
    ("start-rule", .ofOption .string config.startRule)]

end EbnfKit.Config
