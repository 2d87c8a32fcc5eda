import Schemata.Text.Similarity
import Schemata.Text.Printable

/-!
# Arguments of the command

Arguments are options and paths in any order. A long option may carry its value
after an equals sign; short options may stand together behind one dash, and the
last of them may carry its value. Otherwise the value of an option is the next
argument, whatever it looks like. After two dashes there are only paths.
-/

namespace Schemata.Cli

inductive Switch
  | name
  | config
  | format
  | failOnError
  | verbose
  | help
deriving DecidableEq, Repr

namespace Switch

def all : List Switch :=
  [name, config, format, failOnError, verbose, help]

def long : Switch → String
  | name => "--name"
  | config => "--config"
  | format => "--format"
  | failOnError => "--fail-on-error"
  | verbose => "--verbose"
  | help => "--help"

def short? : Switch → Option Char
  | name => some 'n'
  | config => some 'c'
  | format => some 'f'
  | verbose => some 'v'
  | failOnError | help => none

def takesValue : Switch → Bool
  | name | config | format => true
  | failOnError | verbose | help => false

/-- The switch with the given long spelling. -/
def ofLong? (text : String) : Option Switch :=
  all.find? fun switch => switch.long = text

/-- The switch with the given short spelling. -/
def ofShort? (c : Char) : Option Switch :=
  all.find? fun switch => switch.short? = some c

end Switch

/-- What is wrong with the arguments. -/
inductive UsageError
  | unknownOption (option : String) (suggestions : List String)
  | unwantedValue (option : String)
  | missingValue (option : String)
  | missingPath
  | missingFile (parameter path : String)
  | unknownFormat (format : String)
  | extraArguments (arguments : List String)
deriving DecidableEq, Repr

def UsageError.message : UsageError → String
  | unknownOption option suggestions =>
      "No such option: " ++ option ++
        match suggestions with
        | [] => ""
        | [suggestion] => " Did you mean " ++ suggestion ++ "?"
        | _ =>
            " (Possible options: " ++
              ", ".intercalate (suggestions.mergeSort fun a b => a ≤ b) ++ ")"
  | unwantedValue option => "Option " ++ Text.quoted option ++ " does not take a value."
  | missingValue option => "Option " ++ Text.quoted option ++ " requires an argument."
  | missingPath => "Missing argument 'PATH'."
  | missingFile parameter path =>
      "Invalid value for " ++ parameter ++ ": Path " ++ Text.quoted path ++ " does not exist."
  | unknownFormat format =>
      "Invalid value for '--format' / '-f': " ++ Text.quoted format ++
        " is not one of 'json', 'text'."
  | extraArguments arguments =>
      "Got unexpected extra argument" ++ (if arguments.length = 1 then "" else "s") ++ " (" ++
        " ".intercalate arguments ++ ")"

/-- Whether the usage of the command is shown before the message. It is not when
an option stands with a value too many or too few. -/
def UsageError.showsUsage : UsageError → Bool
  | unwantedValue _ => false
  | missingValue _ => false
  | _ => true

/-- A switch as given, with its value if it takes one. -/
structure Given where
  switch : Switch
  value : String
deriving DecidableEq, Repr

/-- What one argument gives: switches, and perhaps one more whose value is still to
come, with its spelling. -/
structure Reading where
  given : List Given
  open? : Option (Switch × String)

/-- Read the switches that stand behind one dash. -/
def readShort : List Char → Except UsageError Reading
  | [] => .ok ⟨[], none⟩
  | c :: rest =>
      match Switch.ofShort? c with
      | none => .error (.unknownOption (String.ofList ['-', c]) [])
      | some switch =>
          if !switch.takesValue then
            (readShort rest).map fun reading =>
              { reading with given := ⟨switch, ""⟩ :: reading.given }
          else if rest.isEmpty then .ok ⟨[], some (switch, String.ofList ['-', c])⟩
          else .ok ⟨[⟨switch, String.ofList rest⟩], none⟩

/-- Read an argument that starts with a dash. -/
def readSwitches (argument : List Char) : Except UsageError Reading :=
  let option := String.ofList (argument.takeWhile (· ≠ '='))
  let value? := (argument.dropWhile (· ≠ '=')).tail?
  match Switch.ofLong? option, value? with
  | some switch, some value =>
      if switch.takesValue then .ok ⟨[⟨switch, String.ofList value⟩], none⟩
      else .error (.unwantedValue option)
  | some switch, none =>
      if switch.takesValue then .ok ⟨[], some (switch, option)⟩
      else .ok ⟨[⟨switch, ""⟩], none⟩
  | none, _ =>
      if ['-', '-'].isPrefixOf argument then
        .error (.unknownOption option (Text.closest option (Switch.all.map Switch.long)))
      else readShort (argument.drop 1)

/-- The switches and the paths that are given, in order. -/
structure Arguments where
  given : List Given
  paths : List String
deriving DecidableEq, Repr

/-- Read arguments, when a switch still waits for its value or none does. -/
def readArguments (open? : Option (Switch × String)) :
    List String → Except UsageError Arguments
  | [] =>
      match open? with
      | some (_, spelling) => .error (.missingValue spelling)
      | none => .ok ⟨[], []⟩
  | argument :: rest =>
      match open? with
      | some (switch, _) =>
          (readArguments none rest).map fun arguments =>
            { arguments with given := ⟨switch, argument⟩ :: arguments.given }
      | none =>
          if argument = "--" then .ok ⟨[], rest⟩
          else if argument.toList.head? = some '-' && argument ≠ "-" then do
            let reading ← readSwitches argument.toList
            let arguments ← readArguments reading.open? rest
            return { arguments with given := reading.given ++ arguments.given }
          else
            (readArguments none rest).map fun arguments =>
              { arguments with paths := argument :: arguments.paths }

namespace Arguments

/-- The value of a switch. The last one given counts. -/
def value? (arguments : Arguments) (switch : Switch) : Option String :=
  ((arguments.given.filter fun given => given.switch = switch).getLast?).map Given.value

/-- Whether a switch is given. -/
def has (arguments : Arguments) (switch : Switch) : Bool :=
  arguments.given.any fun given => given.switch = switch

end Arguments

end Schemata.Cli
