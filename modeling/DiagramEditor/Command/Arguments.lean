import DiagramEditor.Table

/-!
# Command line arguments

A subcommand is followed by its options, each with a value: `--name value`,
`--name=value`, `-n value` or `-nvalue`. Arguments are read from left to right and the
first that does not fit ends the reading.
-/

set_option autoImplicit false

namespace DiagramEditor

inductive Subcommand where
  | render
  | showcase
  | validate
  | store
deriving DecidableEq, Repr

structure CommandOption where
  name : String
  letter : Char
  /-- What its value is called in the help. -/
  valueName : String
  required : Bool
  /-- A path must not be empty. -/
  isPath : Bool
  about : String
deriving DecidableEq, Repr

inductive Command where
  | render (language model : String)
  | showcase (language tag : String)
  | validate (language : String) (model : Option String)
  | store (database language : String)
deriving DecidableEq, Repr

inductive HelpTopic where
  | program
  | subcommand (s : Subcommand)
  | help
deriving DecidableEq, Repr

inductive Usage where
  | help (topic : HelpTopic)
  | misuse
deriving DecidableEq, Repr

namespace CommandOption

def language : CommandOption := ⟨"language", 'l', "LANGUAGE", true, true, "Language document (JSON)"⟩

def model : CommandOption := ⟨"model", 'm', "MODEL", true, true, "Graph model (JSON)"⟩

def type : CommandOption := ⟨"type", 't', "ELEMENT_TYPE", true, false, "Node or edge type to show"⟩

def database : CommandOption := ⟨"db", 'd', "DB", true, false, "Path to the database file"⟩

end CommandOption

namespace Subcommand

def all : List Subcommand := [render, showcase, validate, store]

def name : Subcommand → String
  | render => "render"
  | showcase => "showcase"
  | validate => "validate"
  | store => "import"

def about : Subcommand → String
  | render => "Render a model to its visual tree (JSON on stdout)"
  | showcase => "Render a single element of one type"
  | validate => "Check a language, and optionally a model against it"
  | store => "Store a language document in a server database"

def options : Subcommand → List CommandOption
  | render => [.language, .model]
  | showcase => [.language, .type]
  | validate => [.language, { CommandOption.model with required := false }]
  | store => [.database, .language]

def named? (name : String) : Option Subcommand := all.find? (·.name == name)

end Subcommand

/-- The values of the options met so far, by name. -/
abbrev OptionValues := Table String String

namespace OptionValues

/-- Sets an option, which may be done once. -/
def set (o : CommandOption) (value : String) (found : OptionValues) : Except Usage OptionValues :=
  if (Table.get? o.name found).isSome || (o.isPath && value.isEmpty) then .error .misuse
  else .ok (Table.put o.name value found)

end OptionValues

namespace Subcommand

/-- How an argument begins to be read. -/
inductive Reading where
  | complete (o : CommandOption) (value : String)
  /-- An option whose value is the next argument. -/
  | awaiting (o : CommandOption)
  | help
  | stop

/-- Reads what follows two dashes. -/
def readLong (s : Subcommand) (cs : List Char) : Option Reading :=
  let name := String.ofList (cs.takeWhile (· != '='))
  match s.options.find? (·.name == name), cs.dropWhile (· != '=') with
  | some o, _ :: value => some (.complete o (String.ofList value))
  | some o, [] => some (.awaiting o)
  | none, [] => if name = "help" then some .help else none
  | none, _ => none

/-- Reads what follows one dash. -/
def readShort (s : Subcommand) (letter : Char) (rest : List Char) : Option Reading :=
  match s.options.find? (·.letter == letter), rest with
  | some o, [] => some (.awaiting o)
  | some o, '=' :: value => some (.complete o (String.ofList value))
  | some o, value => some (.complete o (String.ofList value))
  | none, _ => if letter = 'h' then some .help else none

def readArgument (s : Subcommand) (argument : String) : Option Reading :=
  match argument.toList with
  | ['-', '-'] => some .stop
  | '-' :: '-' :: cs => s.readLong cs
  | '-' :: letter :: rest => s.readShort letter rest
  | _ => none

/-- An argument that may stand behind the option it is for. -/
def isValue (argument : String) : Bool :=
  match argument.toList with
  | '-' :: _ :: _ => false
  | _ => true

def readOptions (s : Subcommand) : List String → OptionValues → Except Usage OptionValues
  | [], found => .ok found
  | argument :: rest, found =>
    match s.readArgument argument with
    | none => .error .misuse
    | some .help => .error (.help (.subcommand s))
    | some .stop => if rest.isEmpty then .ok found else .error .misuse
    | some (.complete o value) =>
      match OptionValues.set o value found with
      | .error e => .error e
      | .ok found => readOptions s rest found
    | some (.awaiting o) =>
      match rest with
      | [] => .error .misuse
      | value :: rest =>
        if isValue value then
          match OptionValues.set o value found with
          | .error e => .error e
          | .ok found => readOptions s rest found
        else .error .misuse

/-- The command of a subcommand whose options have these values. -/
def command? (s : Subcommand) (found : OptionValues) : Option Command := do
  let value? (o : CommandOption) := Table.get? o.name found
  match s with
  | render => return .render (← value? .language) (← value? .model)
  | showcase => return .showcase (← value? .language) (← value? .type)
  | validate => return .validate (← value? .language) (value? .model)
  | store => return .store (← value? .database) (← value? .language)

end Subcommand

namespace Command

def readHelp : List String → Usage
  | [] => .help .program
  | [name] =>
    if name = "help" then .help .help
    else
      match Subcommand.named? name with
      | some s => .help (.subcommand s)
      | none => .misuse
  | _ => .misuse

def read : List String → Except Usage Command
  | [] => .error .misuse
  | first :: rest =>
    if first = "help" then .error (readHelp rest)
    else if first = "--help" ∨ first.toList.take 2 = ['-', 'h'] then .error (.help .program)
    else
      match Subcommand.named? first with
      | none => .error .misuse
      | some s =>
        match s.readOptions rest [] with
        | .error e => .error e
        | .ok found =>
          match s.command? found with
          | some c => .ok c
          | none => .error .misuse

end Command

end DiagramEditor
