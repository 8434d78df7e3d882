import DiagramEditor.Command.Arguments

/-!
# Help on the command line
-/

set_option autoImplicit false

namespace DiagramEditor.HelpTopic

def programName : String := "dynlang"

def helpAbout : String := "Print this message or the help of the given subcommand(s)"

/-- Two columns, the first as wide as its widest text. -/
def columns (rows : List (String × String)) : String :=
  let width := rows.foldl (fun w (a, _) => max w a.length) 0
  String.join (rows.map fun (a, b) => "  " ++ a ++ String.ofList (List.replicate (width - a.length) ' ') ++ "  " ++ b ++ "\n")

def placeholder (o : CommandOption) : String := "--" ++ o.name ++ " <" ++ o.valueName ++ ">"

def optionRow (o : CommandOption) : String × String :=
  ("-" ++ o.letter.toString ++ ", " ++ placeholder o, o.about)

def helpRow : String × String := ("-h, --help", "Print help")

def subcommandRows : List (String × String) :=
  Subcommand.all.map (fun s => (s.name, s.about)) ++ [("help", helpAbout)]

/-- How a subcommand is called. -/
def usage (s : Subcommand) : String :=
  let optional := if s.options.all (·.required) then "" else " [OPTIONS]"
  let required := (s.options.filter (·.required)).map fun o => " " ++ placeholder o
  programName ++ " " ++ s.name ++ optional ++ String.join required

def text : HelpTopic → String
  | program =>
    "Dynamic diagram language tools\n\nUsage: " ++ programName ++ " <COMMAND>\n\nCommands:\n" ++
      columns subcommandRows ++ "\nOptions:\n" ++ columns [helpRow]
  | subcommand s =>
    s.about ++ "\n\nUsage: " ++ usage s ++ "\n\nOptions:\n" ++ columns (s.options.map optionRow ++ [helpRow])
  | help =>
    helpAbout ++ "\n\nUsage: " ++ programName ++ " help [COMMAND]...\n\nArguments:\n" ++
      columns [("[COMMAND]...", "Print help for the subcommand(s)")]

end DiagramEditor.HelpTopic
