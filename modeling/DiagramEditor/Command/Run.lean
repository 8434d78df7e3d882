import DiagramEditor.Command.Arguments
import DiagramEditor.Disk.Opening
import DiagramEditor.Model.Issues
import DiagramEditor.Operation.Apply
import DiagramEditor.Visual.Wire

/-!
# Running commands

A command reads the files it names and prints. Its exit code is 0 if all went well,
1 if a language or model is refused, 2 if a model has issues and 3 if a file or
database cannot be used. Only `store` changes files, those of a database.
-/

set_option autoImplicit false

namespace DiagramEditor

inductive ExitCode where
  | success
  | refused
  | issuesFound
  | unusableFile
deriving DecidableEq, Repr

def ExitCode.number : ExitCode → Nat
  | success => 0
  | refused => 1
  | issuesFound => 2
  | unusableFile => 3

/-- What went wrong in a command. -/
inductive CommandError where
  | unreadable (path : String) (fault : FileFault)
  | invalid (path : String) (error : WireError)
  | language (path : String) (fault : TemplateFault)
  | model (path : String) (error : EditError)
  | showcase (error : EditError)
  | rendering (error : EditError)
  | database (name : String) (error : StoreError)
  | unstorable (error : StoreError)

namespace CommandError

def message : CommandError → String
  | unreadable path fault => "failed to read '" ++ path ++ "': " ++ fault.message
  | invalid path e => "'" ++ path ++ "' is not valid: " ++ e.message
  | language path fault => "language '" ++ path ++ "': " ++ (EditError.template fault).message
  | model path e => "model '" ++ path ++ "': " ++ e.message
  | showcase e => e.message
  | rendering e => "render failed: " ++ e.message
  | database name e => "failed to open database '" ++ name ++ "': " ++ e.message
  | unstorable e => "failed to store language: " ++ e.message

def exitCode : CommandError → ExitCode
  | unreadable _ _ | database _ _ | unstorable _ => .unusableFile
  | _ => .refused

end CommandError

/-- What a command prints and how it ends. -/
structure Transcript where
  exit : ExitCode
  out : List String
  err : List String

namespace Transcript

/-- The transcript of a command that fails after printing some lines. -/
def failed (out : List String) (e : CommandError) : Transcript :=
  ⟨e.exitCode, out, ["Error: " ++ e.message]⟩

def warning (d : Diagnostic) : String := "warning: " ++ d.element ++ " (" ++ d.template ++ "): " ++ d.reason

def ofRendering (r : Rendering) : Transcript := ⟨.success, [r.toValue.pretty], r.diagnostics.map warning⟩

def ofResult : Except CommandError Rendering → Transcript
  | .ok r => ofRendering r
  | .error e => failed [] e

end Transcript

namespace Command

def readDocument {α : Type} (d : Decoder α) (files : Files) (path : String) : Except CommandError α :=
  match (files.look path).readText with
  | .error fault => .error (.unreadable path fault)
  | .ok text =>
    match d.ofText text with
    | .error e => .error (.invalid path e)
    | .ok a => .ok a

def compile (path : String) (d : LanguageDocument) : Except CommandError Language :=
  match Language.compile d with
  | .error fault => .error (.language path fault)
  | .ok l => .ok l

def readLanguage (files : Files) (path : String) : Except CommandError Language := do
  compile path (← readDocument LanguageDocument.decode files path)

def readModel (files : Files) (path : String) : Except CommandError Model :=
  readDocument Model.decode files path

def renderUnder (l : Language) (d : Diagram) : Except CommandError Rendering :=
  match d.render l with
  | .error e => .error (.rendering e)
  | .ok (_, r) => .ok r

/-- Renders a model under a language. -/
def renderModel (files : Files) (languagePath modelPath : String) : Except CommandError Rendering := do
  let l ← readLanguage files languagePath
  let m ← readModel files modelPath
  match Diagram.ofModel m with
  | .error e => .error (.model modelPath e)
  | .ok d => renderUnder l d

/-- Renders one element of a type. -/
def renderShowcase (files : Files) (languagePath tag modelId : String) : Except CommandError Rendering := do
  let l ← readLanguage files languagePath
  match Diagram.showcase l tag modelId with
  | .error e => .error (.showcase e)
  | .ok d => renderUnder l d

def languageLine (l : Language) : String :=
  "language '" ++ l.id ++ "' v" ++ toString l.version ++ ": " ++ toString l.nodes.length ++ " node type(s), " ++
    toString l.edges.length ++ " edge type(s)"

/-- What is printed about a model that was checked. -/
def reportModel (l : Language) (m : Model) (out : List String) : Transcript :=
  match l.modelIssues m with
  | [] => ⟨.success, out ++ ["model '" ++ m.id ++ "': " ++ toString m.size ++ " element(s), no issues"], []⟩
  | issues =>
    ⟨.issuesFound, out,
      ("model '" ++ m.id ++ "': " ++ toString issues.length ++ " issue(s):") ::
        issues.map fun i => "  - " ++ i.message⟩

def runValidate (files : Files) (languagePath : String) (modelPath : Option String) : Transcript :=
  match readLanguage files languagePath with
  | .error e => .failed [] e
  | .ok l =>
    let out := [languageLine l]
    match modelPath with
    | none => ⟨.success, out, []⟩
    | some path =>
      match readModel files path with
      | .error e => .failed out e
      | .ok m => reportModel l m out

/-- The location that a name gives. -/
def locate (name : String) : Except CommandError Location :=
  match Location.ofName name with
  | .error fault => .error (.database name (.database fault.message))
  | .ok l => .ok l

/-- Puts one more language into a database. A language that cannot be compiled is kept out. -/
def storeLanguage (databaseName languagePath : String) :
    ExceptT CommandError (StateM Disk) LanguageDocument := do
  let d ← ExceptT.mk (return readDocument LanguageDocument.decode (← get).files languagePath)
  let _ ← ExceptT.mk (pure (compile languagePath d))
  let l ← ExceptT.mk (pure (locate databaseName))
  (l.openAs databaseName).adapt (CommandError.database databaseName)
  (l.update (·.putLanguage d)).adapt CommandError.unstorable
  return d

/-- The transcript of a command, and what becomes of files. Showing a type needs an id for
its model. -/
def run (files : Files) (modelId : String) : Command → Transcript × Changes
  | render language model => (.ofResult (renderModel files language model), [])
  | showcase language tag => (.ofResult (renderShowcase files language tag modelId), [])
  | validate language model => (runValidate files language model, [])
  | store database language =>
    match (storeLanguage database language).run.run ⟨files, []⟩ with
    | (.error e, disk) => (.failed [] e, disk.changes)
    | (.ok d, disk) =>
      (⟨.success, ["imported language '" ++ d.id ++ "' v" ++ toString d.version], []⟩, disk.changes)

/-- The paths to look at for the database that a name gives. -/
def databasePaths (name : String) : List String :=
  match Location.ofName name with
  | .ok (.file f) => f.paths
  | _ => []

/-- The paths under which a command looks. -/
def paths : Command → List String
  | render language model => [language, model]
  | showcase language _ => [language]
  | validate language model => language :: model.toList
  | store database language => databasePaths database ++ [language]

end Command

end DiagramEditor
