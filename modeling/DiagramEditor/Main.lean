import DiagramEditor.Command.Help
import DiagramEditor.Command.Run
import DiagramEditor.Store.File
import DiagramEditor.Uuid

/-!
# The command line program

Looks up the paths a command names, runs it, prints its transcript and changes the
files as it asks.
-/

set_option autoImplicit false

open DiagramEditor

namespace DiagramEditor.Program

def classify (bytes : ByteArray) : FileContent :=
  match String.fromUTF8? bytes with
  | none => .binary
  | some content =>
    match Database.ofText? content with
    | some d => .database d
    | none => .text content

/-- What it means that a path cannot be read. -/
def explain : IO.Error → PathContent
  | .noFileOrDirectory .. => .missing
  | .invalidArgument .. => .tooLong
  | .inappropriateType _ code _ => if code = 21 then .directory else .insideFile
  | _ => .directory

def tryRead (path : String) : IO PathContent := do
  try
    return .file (classify (← IO.FS.readBinFile path))
  catch e => return explain e

/-- The path of the directory that a path leads through last. -/
def directoryOf (path : String) : String :=
  "/".intercalate ((path.splitOn "/").dropLast ++ ["."])

def lookUp (path : String) : IO PathContent := do
  match ← tryRead path with
  | .missing =>
    match ← tryRead (directoryOf path) with
    | .directory => return .missing
    | _ => return .nowhere
  | content => return content

/-- Looks up every path once. -/
def lookUpAll : List String → IO (Table String PathContent)
  | [] => return []
  | path :: rest => do
    let content ← lookUp path
    return Table.put path content (← lookUpAll rest)

def filesOf (home : String) (contents : Table String PathContent) : Files :=
  ⟨home, fun path => (Table.get? path contents).getD .missing⟩

/-- Bytes that are no text. -/
def noText : ByteArray := ⟨#[255]⟩

def changeFile : String × Option FileContent → IO Unit
  | (path, none) => IO.FS.removeFile path
  | (path, some (.text content)) => IO.FS.writeFile path content
  | (path, some (.database d)) => IO.FS.writeFile path d.toText
  | (path, some .binary) => IO.FS.writeBinFile path noText

def printTranscript (t : Transcript) : IO UInt32 := do
  t.err.forM fun line => IO.eprintln line
  t.out.forM fun line => IO.println line
  return UInt32.ofNat t.exit.number

def runCommand (c : Command) : IO UInt32 := do
  let files := filesOf (← IO.currentDir).toString (← lookUpAll c.paths)
  let (transcript, changes) := c.run files (IdSupply.start.takeId).1
  changes.forM changeFile
  printTranscript transcript

end DiagramEditor.Program

def main (arguments : List String) : IO UInt32 :=
  match Command.read arguments with
  | .ok c => Program.runCommand c
  | .error (.help topic) => do
    IO.print topic.text
    return 0
  | .error .misuse => do
    IO.eprint (HelpTopic.text .program)
    return 2
