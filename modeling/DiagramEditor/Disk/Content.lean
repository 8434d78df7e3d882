import DiagramEditor.Store.File

/-!
# Files

What is found under the paths a command is given, and what becomes of it.
-/

set_option autoImplicit false

namespace DiagramEditor

inductive FileContent where
  | text (content : String)
  | database (d : Database)
  /-- Neither of the two. -/
  | binary

namespace FileContent

/-- Not even a header fits into a single byte, and a file that holds no more passes for
a database to be made. -/
def isBlank : FileContent → Bool
  | text content => content.utf8ByteSize ≤ 1
  | _ => false

/-- A file without a single byte passes for one that is not there. -/
def isEmpty : FileContent → Bool
  | text content => content.isEmpty
  | _ => false

def startsWithZero : FileContent → Bool
  | text content => content.toList.head? = some '\x00'
  | _ => false

/-- The size of what a log starts with, in bytes. -/
def logHeader : Nat := 32

/-- A log that is shorter than its header holds nothing. -/
def mayHoldLog : FileContent → Bool
  | text content => logHeader ≤ content.utf8ByteSize
  | _ => true

def database? : FileContent → Option Database
  | database d => some d
  | _ => none

end FileContent

inductive PathContent where
  | file (content : FileContent)
  | directory
  | missing
  /-- Not even the directory is there. -/
  | nowhere
  /-- The path goes on behind a file. -/
  | insideFile
  /-- A name in the path is too long for any file. -/
  | tooLong

inductive FileFault where
  | notFound
  | notDirectory
  | isDirectory
  | nameTooLong
  | notText
deriving DecidableEq, Repr

def FileFault.message : FileFault → String
  | notFound => "No such file or directory (os error 2)"
  | notDirectory => "Not a directory (os error 20)"
  | isDirectory => "Is a directory (os error 21)"
  | nameTooLong => "File name too long (os error 36)"
  | notText => "stream did not contain valid UTF-8"

namespace PathContent

def readText : PathContent → Except FileFault String
  | file (.text content) => .ok content
  | file (.database d) => if d.texts.isNone then .ok Database.header else .error .notText
  | file .binary => .error .notText
  | directory => .error .isDirectory
  | missing | nowhere => .error .notFound
  | insideFile => .error .notDirectory
  | tooLong => .error .nameTooLong

def content? : PathContent → Option FileContent
  | file content => some content
  | _ => none

/-- Something is there, be it a file or a directory. -/
def isThere : PathContent → Bool
  | file _ | directory => true
  | _ => false

/-- Nothing can ever be found there. -/
def isBlocked : PathContent → Bool
  | insideFile | tooLong => true
  | _ => false

end PathContent

/-- Where a command finds what its paths name. -/
structure Files where
  /-- The directory that the paths start from. -/
  home : String
  look : String → PathContent

namespace Files

/-- The length of a path from the root, in bytes. -/
def pathSize (files : Files) (path : String) : Nat :=
  if path.startsWith "/" then path.utf8ByteSize else files.home.utf8ByteSize + 1 + path.utf8ByteSize

end Files

/-- What becomes of files. One without a content goes. -/
abbrev Changes := Table String (Option FileContent)

/-- Files that are changed step by step. -/
structure Disk where
  files : Files
  changes : Changes

namespace Disk

def look (path : String) (d : Disk) : PathContent :=
  match Table.get? path d.changes with
  | some (some content) => .file content
  | some none => .missing
  | none => d.files.look path

def change (path : String) (content : Option FileContent) (d : Disk) : Disk :=
  { d with changes := Table.put path content d.changes }

@[simp] theorem look_change_some (path : String) (content : FileContent) (d : Disk) :
    (d.change path (some content)).look path = .file content := by
  simp [look, change, Table.get?_put_self]

@[simp] theorem look_change_none (path : String) (d : Disk) : (d.change path none).look path = .missing := by
  simp [look, change, Table.get?_put_self]

@[simp] theorem look_change_of_ne {path other : String} (content : Option FileContent) (d : Disk)
    (h : other ≠ path) : (d.change path content).look other = d.look other := by
  simp [look, change, Table.get?_put_of_ne content d.changes h]

end Disk

end DiagramEditor
