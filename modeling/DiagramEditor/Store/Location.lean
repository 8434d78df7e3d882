/-!
# Where a database is kept

A database is kept in memory, and forgotten when it is closed, or in a file. Some
more files beside that file belong to it while it is in use.
-/

set_option autoImplicit false

namespace DiagramEditor

inductive Access where
  | readOnly
  /-- For reading and writing, if it is there. -/
  | existing
  /-- For reading and writing. It is made if it is not there. -/
  | creating
  /-- Kept in memory alone. -/
  | transient
deriving DecidableEq, Repr

namespace Access

def ofName? : String → Option Access
  | "ro" => some readOnly
  | "rw" => some existing
  | "rwc" => some creating
  | "memory" => some transient
  | _ => none

def rank : Access → Nat
  | readOnly => 1
  | existing => 2
  | creating => 3
  | transient => 0

/-- A later option may ask for less than an earlier one, but not for more. -/
def allows (current next : Access) : Bool := current == transient || next.rank ≤ current.rank

@[simp] theorem allows_self (a : Access) : a.allows a = true := by cases a <;> rfl

@[simp] theorem readOnly_allows_iff (a : Access) : readOnly.allows a = true ↔ a = readOnly ∨ a = transient := by
  cases a <;> decide

end Access

/-- How others are kept from a database that is in use. -/
inductive Locking where
  | shared
  /-- As long as the database is open. -/
  | exclusive
  /-- By a file of that purpose. -/
  | lockFile
  | unlocked
deriving DecidableEq, Repr

namespace Locking

/-- The locks that are put on the file itself. -/
def holdsFile : Locking → Bool
  | shared | exclusive => true
  | lockFile | unlocked => false

end Locking

inductive Companion where
  /-- Takes back what was not finished. -/
  | journal
  /-- Holds what is not yet in the database. -/
  | log
  /-- Finds what is in the log. -/
  | index
  | lock
deriving DecidableEq, Repr

namespace Companion

def suffix : Companion → String
  | journal => "-journal"
  | log => "-wal"
  | index => "-shm"
  | lock => ".lock"

def all : List Companion := [journal, log, index, lock]

@[simp] theorem mem_all (c : Companion) : c ∈ all := by cases c <;> decide

end Companion

structure DatabaseFile where
  path : String
  /-- The paths of the names on the way, as far as they are followed one by one. -/
  passed : List String
  access : Access
  locking : Locking
  /-- Nobody changes the file, so that nothing has to be looked for beside it. -/
  settled : Bool
  /-- The index of a log is used as it is. -/
  keepsIndex : Bool
  /-- The file whose permissions a new database takes. -/
  permissionsOf : Option String
deriving DecidableEq, Repr

namespace DatabaseFile

def isWritable (f : DatabaseFile) : Bool := f.access != .readOnly && !f.settled

/-- A log is kept only by those that lock the file. -/
def mayLog (f : DatabaseFile) : Bool := f.locking.holdsFile && !f.settled

/-- Whether the index of a log is left alone. Who keeps all others out and can write has no
need of one. -/
def leavesIndex (f : DatabaseFile) : Bool :=
  f.keepsIndex && !(f.isWritable && f.locking == .exclusive)

def companion (f : DatabaseFile) (c : Companion) : String := f.path ++ c.suffix

def paths (f : DatabaseFile) : List String :=
  f.passed ++ f.path :: (Companion.all.map f.companion ++ f.permissionsOf.toList)

end DatabaseFile

inductive Location where
  | memory (writable : Bool)
  | file (f : DatabaseFile)
deriving DecidableEq, Repr

/-! A path is a list of names. Empty names and `.` do not count, and `..` takes back
the name before it, whether that names a directory or not. -/

namespace PathText

/-- One name after others, from the root or from where the program runs. -/
def advance (fromRoot : Bool) (before : List String) (name : String) : List String :=
  if name = "" ∨ name = "." then before
  else if name = ".." ∧ !fromRoot ∧ (before.isEmpty || before.getLast? == some "..") then before ++ [name]
  else if name = ".." then before.dropLast
  else before ++ [name]

def isFromRoot (path : String) : Bool := path.startsWith "/"

def names (path : String) : List String := (path.splitOn "/").foldl (advance (isFromRoot path)) []

def ofNames (fromRoot : Bool) (names : List String) : String :=
  let plain := "/".intercalate names
  if fromRoot then "/" ++ plain
  else if plain.isEmpty then "."
  else plain

/-- The path along the names alone. -/
def normalize (path : String) : String := ofNames (isFromRoot path) (names path)

/-- The paths that a path leads to, name by name. -/
def passed (path : String) : List String :=
  let go := fun (before, all) name =>
    let here := advance (isFromRoot path) before name
    (here, ofNames (isFromRoot path) here :: all)
  ((path.splitOn "/").foldl go ([], [])).2.eraseDups.reverse

end PathText

namespace DatabaseFile

def ofPath (path : String) (access : Access) : DatabaseFile :=
  ⟨PathText.normalize path, PathText.passed path, access, .shared, false, false, none⟩

end DatabaseFile

/-- A database with such a path is not kept. -/
def Location.isForgotten (path : String) : Bool := path = "" || path = ":memory:"

end DiagramEditor
