import DiagramEditor.Disk.Content
import DiagramEditor.Store.Address
import DiagramEditor.Store.Schema

/-!
# Opening a database

A database is opened step by step: its path is followed, others are kept out, what an
earlier writer left beside it is dealt with, and its tables are made if there are
none. A step that fails ends the matter, but what was done before stays done.
-/

set_option autoImplicit false

namespace DiagramEditor

/-- Something done with the files of a database. -/
abbrev DiskStep (α : Type) := ExceptT StoreError (StateM Disk) α

namespace DiskStep

def refuse {α : Type} (fault : DatabaseFault) : DiskStep α := throw fault.toError

def look (path : String) : DiskStep PathContent := return (← get).look path

def write (path : String) (content : FileContent) : DiskStep Unit := modify (Disk.change path (some content))

def remove (path : String) : DiskStep Unit := do
  if ((← look path).content?).isSome then modify (Disk.change path none)

end DiskStep

namespace DatabaseFile

open DiskStep

/-- The paths on the way to a database are shorter than this, in bytes from the root. -/
def pathLimit : Nat := 512

/-- The last part of a path leaves room for the names of the files beside it. -/
def companionRoom : Nat := 8

/-- Whether the path can be followed. Names need not be there to be taken back. -/
def isReachable (files : Files) (f : DatabaseFile) : Bool :=
  f.passed.all (fun path => !(files.look path).isBlocked && decide (files.pathSize path < pathLimit)) &&
    decide (files.pathSize f.path + companionRoom ≤ pathLimit)

/-- The fault of a database, given by this name, that is not there to be opened. -/
def unopenable (name : String) : StoreError := .database (DatabaseFault.unopenable.reason ++ ": " ++ name)

/-- Finds the file, or makes an empty one. -/
def reach (name : String) (f : DatabaseFile) : DiskStep Unit := do
  unless f.isReachable (← get).files do throw (unopenable name)
  if let some path := f.permissionsOf then
    unless (← look path).isThere do refuse .transfer
  match ← look f.path with
  | .file _ => return
  | .missing => if f.access = .creating then write f.path (.text "") else throw (unopenable name)
  | .directory => if f.access = .readOnly then refuse .transfer else throw (unopenable name)
  | .nowhere | .insideFile | .tooLong => throw (unopenable name)

def content (f : DatabaseFile) : DiskStep FileContent :=
  return ((← look f.path).content?).getD (.text "")

/-- What is in the file beside the database, if there is anything in it. -/
def noticed (f : DatabaseFile) (c : Companion) : DiskStep (Option FileContent) :=
  return (← look (f.companion c)).content?.filter fun content => !content.isEmpty

/-- Keeps others out by a file. It goes when the database is closed, so none stays
unless it was there before. -/
def takeLock (f : DatabaseFile) : DiskStep Unit := do
  if f.locking = .lockFile then
    match ← look (f.companion .lock) with
    | .file _ | .directory => refuse .locked
    | .tooLong => refuse .transfer
    | .missing | .nowhere | .insideFile => return

/-- Deals with the journal of a writer that did not finish. One that starts with a zero
byte is finished. A lock in a file of its own stands for a writer at work, whose journal
is not touched. -/
def settleJournal (f : DatabaseFile) : DiskStep Unit := do
  match f.locking, ← f.noticed .journal with
  | .lockFile, _ | _, none => return
  | _, some journal =>
    if (← f.content).isBlank then
      if f.isWritable || !f.locking.holdsFile then remove (f.companion .journal)
    else if journal.startsWithZero then return
    else if f.isWritable then remove (f.companion .journal)
    else refuse .readOnly

/-- What stays of the log when the database is closed. Whoever may write puts it into
the database. -/
def leaveLog (f : DatabaseFile) : DiskStep Unit := do
  if f.isWritable && !f.leavesIndex then
    remove (f.companion .log)
    unless f.locking = .exclusive do remove (f.companion .index)
  else
    if ((← look (f.companion .log)).content?).isNone then write (f.companion .log) (.text "")
    unless f.leavesIndex do write (f.companion .index) .binary

/-- An index that is used as it is has to be there and to agree with the log. -/
def findIndex (failure : DatabaseFault → StoreError) (f : DatabaseFile) : DiskStep Unit := do
  if f.leavesIndex then
    if ((← look (f.companion .index)).content?).isNone then throw (failure .unopenable)
    if (← f.noticed .log).any FileContent.mayHoldLog then throw (failure .changing)

def findLog (f : DatabaseFile) : DiskStep Bool := do
  let main ← f.content
  let expected := match main with
    | .database d => d.journaling = .writeAhead
    | _ => false
  if main.isBlank then
    if (← f.noticed .log).isSome then remove (f.companion .log)
    return false
  else if (← f.noticed .log).isSome || expected then
    if f.mayLog then
      f.leaveLog
      f.findIndex DatabaseFault.toError
      return true
    else refuse .unopenable
  else return false

/-- The database in the file. There is none in an empty one. -/
def database? (f : DatabaseFile) : DiskStep (Option Database) := do
  match ← f.content with
  | .database d => return some d
  | content => if content.isBlank then return none else refuse .notDatabase

/-- A write to a database without a log begins with a journal and ends without it. -/
def withJournal (f : DatabaseFile) (failure : DatabaseFault → StoreError) (d : Database) : DiskStep Unit := do
  if !f.isWritable then throw (failure .readOnly)
  else if (← look (f.companion .journal)).isBlocked then throw (failure .unopenable)
  else
    remove (f.companion .journal)
    write f.path (.database d)

/-- A write through a log is told by the index. -/
def withLog (f : DatabaseFile) (failure : DatabaseFault → StoreError) (d : Database) : DiskStep Unit := do
  if !f.isWritable || f.leavesIndex then throw (failure .readOnly)
  else write f.path (.database d)

/-- A write to a database that is open. Wherever a log may be kept, there is one by then. -/
def writeOpen (f : DatabaseFile) : (DatabaseFault → StoreError) → Database → DiskStep Unit :=
  if f.mayLog then f.withLog else f.withJournal

def beginLog (f : DatabaseFile) (texts : Option TextStore) : DiskStep Unit := do
  f.withJournal DatabaseFault.toError ⟨.writeAhead, texts⟩
  f.leaveLog
  f.findIndex Schema.unknown

def openAs (name : String) (f : DatabaseFile) : DiskStep Unit := do
  f.reach name
  let logged ← if f.settled then pure false
    else do
      f.takeLock
      f.settleJournal
      f.findLog
  let texts := (← f.database?).bind (·.texts)
  if f.mayLog && !logged then f.beginLog texts
  if texts.isNone then
    f.writeOpen Schema.failure ⟨if f.mayLog then .writeAhead else .rollback, some .empty⟩

/-- Changes what is in an open database. Without a log, nothing is written that is there
already. -/
def update (change : TextStore → TextStore) (f : DatabaseFile) : DiskStep Unit := do
  if let some d := ← f.database? then
    let texts := d.texts.map change
    if !f.isWritable then refuse .readOnly
    else if f.mayLog || texts ≠ d.texts then f.writeOpen DatabaseFault.toError { d with texts }

end DatabaseFile

namespace Location

def openAs (name : String) : Location → DiskStep Unit
  | memory writable => if writable then return else throw (Schema.failure .readOnly)
  | file f => f.openAs name

def update (change : TextStore → TextStore) : Location → DiskStep Unit
  | memory _ => return
  | file f => f.update change

end Location

end DiagramEditor
