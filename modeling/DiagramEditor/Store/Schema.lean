import DiagramEditor.Store.Error
import DiagramEditor.Text.Quoted

/-!
# Tables of a database

A new database is given its tables before it is used.
-/

set_option autoImplicit false

namespace DiagramEditor

/-- Why nothing more can be done with a database. -/
inductive DatabaseFault where
  | readOnly
  | locked
  | transfer
  | unopenable
  /-- The log and its index do not agree, as if somebody were still at work on them. -/
  | changing
  | notDatabase
deriving DecidableEq, Repr

namespace DatabaseFault

def reason : DatabaseFault → String
  | readOnly => "attempt to write a readonly database"
  | locked => "database is locked"
  | transfer => "disk I/O error"
  | unopenable => "unable to open database file"
  | changing => "locking protocol"
  | notDatabase => "file is not a database"

def name : DatabaseFault → String
  | readOnly => "ReadOnly"
  | locked => "DatabaseBusy"
  | transfer => "SystemIoFailure"
  | unopenable => "CannotOpen"
  | changing => "FileLockingProtocolFailed"
  | notDatabase => "NotADatabase"

def number : DatabaseFault → Nat
  | locked => 5
  | readOnly => 8
  | transfer => 10
  | unopenable => 14
  | changing => 15
  | notDatabase => 26

def toError (fault : DatabaseFault) : StoreError := .database fault.reason

end DatabaseFault

namespace Schema

/-- The statements that make the tables. -/
def statements : String :=
  "\n".intercalate
    ["CREATE TABLE languages (",
     "    id TEXT PRIMARY KEY NOT NULL,",
     "    name TEXT NOT NULL,",
     "    version INTEGER NOT NULL,",
     "    document TEXT NOT NULL,",
     "    updated_at TEXT NOT NULL DEFAULT (datetime('now'))",
     ");",
     "",
     "CREATE TABLE models (",
     "    source_id TEXT PRIMARY KEY NOT NULL,",
     "    model_id TEXT NOT NULL,",
     "    document TEXT NOT NULL,",
     "    preview TEXT,",
     "    updated_at TEXT NOT NULL DEFAULT (datetime('now'))",
     ");",
     ""]

/-- The error of a statement that cannot be carried out. -/
def failureIn (statement : String) (fault : DatabaseFault) : StoreError :=
  .migration <|
    "rusqlite_migrate error: RusqliteError \x7b query: " ++ Text.quoted statement ++
      ", err: SqliteFailure(Error \x7b code: " ++ fault.name ++ ", extended_code: " ++ toString fault.number ++
      " \x7d, Some(" ++ Text.quoted fault.reason ++ ")) \x7d"

/-- The error of a database that cannot be given its tables. -/
def failure : DatabaseFault → StoreError := failureIn statements

/-- The error of a database that cannot be asked whether it has tables. -/
def unknown : DatabaseFault → StoreError := failureIn ""

end Schema

end DiagramEditor
