import DiagramEditor.Store.Location
import DiagramEditor.Text.Percent

/-!
# Addresses of databases

A database is named by a path, or by an address: `file:`, perhaps a host, a path
and options. The options choose how the database may be used and by what means
it is stored.
-/

set_option autoImplicit false

namespace DiagramEditor

inductive LocationFault where
  | host (name : String)
  | cacheMode (name : String)
  | access (name : String)
  | accessNotAllowed (name : String)
  | fileSystem (name : String)
  | tooLong (address : String)
deriving DecidableEq, Repr

def LocationFault.message : LocationFault → String
  | host name => "invalid uri authority: " ++ name
  | cacheMode name => "no such cache mode: " ++ name
  | access name => "no such access mode: " ++ name
  | accessNotAllowed name => "access mode not allowed: " ++ name
  | fileSystem name => "no such vfs: " ++ name
  | tooLong address => "unable to open database file: " ++ address

/-! The value of a switch is a number or a word. -/

namespace Switch

/-- No number may be larger. -/
def largest : Nat := 2147483647

def number (base : Nat) (digits : List Char) : Nat :=
  digits.foldl (fun n c => n * base + (Text.hexValue? c).getD 0) 0

/-- The number at the start of a text. One that is too large counts as zero. -/
def leadingNumber : List Char → Nat
  | '0' :: x :: cs =>
    let digits := cs.takeWhile fun c => (Text.hexValue? c).isSome
    if x.toLower = 'x' ∧ !digits.isEmpty then
      let n := number 16 digits
      if n ≤ largest then n else 0
    else decimal (x :: cs)
  | cs => decimal cs
where
  decimal (cs : List Char) : Nat :=
    let n := number 10 (cs.takeWhile Char.isDigit)
    if n ≤ largest then n else 0

/-- Of a number the last byte counts. A switch with any other value is off. -/
def isOn (value : String) : Bool :=
  match value.toList with
  | [] => false
  | c :: cs =>
    if c.isDigit then leadingNumber (c :: cs) % 256 != 0
    else ["on", "yes", "true"].contains (value.map Char.toLower)

end Switch

structure Choices where
  access : Access
  fileSystem : String
  unlocked : Option Bool
  settled : Option Bool
  keepsIndex : Option Bool
  permissionsOf : Option String
deriving DecidableEq, Repr

namespace Choices

def standard : Choices := ⟨.creating, "unix", none, none, none, none⟩

/-- One option after the others. Unknown options do not matter. -/
def choose (c : Choices) : String × String → Except LocationFault Choices
  | ("vfs", name) => .ok { c with fileSystem := name }
  | ("cache", name) => if name = "shared" ∨ name = "private" then .ok c else .error (.cacheMode name)
  | ("mode", name) =>
    match Access.ofName? name with
    | none => .error (.access name)
    | some a => if c.access.allows a then .ok { c with access := a } else .error (.accessNotAllowed name)
  | ("nolock", value) => .ok { c with unlocked := c.unlocked <|> some (Switch.isOn value) }
  | ("immutable", value) => .ok { c with settled := c.settled <|> some (Switch.isOn value) }
  | ("readonly_shm", value) => .ok { c with keepsIndex := c.keepsIndex <|> some (Switch.isOn value) }
  | ("modeof", path) => .ok { c with permissionsOf := c.permissionsOf <|> some path }
  | _ => .ok c

/-- The ways in which files are stored. -/
def locking? : String → Option Locking
  | "unix" => some .shared
  | "unix-excl" => some .exclusive
  | "unix-dotfile" => some .lockFile
  | "unix-none" => some .unlocked
  | _ => none

/-- The way in which nothing is stored. -/
def memoryFileSystem : String := "memdb"

def isSettled (c : Choices) : Bool := c.settled.getD false

/-- A database in memory that was given a name may be settled, too. -/
def inMemory (path : String) (c : Choices) : Location :=
  .memory (c.access != .readOnly && (!c.isSettled || Location.isForgotten path || c.access = .transient))

def inFile (path : String) (locking : Locking) (c : Choices) : Location :=
  if Location.isForgotten path || c.access = .transient then .memory (c.access != .readOnly)
  else
    .file
      { DatabaseFile.ofPath path c.access with
        locking := if c.unlocked.getD false then .unlocked else locking
        settled := c.isSettled
        keepsIndex := c.keepsIndex.getD false
        permissionsOf := c.permissionsOf }

end Choices

namespace Location

/-- The text of a part of an address. A zero byte ends it. -/
def partBytes (cs : List Char) : List UInt8 := (Text.percentBytes cs).takeWhile (· != 0)

def partText (cs : List Char) : String := Text.showBytes (partBytes cs)

def cutPath : List UInt8 → List (List UInt8)
  | [] => [[]]
  | byte :: rest =>
    match cutPath rest with
    | [] => [[byte]]
    | part :: parts => if byte.toNat = '/'.toNat then [] :: part :: parts else (byte :: part) :: parts

/-- The name that some bytes give. Those that are no text give a name that no text
gives, as no name in a text holds a zero byte. -/
def nameText (bytes : List UInt8) : String :=
  (Text.ofBytes? bytes).getD (String.ofList ('\x00' :: bytes.map fun b => Char.ofNat b.toNat))

def pathText (cs : List Char) : String := "/".intercalate ((cutPath (partBytes cs)).map nameText)

/-- Takes the host from the front of an address. Only this machine can be named. -/
def dropHost : List Char → Except LocationFault (List Char)
  | '/' :: '/' :: rest =>
    let host := String.ofList (rest.takeWhile (· != '/'))
    if host = "" ∨ host = "localhost" then .ok (rest.dropWhile (· != '/')) else .error (.host host)
  | cs => .ok cs

/-- The options of an address. Those without a name do not count. -/
def options (cs : List Char) : List (String × String) :=
  ((String.ofList cs).splitOn "&").filterMap fun option =>
    let name := partText (option.toList.takeWhile (· != '='))
    if name = "" then none else some (name, partText ((option.toList.dropWhile (· != '=')).drop 1))

/-- No name of a database in memory may be longer, in bytes. -/
def longestMemoryName : Nat := 1016

/-- The location at an address, of which `cs` is what follows `file:`. -/
def ofAddress (cs : List Char) : Except LocationFault Location := do
  let parts := (← dropHost cs).takeWhile (· != '#')
  let path := pathText (parts.takeWhile (· != '?'))
  let c ← (options ((parts.dropWhile (· != '?')).drop 1)).foldlM Choices.choose .standard
  if c.fileSystem = Choices.memoryFileSystem then
    if longestMemoryName < path.utf8ByteSize ∧ c.access ≠ .transient then
      throw (.tooLong ("file:" ++ String.ofList cs))
    else return c.inMemory path
  else
    match Choices.locking? c.fileSystem with
    | some locking => return c.inFile path locking
    | none => throw (.fileSystem c.fileSystem)

def ofName (name : String) : Except LocationFault Location :=
  match name.toList with
  | 'f' :: 'i' :: 'l' :: 'e' :: ':' :: rest => ofAddress rest
  | _ => .ok (if isForgotten name then .memory true else .file (.ofPath name .creating))

end Location

end DiagramEditor
