import DiagramEditor.Command.Run

/-!
# Folders

A folder holds files as values, so that commands can be run without a disk. A path
is followed name by name, and each directory on the way has to be there.
-/

set_option autoImplicit false

namespace DiagramEditor

/-- The files of a directory and of those in it, known by the names on the way. -/
structure Folder where
  files : Table (List String) FileContent

namespace Folder

def hasDirectory (f : Folder) (names : List String) : Bool :=
  f.files.any fun (file, _) => names.length < file.length && names.isPrefixOf file

/-- What is known as the file of a path. A file outside the folder has a mark before its
names, which no name in the folder equals. -/
def key (path : String) : List String :=
  if PathText.isFromRoot path then "/" :: PathText.names path else PathText.names path

/-- No name may be longer, in bytes. -/
def longestName : Nat := 255

/-- No path may be longer, in bytes. -/
def longestPath : Nat := 4095

/-- Around the folder there are the directories it is in, without other files than were
put there, and a device that reads as an empty text. -/
def outside (f : Folder) (mark : String) (names : List String) : PathContent :=
  let names := names.filter fun name => name != "" && name != "."
  if names.any fun name => longestName < name.utf8ByteSize then .tooLong
  else
    match Table.get? (mark :: names) f.files, names.filter (· != "..") with
    | some content, _ => .file content
    | none, [] => .directory
    | none, [_] => .missing
    | none, ["dev", "null"] => .file (.text "")
    | none, _ => .nowhere

/-- Follows names from a directory of the folder. -/
def follow (f : Folder) : List String → List String → PathContent
  | _, [] => .directory
  | here, name :: rest =>
    if name = "" ∨ name = "." then follow f here rest
    else if name = ".." then if here.isEmpty then f.outside ".." rest else follow f here.dropLast rest
    else if longestName < name.utf8ByteSize then .tooLong
    else
      let there := here ++ [name]
      match Table.get? there f.files with
      | some content => if rest.isEmpty then .file content else .insideFile
      | none =>
        if f.hasDirectory there then follow f there rest
        else if rest.isEmpty then .missing
        else .nowhere

def find (f : Folder) (path : String) : PathContent :=
  if path.isEmpty then .missing
  else if longestPath < path.utf8ByteSize then .tooLong
  else if PathText.isFromRoot path then f.outside "/" (path.splitOn "/")
  else f.follow [] (path.splitOn "/")

/-- Where the folder is taken to be. -/
def home : String := "/home/of/diagram"

def toFiles (f : Folder) : Files := ⟨home, f.find⟩

def change (f : Folder) : String × Option FileContent → Folder
  | (path, some content) => ⟨Table.put (key path) content f.files⟩
  | (path, none) => ⟨Table.erase (key path) f.files⟩

def changeAll (f : Folder) (changes : Changes) : Folder := changes.foldl change f

/-- A folder of texts. -/
def ofTexts (texts : List (String × String)) : Folder :=
  changeAll ⟨[]⟩ (texts.map fun (path, content) => (path, some (.text content)))

/-- The languages in the database under a path, if there is one. -/
def summaries (f : Folder) (path : String) : List LanguageSummary :=
  match (f.find path).content?.bind FileContent.database? |>.bind (·.texts) with
  | some s => s.summaries
  | none => []

/-- The transcript of a command, and the folder it leaves. -/
def run (f : Folder) (modelId : String) (c : Command) : Transcript × Folder :=
  let (t, changes) := c.run f.toFiles modelId
  (t, f.changeAll changes)

end Folder

end DiagramEditor
