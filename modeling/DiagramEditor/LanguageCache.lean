import DiagramEditor.EditError
import DiagramEditor.Table

/-!
# Compiled languages in common

Sessions share what was compiled before. An entry is found by the language's id and
version; the first one compiled under a key stays.
-/

set_option autoImplicit false

namespace DiagramEditor

structure LanguageCache where
  entries : Table String Language

namespace LanguageCache

def empty : LanguageCache := ⟨[]⟩

def size (c : LanguageCache) : Nat := c.entries.length

def lookup? (c : LanguageCache) (key : String) : Option Language := Table.get? key c.entries

/-- Adds a language unless its key is taken, and tells which one the key has now. -/
def keepFirst (key : String) (l : Language) (c : LanguageCache) : Language × LanguageCache :=
  match c.lookup? key with
  | some first => (first, c)
  | none => (l, ⟨Table.put key l c.entries⟩)

/-- Compiles a document under its key; one that cannot be compiled leaves no entry. -/
def compile (d : LanguageDocument) (c : LanguageCache) : Except EditError Language × LanguageCache :=
  match Language.compile d with
  | .error e => (.error (.template e), c)
  | .ok l =>
    let (kept, c) := c.keepFirst d.key l
    (.ok kept, c)

/-- The compiled language of a document. -/
def getOrCompile (d : LanguageDocument) (c : LanguageCache) : Except EditError Language × LanguageCache :=
  match c.lookup? d.key with
  | some l => (.ok l, c)
  | none => c.compile d

end LanguageCache

end DiagramEditor
