import DiagramEditor.Json.Value
import DiagramEditor.Json.Token

/-!
# Documents in text order

A tree keeps members in the order of the text, repeated keys included, and
marks where the text goes wrong. Whoever reads a tree from left to right meets
its problems in the order in which the text shows them. `Tree.ofText` never
fails: where the text stops being a document, every open container ends.
-/

set_option autoImplicit false

namespace DiagramEditor.Json

inductive Fault where
  /-- The text is no document from here on. -/
  | broken
  /-- A number or string that has no value. It may be skipped. -/
  | unreadable
  /-- An array inside too many containers. It may be skipped if nothing in it is broken. -/
  | deepArray (whole : Bool)
  /-- An object inside too many containers, likewise. -/
  | deepObject (whole : Bool)
deriving DecidableEq, Repr

/-- Whoever skips what stands here may go on behind it. -/
def Fault.skippable : Fault → Bool
  | .broken => false
  | .unreadable => true
  | .deepArray whole | .deepObject whole => whole

inductive Tree where
  | null
  | bool (b : Bool)
  | number (n : Number)
  | string (s : String)
  | array (items : List Tree)
  /-- A key is `none` where it has no value. -/
  | object (members : List (Option String × Tree))
  | fault (f : Fault)

namespace Tree

mutual

/-- Nothing in the tree is broken, so it can be skipped. -/
def isWhole : Tree → Bool
  | .fault f => f.skippable
  | .array items => areWhole items
  | .object members => membersWhole members
  | _ => true

def areWhole : List Tree → Bool
  | [] => true
  | t :: rest => t.isWhole && areWhole rest

def membersWhole : List (Option String × Tree) → Bool
  | [] => true
  | (_, t) :: rest => t.isWhole && membersWhole rest

end

mutual

/-- The value with sorted keys; of a repeated key the last member stays. `none`
where the tree has a fault. -/
def toValue? : Tree → Option Value
  | .null => some .null
  | .bool b => some (.bool b)
  | .number n => some (.number n)
  | .string s => some (.string s)
  | .array items => (toValues? items).map .array
  | .object members => (toMembers? members).map fun ms => .object (Members.ofList ms)
  | .fault _ => none

def toValues? : List Tree → Option (List Value)
  | [] => some []
  | t :: rest =>
    match t.toValue?, toValues? rest with
    | some v, some vs => some (v :: vs)
    | _, _ => none

def toMembers? : List (Option String × Tree) → Option Members
  | [] => some []
  | (k, t) :: rest =>
    match k, t.toValue?, toMembers? rest with
    | some k, some v, some ms => some ((k, v) :: ms)
    | _, _, _ => none

end

mutual

/-- The tree of a value, its members in the order they have there. -/
def ofValue : Value → Tree
  | .null => .null
  | .bool b => .bool b
  | .number n => .number n
  | .string s => .string s
  | .array items => .array (ofValues items)
  | .object members => .object (ofMembers members)

def ofValues : List Value → List Tree
  | [] => []
  | v :: rest => ofValue v :: ofValues rest

def ofMembers : Members → List (Option String × Tree)
  | [] => []
  | (k, v) :: rest => (some k, ofValue v) :: ofMembers rest

end

mutual

/-- Marks the containers that stand inside `room` others. -/
def limit : Nat → Tree → Tree
  | 0, .array items => .fault (.deepArray (areWhole items))
  | 0, .object members => .fault (.deepObject (membersWhole members))
  | room + 1, .array items => .array (limitItems room items)
  | room + 1, .object members => .object (limitMembers room members)
  | _, t => t

def limitItems : Nat → List Tree → List Tree
  | _, [] => []
  | room, t :: rest => limit room t :: limitItems room rest

def limitMembers : Nat → List (Option String × Tree) → List (Option String × Tree)
  | _, [] => []
  | room, (k, t) :: rest => (k, limit room t) :: limitMembers room rest

end

/-- A tree, and the tokens after it where it is complete. -/
abbrev Step (α : Type) := α × Option (List Token)

mutual

/-- Reads one value. The fuel is at least the number of tokens. -/
def read : Nat → List Token → Step Tree
  | 0, _ => (.fault .broken, none)
  | fuel + 1, tokens =>
    match tokens with
    | .null :: rest => (.null, some rest)
    | .bool b :: rest => (.bool b, some rest)
    | .number (some n) :: rest => (.number n, some rest)
    | .number none :: rest => (.fault .unreadable, some rest)
    | .string (some s) :: rest => (.string s, some rest)
    | .string none :: rest => (.fault .unreadable, some rest)
    | .openArray :: .closeArray :: rest => (.array [], some rest)
    | .openArray :: rest =>
      let (items, rest) := readItems fuel rest
      (.array items, rest)
    | .openObject :: .closeObject :: rest => (.object [], some rest)
    | .openObject :: rest =>
      let (members, rest) := readMembers fuel rest
      (.object members, rest)
    | _ => (.fault .broken, none)

def readItems : Nat → List Token → Step (List Tree)
  | 0, _ => ([.fault .broken], none)
  | fuel + 1, tokens =>
    match read fuel tokens with
    | (t, some (.closeArray :: rest)) => ([t], some rest)
    | (t, some (.comma :: rest)) =>
      let (items, rest) := readItems fuel rest
      (t :: items, rest)
    | (t, some _) => ([t, .fault .broken], none)
    | (t, none) => ([t], none)

def readMembers : Nat → List Token → Step (List (Option String × Tree))
  | 0, _ => ([(none, .fault .broken)], none)
  | fuel + 1, tokens =>
    match tokens with
    | .string key :: .colon :: rest =>
      match read fuel rest with
      | (t, some (.closeObject :: rest)) => ([(key, t)], some rest)
      | (t, some (.comma :: rest)) =>
        let (members, rest) := readMembers fuel rest
        ((key, t) :: members, rest)
      | (t, some _) => ([(key, t), (none, .fault .broken)], none)
      | (t, none) => ([(key, t)], none)
    | .string key :: _ => ([(key, .fault .broken)], none)
    | _ => ([(none, .fault .broken)], none)

end

/-- How many containers may stand inside one another. -/
def maxDepth : Nat := 127

/-- A text read as far as it goes. -/
structure Reading where
  tree : Tree
  /-- Nothing follows the tree. -/
  ends : Bool

def ofTokens (tokens : List Token) : Reading :=
  let (tree, rest) := read (2 * tokens.length + 2) tokens
  { tree := tree.limit maxDepth
    ends := match rest with
      | some (_ :: _) => false
      | _ => true }

def ofText (text : String) : Reading := ofTokens (Token.lex text.toList)

end Tree

end DiagramEditor.Json
