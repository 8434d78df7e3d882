/-!
# Media types

The declared type of a body: a type, a subtype that may end in a suffix, and
parameters, which are checked for their form only.
-/

set_option autoImplicit false

namespace DiagramEditor

structure MediaType where
  type : String
  subtype : String
  suffix : Option String
deriving DecidableEq, Repr

namespace MediaType

def isTokenChar (c : Char) : Bool := c.isAlphanum || "!#$%&'*+-.^_`|~".toList.contains c

def isQuotable (c : Char) : Bool := 31 < c.toNat && c.toNat != 127

/-- Where in a list of parameters a reader stands. -/
inductive Place where
  | name (started : Bool)
  | value (started : Bool)
  /-- Between quotes, where a backslash is a character like any other. -/
  | quoted (started : Bool)
  | closed
deriving DecidableEq

namespace Place

def step : Place → Char → Option Place
  | name started, c =>
    if c = ' ' ∧ !started then some (name false)
    else if isTokenChar c then some (name true)
    else if c = '=' ∧ started then some (value false)
    else none
  | value started, c =>
    if c = '"' ∧ !started then some (quoted false)
    else if isTokenChar c then some (value true)
    else if c = ';' ∧ started then some (name false)
    else none
  | quoted started, c =>
    if c = '"' ∧ started then some closed
    else if isQuotable c then some (quoted true)
    else none
  | closed, c =>
    if c = ';' then some (name false)
    else if c = ' ' then some closed
    else none

/-- The parameters may end here. -/
def mayEnd : Place → Bool
  | name started => !started
  | value _ | closed => true
  | quoted _ => false

def accepts : Place → List Char → Bool
  | p, [] => p.mayEnd
  | p, c :: rest =>
    match p.step c with
    | some p => p.accepts rest
    | none => false

end Place

/-- Parts a subtype at its last `+`, which is never its first character. -/
def splitSuffix (cs : List Char) : List Char × Option (List Char) :=
  let suffix := (cs.reverse.takeWhile (· != '+')).reverse
  let stem := cs.take (cs.length - suffix.length - 1)
  if suffix.length < cs.length ∧ !stem.isEmpty then (stem, some suffix) else (cs, none)

def lower (cs : List Char) : String := String.ofList (cs.map Char.toLower)

def parse? (text : String) : Option MediaType :=
  let cs := text.toList
  let type := cs.takeWhile isTokenChar
  match cs.dropWhile isTokenChar with
  | '/' :: rest =>
    let subtype := rest.takeWhile isTokenChar
    let parameters := rest.dropWhile isTokenChar
    let wellFormed := match parameters with
      | [] => true
      | ';' :: more => !subtype.isEmpty && (Place.name false).accepts more
      | _ => false
    if type.isEmpty || !wellFormed then none
    else
      let (stem, suffix) := splitSuffix subtype
      some ⟨lower type, lower stem, suffix.map lower⟩
  | _ => none

/-- A body of this type holds a JSON document. -/
def isJson (t : MediaType) : Bool :=
  t.type == "application" && (t.subtype == "json" || t.suffix == some "json")

end MediaType

end DiagramEditor
