import DiagramEditor.Json.Number

/-!
# Document values

An object is a list of members. Bound data, arguments and stored documents
keep their keys sorted, which `insert` preserves; records that are written in
a fixed order list their members in that order.
-/

set_option autoImplicit false

namespace DiagramEditor.Json

inductive Value where
  | null
  | bool (b : Bool)
  | number (n : Number)
  | string (s : String)
  | array (items : List Value)
  | object (members : List (String × Value))

instance : Inhabited Value := ⟨.null⟩

abbrev Members := List (String × Value)

namespace Members

def get? (key : String) : Members → Option Value
  | [] => none
  | (k, v) :: rest => if k = key then some v else get? key rest

/-- Replaces the member of that key; in a sorted object a new one goes where its
key belongs. -/
def insert (key : String) (value : Value) : Members → Members
  | [] => [(key, value)]
  | (k, v) :: rest =>
    if k = key then (key, value) :: rest
    else if key < k then (key, value) :: (k, v) :: rest
    else (k, v) :: insert key value rest

/-- Adds members one after the other; the last of one key stays. -/
def insertAll (members : Members) (more : Members) : Members :=
  more.foldl (fun m (k, v) => m.insert k v) members

def ofList (members : Members) : Members := insertAll [] members

theorem get?_insert_self (key : String) (value : Value) (members : Members) :
    get? key (insert key value members) = some value := by
  induction members with
  | nil => simp [insert, get?]
  | cons m rest ih =>
    obtain ⟨k, v⟩ := m
    by_cases h : k = key
    · simp [insert, get?, h]
    · by_cases hlt : key < k <;> simp [insert, get?, h, hlt, ih]

theorem get?_insert_of_ne {key other : String} (value : Value) (members : Members)
    (h : other ≠ key) : get? other (insert key value members) = get? other members := by
  induction members with
  | nil => simp [insert, get?, Ne.symm h]
  | cons m rest ih =>
    obtain ⟨k, v⟩ := m
    by_cases hk : k = key
    · subst hk
      simp [insert, get?, Ne.symm h]
    · by_cases hlt : key < k <;> simp [insert, get?, hk, hlt, ih, Ne.symm h]

/-- Of two members of one key the second stays. -/
theorem insert_insert (key : String) (v w : Value) (members : Members) :
    insert key w (insert key v members) = insert key w members := by
  induction members with
  | nil => simp [insert]
  | cons m rest ih =>
    obtain ⟨k, u⟩ := m
    by_cases hk : k = key
    · simp [insert, hk]
    · by_cases hlt : key < k <;> simp [insert, hk, hlt, ih]

end Members

namespace Value

def emptyObject : Value := .object []

def isNull : Value → Bool
  | .null => true
  | _ => false

def asString? : Value → Option String
  | .string s => some s
  | _ => none

def asArray? : Value → Option (List Value)
  | .array items => some items
  | _ => none

def asFloat? : Value → Option Float
  | .number n => some n.toFloat
  | _ => none

/-- A coordinate or size; one that is not finite has no number. -/
def ofFloat (x : Float) : Value :=
  match Number.ofFloat? x with
  | some n => .number n
  | none => .null

def ofNat (n : Nat) : Value :=
  match Number.ofInt? n with
  | some n => .number n
  | none => .null

def ofOption : Option Value → Value
  | none => .null
  | some v => v

def ofStrings (texts : List String) : Value := .array (texts.map .string)

/-- What a value is called in a message. -/
def describe : Value → String
  | .null => "null"
  | .bool _ => "a boolean"
  | .number _ => "a number"
  | .string _ => "a string"
  | .array _ => "an array"
  | .object _ => "an object"

mutual

/-- Equal member by member. -/
def same : Value → Value → Bool
  | .null, .null => true
  | .bool a, .bool b => a == b
  | .number a, .number b => a == b
  | .string a, .string b => a == b
  | .array a, .array b => sameItems a b
  | .object a, .object b => sameMembers a b
  | _, _ => false

def sameItems : List Value → List Value → Bool
  | [], [] => true
  | a :: as, b :: bs => same a b && sameItems as bs
  | _, _ => false

def sameMembers : Members → Members → Bool
  | [], [] => true
  | (j, a) :: as, (k, b) :: bs => j == k && same a b && sameMembers as bs
  | _, _ => false

end

instance : BEq Value := ⟨same⟩

mutual

/-- The value with the members of every object sorted by key. -/
def sorted : Value → Value
  | .array items => .array (sortedItems items)
  | .object members => .object (Members.ofList (sortedMembers members))
  | v => v

def sortedItems : List Value → List Value
  | [] => []
  | v :: rest => v.sorted :: sortedItems rest

def sortedMembers : Members → Members
  | [] => []
  | (k, v) :: rest => (k, v.sorted) :: sortedMembers rest

end

mutual

/-- How many arrays and objects stand inside one another. -/
def depth : Value → Nat
  | .array items => depthItems items + 1
  | .object members => depthMembers members + 1
  | _ => 0

def depthItems : List Value → Nat
  | [] => 0
  | v :: rest => max v.depth (depthItems rest)

def depthMembers : Members → Nat
  | [] => 0
  | (_, v) :: rest => max v.depth (depthMembers rest)

end

/-- What passes from items and members to the value they are in holds of every value. -/
theorem induction {P : Value → Prop} (null : P .null) (bool : ∀ b, P (.bool b)) (number : ∀ n, P (.number n))
    (string : ∀ s, P (.string s)) (array : ∀ items, (∀ v ∈ items, P v) → P (.array items))
    (object : ∀ members : Members, (∀ m ∈ members, P m.2) → P (.object members)) (v : Value) : P v :=
  match v with
  | .null => null
  | .bool b => bool b
  | .number n => number n
  | .string s => string s
  | .array items => array items fun w _ => induction null bool number string array object w
  | .object members => object members fun m hm =>
    have hlt : sizeOf m.2 < sizeOf members := by
      have hmember := List.sizeOf_lt_of_mem hm
      obtain ⟨k, w⟩ := m
      show sizeOf w < sizeOf members
      simp only [Prod.mk.sizeOf_spec] at hmember
      omega
    induction null bool number string array object m.2

end Value

end DiagramEditor.Json
