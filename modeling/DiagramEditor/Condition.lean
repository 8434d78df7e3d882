import DiagramEditor.Scope

/-!
# Conditions

A condition guards a part of a template. A malformed one is kept as such: it
fails when it is evaluated, never when the language is compiled. A group is
evaluated from left to right up to the item that decides it, and an item that
fails before that point fails the group.
-/

set_option autoImplicit false

namespace DiagramEditor

open Json

inductive Comparison where
  | eq
  | ne
  | gt
  | gte
  | lt
  | lte
  /-- The left value is an item of the right array. -/
  | isIn
  /-- The left array has the right value, or an item of the right array. -/
  | any
  /-- The left number lies between the two numbers on the right. -/
  | between
deriving DecidableEq, Repr

namespace Comparison

def ofKey? (key : String) : Option Comparison :=
  match key with
  | "eq" => some eq
  | "ne" => some ne
  | "gt" => some gt
  | "gte" => some gte
  | "lt" => some lt
  | "lte" => some lte
  | "in" => some isIn
  | "any" => some any
  | "between" => some between
  | _ => none

def title : Comparison → String
  | eq => "Eq"
  | ne => "Ne"
  | gt => "Gt"
  | gte => "Gte"
  | lt => "Lt"
  | lte => "Lte"
  | isIn => "In"
  | any => "Any"
  | between => "Between"

end Comparison

inductive Operand where
  | literal (value : Value)
  | bound (text : BoundText)

inductive ConditionFault where
  | noBinding (text : String)
  | placeholder (fault : PlaceholderFault)
  | notConditions (key : String)
  | unknownOperator (key : String)
  | unsupported (value : Value)
  | noSides (op : Comparison)
  | missingSide (op : Comparison) (side : String)

def ConditionFault.message : ConditionFault → String
  | .noBinding text => "condition string " ++ (Value.string text).compact ++ " has no binding"
  | .placeholder fault => "template error: " ++ fault.message
  | .notConditions key => "'" ++ key ++ "' expects an array of conditions"
  | .unknownOperator key => "unknown condition operator '" ++ key ++ "'"
  | .unsupported value => "unsupported condition " ++ value.compact
  | .noSides op => "comparison " ++ op.title ++ " expects \x7bleft, right\x7d"
  | .missingSide op side => "comparison " ++ op.title ++ " is missing '" ++ side ++ "'"

inductive Condition where
  | constant (b : Bool)
  | truthy (operand : Operand)
  | compare (op : Comparison) (left right : Operand)
  | conjunction (items : List Condition)
  | disjunction (items : List Condition)
  | negation (inner : Condition)
  | invalid (fault : ConditionFault)

inductive EvalFault where
  | invalid (fault : ConditionFault)
  | unordered (left right : Value)
  | notANumber
  | rightNotArray (value : Value)
  | leftNotArray (value : Value)
  | leftNotNumber (value : Value)
  | notRange (value : Value)

def EvalFault.message : EvalFault → String
  | .invalid fault => fault.message
  | .unordered left right => "cannot order " ++ left.compact ++ " and " ++ right.compact
  | .notANumber => "cannot order NaN"
  | .rightNotArray value => "'in' expects an array on the right, got " ++ value.compact
  | .leftNotArray value => "'any' expects an array on the left, got " ++ value.compact
  | .leftNotNumber value => "'between' expects a number on the left, got " ++ value.compact
  | .notRange value => "'between' expects a [lo, hi] numeric pair, got " ++ value.compact

namespace Operand

/-- A text with placeholders is bound, any other value stands for itself. -/
def compile : Value → Except ConditionFault Operand
  | .string source =>
    match BoundText.parse source with
    | .error e => .error (.placeholder e)
    | .ok (some text) => .ok (.bound text)
    | .ok none => .ok (.literal (.string source))
  | v => .ok (.literal v)

/-- Only a bound operand can be without a value. -/
def value? (s : Scope) : Operand → Option Value
  | .literal v => some v
  | .bound text => s.render? text

/-- The value to compare; a miss counts as null. -/
def value (s : Scope) (operand : Operand) : Value := Value.ofOption (operand.value? s)

end Operand

namespace Comparison

/-- Numbers are equal when their doubles are, other values when they are the same. -/
def looselyEqual (a b : Value) : Bool :=
  match a.asFloat?, b.asFloat? with
  | some x, some y => x == y
  | _, _ => a == b

def orderTexts (a b : String) : Ordering := if a < b then .lt else if a = b then .eq else .gt

def order (a b : Value) : Except EvalFault Ordering :=
  match a, b with
  | .number x, .number y =>
    if x.toFloat < y.toFloat then .ok .lt
    else if x.toFloat == y.toFloat then .ok .eq
    else if y.toFloat < x.toFloat then .ok .gt
    else .error .notANumber
  | .string x, .string y => .ok (orderTexts x y)
  | a, b => .error (.unordered a b)

def range? : Value → Option (Float × Float)
  | .array [.number low, .number high] => some (low.toFloat, high.toFloat)
  | _ => none

def holds (op : Comparison) (left right : Value) : Except EvalFault Bool :=
  match op with
  | eq => .ok (looselyEqual left right)
  | ne => .ok (!looselyEqual left right)
  | gt => (order left right).map (· == .gt)
  | gte => (order left right).map (· != .lt)
  | lt => (order left right).map (· == .lt)
  | lte => (order left right).map (· != .gt)
  | isIn =>
    match right with
    | .array items => .ok (items.any (looselyEqual left ·))
    | _ => .error (.rightNotArray right)
  | any =>
    match left with
    | .array items =>
      match right with
      | .array wanted => .ok (items.any fun item => wanted.any (looselyEqual item ·))
      | _ => .ok (items.any (looselyEqual · right))
    | _ => .error (.leftNotArray left)
  | between =>
    match left with
    | .number n =>
      match range? right with
      | some (low, high) => .ok (decide (low ≤ n.toFloat) && decide (n.toFloat ≤ high))
      | none => .error (.notRange right)
    | _ => .error (.leftNotNumber left)

end Comparison

namespace Condition

def compileSide (op : Comparison) (members : Members) (side : String) : Except ConditionFault Operand :=
  match members.get? side with
  | some v => Operand.compile v
  | none => .error (.missingSide op side)

def compileComparison (op : Comparison) : Value → Condition
  | .object members =>
    match compileSide op members "left" with
    | .error e => .invalid e
    | .ok left =>
      match compileSide op members "right" with
      | .error e => .invalid e
      | .ok right => .compare op left right
  | _ => .invalid (.noSides op)

/-- An object with one member that holds no condition. -/
def compileMember (key : String) (body : Value) : Condition :=
  if key = "and" ∨ key = "or" then .invalid (.notConditions key)
  else
    match Comparison.ofKey? key with
    | some op => compileComparison op body
    | none => .invalid (.unknownOperator key)

mutual

def compile : Value → Condition
  | .bool b => .constant b
  | .string source =>
    match Operand.compile (.string source) with
    | .ok (.bound text) => .truthy (.bound text)
    | .ok (.literal _) => .invalid (.noBinding source)
    | .error e => .invalid e
  | .object [("and", .array items)] => .conjunction (compileAll items)
  | .object [("or", .array items)] => .disjunction (compileAll items)
  | .object [("not", body)] => .negation (compile body)
  | .object [(key, body)] => compileMember key body
  | v => .invalid (.unsupported v)

def compileAll : List Value → List Condition
  | [] => []
  | v :: rest => compile v :: compileAll rest

end

/-- Null, zero, false and the empty text are false; so is a miss. -/
def isTrue : Option Value → Bool
  | none => false
  | some .null => false
  | some (.bool b) => b
  | some (.number n) => n.toFloat != 0 && !n.toFloat.isNaN
  | some (.string text) => !text.isEmpty
  | some (.array _) => true
  | some (.object _) => true

mutual

def evaluate (s : Scope) : Condition → Except EvalFault Bool
  | constant b => .ok b
  | truthy operand => .ok (isTrue (operand.value? s))
  | compare op left right => op.holds (left.value s) (right.value s)
  | conjunction items => evaluateAll s items
  | disjunction items => evaluateAny s items
  | negation inner =>
    match evaluate s inner with
    | .error e => .error e
    | .ok b => .ok (!b)
  | invalid fault => .error (.invalid fault)

def evaluateAll (s : Scope) : List Condition → Except EvalFault Bool
  | [] => .ok true
  | c :: rest =>
    match evaluate s c with
    | .error e => .error e
    | .ok false => .ok false
    | .ok true => evaluateAll s rest

def evaluateAny (s : Scope) : List Condition → Except EvalFault Bool
  | [] => .ok false
  | c :: rest =>
    match evaluate s c with
    | .error e => .error e
    | .ok true => .ok true
    | .ok false => evaluateAny s rest

end

/-- The answer, where a failure counts as false and is told. -/
def verdict (s : Scope) (c : Condition) : Bool × Option EvalFault :=
  match c.evaluate s with
  | .ok b => (b, none)
  | .error e => (false, some e)

end Condition

end DiagramEditor
