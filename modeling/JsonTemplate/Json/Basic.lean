import JsonTemplate.Binary64.Arithmetic

/-!
# JSON values

A JSON value keeps the order of an object's fields and tells integers from floating-point numbers.
`traverseStrings` visits the string values of a tree in document order; `traverseStrings_pure` says
that a visit without effects that changes no string changes nothing.
-/

namespace JsonTemplate

/-- An integer of 64 bits, with or without a sign, or a finite double. -/
inductive JsonNumber
  | integer (n : Int)
  | float (x : Binary64)
  deriving DecidableEq

/-- The number as a double, rounded if it is an integer of more than 53 bits. -/
def JsonNumber.toBinary64 : JsonNumber → Binary64
  | .integer n => .ofInt n
  | .float x => x

inductive Json
  | null
  | bool (b : Bool)
  | number (n : JsonNumber)
  | string (s : String)
  | array (items : List Json)
  | object (fields : List (String × Json))

namespace Json

abbrev Fields := List (String × Json)

instance : Inhabited Json := ⟨.null⟩

def ofInt (n : Int) : Json :=
  .number (.integer n)

/-- Puts a field into an object: a name that is there keeps its place and takes the new value. -/
def Fields.insert (key : String) (value : Json) : Fields → Fields
  | [] => [(key, value)]
  | (k, v) :: rest => if k = key then (k, value) :: rest else (k, v) :: insert key value rest

def Fields.get? (key : String) (fields : Fields) : Option Json :=
  fields.lookup key

/-- The fields of the given list, inserted one by one. -/
def Fields.ofList (fields : List (String × Json)) : Fields :=
  fields.foldl (fun fs f => Fields.insert f.1 f.2 fs) []

def toBinary64? : Json → Option Binary64
  | .number n => some n.toBinary64
  | _ => none

def toBool? : Json → Option Bool
  | .bool b => some b
  | _ => none

def toString? : Json → Option String
  | .string s => some s
  | _ => none

/-- The first item of an array. -/
def firstItem? : Json → Option Json
  | .array (item :: _) => some item
  | _ => none

section Traversal

variable {m : Type → Type} [Monad m] (f : String → m Json)

mutual

/-- Replaces every string value by what `f` makes of it, from left to right. The names of fields
are not values and stay. -/
def traverseStrings : Json → m Json
  | .null => pure .null
  | .bool b => pure (.bool b)
  | .number n => pure (.number n)
  | .string s => f s
  | .array items => do return .array (← traverseItems items)
  | .object fields => do return .object (← traverseFields fields)

def traverseItems : List Json → m (List Json)
  | [] => pure []
  | item :: rest => do
    let item ← traverseStrings item
    return item :: (← traverseItems rest)

def traverseFields : Fields → m Fields
  | [] => pure []
  | (key, value) :: rest => do
    let value ← traverseStrings value
    return (key, value) :: (← traverseFields rest)

end

end Traversal

section Pure

variable {m : Type → Type} [Monad m] [LawfulMonad m]

mutual

theorem traverseStrings_pure : (v : Json) → traverseStrings (m := m) (pure ∘ .string) v = pure v
  | .null | .bool _ | .number _ | .string _ => rfl
  | .array items => by simp [traverseStrings, traverseItems_pure items]
  | .object fields => by simp [traverseStrings, traverseFields_pure fields]

theorem traverseItems_pure :
    (items : List Json) → traverseItems (m := m) (pure ∘ .string) items = pure items
  | [] => rfl
  | item :: rest => by
    simp [traverseItems, traverseStrings_pure item, traverseItems_pure rest]

theorem traverseFields_pure :
    (fields : Fields) → traverseFields (m := m) (pure ∘ .string) fields = pure fields
  | [] => rfl
  | (key, value) :: rest => by
    simp [traverseFields, traverseStrings_pure value, traverseFields_pure rest]

end

end Pure

end Json

end JsonTemplate
