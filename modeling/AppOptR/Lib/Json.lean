import AppOptR.Lib.Text

/-!
# `Lib.Json` — JSON values

A JSON document as a parser hands it over: `Value`, with the accessors of the usual libraries (`get`,
`index`, `asStr`, `asU64`, …). Integers are kept exactly, any other number by its text only, which no
accessor here can read. The members of an object have distinct names; `get` looks for the first.
-/

namespace AppOptR
namespace Json

open Text

/-- A number that fits into 64 bits, or the text of any other one. -/
inductive Number where
  | int (n : Int)
  | float (text : Str)
  deriving DecidableEq

/-- A value, with the members of an object one after the other. -/
inductive Value where
  | null
  | bool (b : Bool)
  | number (n : Number)
  | string (s : Str)
  | array (items : List Value)
  | object (members : List (Str × Value))

namespace Value

/-- The member of an object with a given name. -/
def lookup (field : Str) (members : List (Str × Value)) : Option Value :=
  (members.find? fun m => m.1 = field).map (·.2)

def asObject : Value → Option (List (Str × Value))
  | .object members => some members
  | _ => none

/-- `get` by name: nothing when the value is no object, or has no such member. -/
def get (v : Value) (field : Str) : Option Value := v.asObject.bind (lookup field)

/-- Indexing by name: like `get`, with `null` for nothing. -/
def index (v : Value) (field : Str) : Value := (v.get field).getD .null

def asStr : Value → Option Str
  | .string s => some s
  | _ => none

def asBool : Value → Option Bool
  | .bool b => some b
  | _ => none

/-- An integer from 0 to `2^64 - 1`. -/
def asU64 : Value → Option Nat
  | .number (.int (.ofNat n)) => if n < 2 ^ 64 then some n else none
  | _ => none

/-- An integer from `-2^63` to `2^63 - 1`. -/
def asI64 : Value → Option Int
  | .number (.int n) => if -2 ^ 63 ≤ n ∧ n < 2 ^ 63 then some n else none
  | _ => none

@[simp] theorem get_object (members : List (Str × Value)) (field : Str) :
    (Value.object members).get field = lookup field members := rfl

@[simp] theorem lookup_cons (field name : Str) (v : Value) (members : List (Str × Value)) :
    lookup field ((name, v) :: members) = if name = field then some v else lookup field members := by
  unfold lookup
  by_cases h : name = field <;> simp [h]

end Value
end Json
end AppOptR
