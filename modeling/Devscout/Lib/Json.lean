/-
# Devscout.Lib.Json -- parsed JSON values

A parsed document: an object's fields are sorted by key and no key occurs twice, so
two objects are equal when their field lists are. Numbers keep the form they were read
in, and two doubles are compared as doubles: the two zeros are one number.
-/

import Devscout.Lib.Text

namespace Devscout.Lib

/-- An integer that fits 64 bits, or a double given by its bits. -/
inductive JsonNumber where
  | posInt (n : UInt64)
  | negInt (n : Int64)
  | float (bits : UInt64)
  deriving DecidableEq

namespace JsonNumber

/-- The bits of a double without its sign. -/
def magnitude (bits : UInt64) : UInt64 := bits &&& 0x7FFFFFFFFFFFFFFF

/-- Equality of numbers of one form; a document holds no NaN. -/
def beq : JsonNumber → JsonNumber → Bool
  | posInt m, posInt n => m == n
  | negInt m, negInt n => m == n
  | float a, float b => a == b || (magnitude a == 0 && magnitude b == 0)
  | _, _ => false

end JsonNumber

inductive Json where
  | null
  | bool (b : Bool)
  | number (n : JsonNumber)
  | string (s : Str)
  | array (items : List Json)
  | object (fields : List (Str × Json))

namespace Json

mutual

protected def beq : Json → Json → Bool
  | null, null => true
  | bool a, bool b => a == b
  | number a, number b => a.beq b
  | string a, string b => a == b
  | array a, array b => beqItems a b
  | object a, object b => beqFields a b
  | _, _ => false

def beqItems : List Json → List Json → Bool
  | [], [] => true
  | a :: as, b :: bs => a.beq b && beqItems as bs
  | _, _ => false

def beqFields : List (Str × Json) → List (Str × Json) → Bool
  | [], [] => true
  | (k, a) :: as, (l, b) :: bs => k == l && a.beq b && beqFields as bs
  | _, _ => false

end

instance : BEq Json := ⟨Json.beq⟩

def asBool : Json → Option Bool
  | bool b => some b
  | _ => none

def asStr : Json → Option Str
  | string s => some s
  | _ => none

def asArray : Json → Option (List Json)
  | array items => some items
  | _ => none

def asObject : Json → Option (List (Str × Json))
  | object fields => some fields
  | _ => none

def asU64 : Json → Option Nat
  | number (.posInt n) => some n.toNat
  | _ => none

/-- The value at a key of an object. -/
def get (v : Json) (key : String) : Option Json := do
  (← v.asObject).lookup key.toList

def getStr (v : Json) (key : String) : Option Str := (v.get key).bind asStr

def getU64 (v : Json) (key : String) : Option Nat := (v.get key).bind asU64

def getBool (v : Json) (key : String) : Option Bool := (v.get key).bind asBool

def getArray (v : Json) (key : String) : Option (List Json) := (v.get key).bind asArray

/-- The value at a key, when it is an object itself. -/
def getObject (v : Json) (key : String) : Option Json :=
  (v.get key).filter fun w => w.asObject.isSome

example : (Json.object [("a".toList, .number (.float 0))] ==
    Json.object [("a".toList, .number (.float 0x8000000000000000))]) = true := by
  decide +kernel

end Json

end Devscout.Lib
