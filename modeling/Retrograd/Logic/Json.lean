import Mathlib.Data.Nat.Notation

/-!
# JSON values

The values a JSON text decodes to. An object keeps its members in the order they are written;
a number keeps the text it is written as, since no function here computes with one.
-/

namespace Retrograd.Logic

inductive Json where
  | null
  | bool (b : Bool)
  | number (text : String)
  | string (s : String)
  | array (items : List Json)
  | object (members : List (String × Json))

namespace Json

/-- `Value::is_object`. -/
def isObject : Json → Bool
  | object _ => true
  | _ => false

/-- `Value::get`: the member of an object. -/
def member : Json → String → Option Json
  | object members, name => (members.find? fun entry => entry.1 = name).map Prod.snd
  | _, _ => none

/-- `Value::as_str`. -/
def asStr : Json → Option String
  | string s => some s
  | _ => none

/-- `Value::as_array`. -/
def asArray : Json → Option (List Json)
  | array items => some items
  | _ => none

mutual

/-- Equality of values. -/
def beq : Json → Json → Bool
  | null, null => true
  | bool a, bool b => a == b
  | number a, number b => a == b
  | string a, string b => a == b
  | array a, array b => beqItems a b
  | object a, object b => beqMembers a b
  | _, _ => false

def beqItems : List Json → List Json → Bool
  | [], [] => true
  | a :: l, b :: r => beq a b && beqItems l r
  | _, _ => false

def beqMembers : List (String × Json) → List (String × Json) → Bool
  | [], [] => true
  | (name, a) :: l, (name', b) :: r => name == name' && beq a b && beqMembers l r
  | _, _ => false

end

/-! ### Trees -/

mutual

private theorem inductAt {P : Json → Prop} (hnull : P null) (hbool : ∀ b, P (bool b))
    (hnumber : ∀ text, P (number text)) (hstring : ∀ s, P (string s))
    (harray : ∀ items, P (array items))
    (hobject : ∀ members, (∀ entry ∈ members, P entry.2) → P (object members)) : ∀ json, P json
  | null => hnull
  | bool b => hbool b
  | number text => hnumber text
  | string s => hstring s
  | array items => harray items
  | object members => hobject members
      (inductMembers hnull hbool hnumber hstring harray hobject members)

private theorem inductMembers {P : Json → Prop} (hnull : P null) (hbool : ∀ b, P (bool b))
    (hnumber : ∀ text, P (number text)) (hstring : ∀ s, P (string s))
    (harray : ∀ items, P (array items))
    (hobject : ∀ members, (∀ entry ∈ members, P entry.2) → P (object members)) :
    ∀ members : List (String × Json), ∀ entry ∈ members, P entry.2
  | [], _, h => absurd h List.not_mem_nil
  | (name, value) :: members, entry, h => by
    rcases List.mem_cons.mp h with rfl | h
    · exact inductAt hnull hbool hnumber hstring harray hobject value
    · exact inductMembers hnull hbool hnumber hstring harray hobject members entry h

end

/-- Induction over the objects of a value: an array is a leaf. -/
@[elab_as_elim]
theorem induct {P : Json → Prop} (json : Json) (null : P null) (bool : ∀ b, P (bool b))
    (number : ∀ text, P (number text)) (string : ∀ s, P (string s))
    (array : ∀ items, P (array items))
    (object : ∀ members, (∀ entry ∈ members, P entry.2) → P (object members)) : P json :=
  inductAt null bool number string array object json

end Json

end Retrograd.Logic
