import Payments.Python.Values
import Payments.Domain.Errors

namespace Payments

/-- What a class of members inherits from besides `Enum`. -/
inductive EnumBase where
  | plain
  | str
  | int
  deriving DecidableEq

/-- What an object of a class that the service does not know does when it is used: its text,
what `copy.deepcopy` raises if it does not copy it, and the text that its method `isoformat`
returns. What a call raises stands for its text, and a copy does what its original did. -/
structure ObjectApi where
  str : Except Exc String
  deepcopy : Option Exc
  isoformat : Except Exc String

/-- A plain object, which has a text and can be copied, and has no `isoformat`. -/
def ObjectApi.plain (cls text : String) : ObjectApi where
  str := .ok text
  deepcopy := none
  isoformat := .error (.attributeError ("'" ++ cls ++ "' object has no attribute 'isoformat'"))

/-- Python values, as far as the service handles them without knowing their type.
A float is carried by its bits only. Where a container contains itself, or the nesting is deeper
than the stack of the interpreter, `endless` stands for what is there. -/
inductive PyVal where
  | none
  | bool (b : Bool)
  | int (i : Int)
  | float (bits : Nat)
  | str (s : String)
  | decimal (d : Decimal)
  | uuid (u : UUID)
  | datetime (t : DateTime)
  | enum (base : EnumBase) (name : String) (value : PyVal)
  | list (xs : List PyVal)
  | tuple (xs : List PyVal)
  | dict (items : List (PyVal × PyVal))
  | proxy (items : List (PyVal × PyVal))
  | dataclass (cls : String) (fields : List (String × PyVal))
  | object (cls : String) (api : ObjectApi)
  | endless (circular : Bool)

/-- JSON values. The keys of an object are distinct. -/
inductive Json where
  | null
  | bool (b : Bool)
  | int (i : Int)
  | float (bits : Nat)
  | str (s : String)
  | arr (xs : List Json)
  | obj (items : List (String × Json))

namespace Json

/-- The member of an object under a key. -/
def member (key : String) : Json → Option Json
  | obj items => items.lookup key
  | _ => none

@[simp] theorem member_nil (key : String) : (obj []).member key = none := rfl

@[simp] theorem member_cons (key k : String) (j : Json) (items : List (String × Json)) :
    (obj ((k, j) :: items)).member key = if key = k then some j else (obj items).member key := by
  simp only [member, List.lookup_cons]
  split <;> simp_all

/-- The member of an object under a key, when it is a string. -/
def text (key : String) (j : Json) : Option String :=
  match j.member key with
  | some (str s) => some s
  | _ => none

mutual

/-- `json.loads`, from the value that the text spells. -/
def toPy : Json → PyVal
  | null => .none
  | bool b => .bool b
  | int i => .int i
  | float bits => .float bits
  | str s => .str s
  | arr xs => .list (toPyList xs)
  | obj items => .dict (toPyItems items)

def toPyList : List Json → List PyVal
  | [] => []
  | x :: xs => x.toPy :: toPyList xs

def toPyItems : List (String × Json) → List (PyVal × PyVal)
  | [] => []
  | (k, x) :: items => (.str k, x.toPy) :: toPyItems items

end

end Json

/-- A double that is neither infinite nor a NaN. -/
def isFinite (bits : Nat) : Bool := bits / 2 ^ 52 % 2 ^ 11 ≠ 2 ^ 11 - 1

/-- An integer that `int` converts to a text: it has no more digits than the interpreter allows. -/
def isShort (i : Int) : Bool := (Nat.toDigits 10 i.natAbs).length ≤ 4300

/-- `int.__repr__`. -/
def intText (i : Int) : Except Exc String :=
  if isShort i then .ok (toString i)
  else .error (.valueError ("Exceeds the limit (4300 digits) for integer string conversion; " ++
    "use sys.set_int_max_str_digits() to increase the limit"))

namespace PyVal

/-- `type(value).__name__`. The class of a member of an enum is not recorded. -/
def typeName : PyVal → String
  | none => "NoneType"
  | bool _ => "bool"
  | int _ => "int"
  | float _ => "float"
  | str _ => "str"
  | decimal _ => "Decimal"
  | uuid _ => "UUID"
  | datetime _ => "datetime"
  | enum _ _ _ => "Enum"
  | list _ => "list"
  | tuple _ => "tuple"
  | dict _ => "dict"
  | proxy _ => "mappingproxy"
  | dataclass cls _ => cls
  | object cls _ => cls
  | endless _ => "object"

/-- The key that `json.dumps` writes for a dictionary key, when it accepts it. A float key is
refused here: `json.dumps` writes its text, which is not modelled. -/
def jsonKey : PyVal → Except Exc String
  | str s => .ok s
  | enum .str _ (str s) => .ok s
  | enum .int _ (int i) => intText i
  | int i => intText i
  | bool b => .ok (if b then "true" else "false")
  | none => .ok "null"
  | v => .error (.typeError
      ("keys must be str, int, float, bool or None, not " ++ v.typeName))

mutual

/-- `json.dumps`, as the value that the text spells. -/
def dumps : PyVal → Except Exc Json
  | none => .ok .null
  | bool b => .ok (.bool b)
  | int i => (intText i).map (fun _ => .int i)
  | float bits => .ok (.float bits)
  | str s => .ok (.str s)
  | enum .str _ (str s) => .ok (.str s)
  | enum .int _ (int i) => (intText i).map (fun _ => .int i)
  | list xs => (dumpsList xs).map .arr
  | tuple xs => (dumpsList xs).map .arr
  | dict items => (dumpsItems items).map .obj
  | endless true => .error (.valueError "Circular reference detected")
  | endless false => .error .recursion
  | v => .error (.typeError ("Object of type " ++ v.typeName ++ " is not JSON serializable"))

def dumpsList : List PyVal → Except Exc (List Json)
  | [] => .ok []
  | x :: xs => x.dumps.bind (fun j => (dumpsList xs).map (fun js => j :: js))

def dumpsItems : List (PyVal × PyVal) → Except Exc (List (String × Json))
  | [] => .ok []
  | (k, x) :: items => k.jsonKey.bind (fun key => x.dumps.bind (fun j =>
      (dumpsItems items).map (fun js => (key, j) :: js)))

end

end PyVal

end Payments
