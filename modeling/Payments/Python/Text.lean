import Payments.Python.Object

namespace Payments

/-- The parts of other packages and of the Unicode tables whose answers the service passes
on: `validators.url` with its default arguments, the text of a float by its bits, and
`str.isprintable` of a character. -/
class Externals where
  validatorsUrl : String → Bool
  floatText : Nat → String
  isPrintable : Char → Bool

variable [Externals]

/-- An escape of a character by its code in hexadecimal digits. -/
def hexEscape (letter : Char) (width : Nat) (c : Char) : List Char :=
  '\\' :: letter :: Lib.padded 16 width c.toNat

def reprChar (quote c : Char) : List Char :=
  if c = quote ∨ c = '\\' then ['\\', c]
  else if c = '\n' then ['\\', 'n']
  else if c = '\r' then ['\\', 'r']
  else if c = '\t' then ['\\', 't']
  else if 0x20 ≤ c.toNat ∧ c.toNat < 0x7f then [c]
  else if 0x7f < c.toNat ∧ Externals.isPrintable c then [c]
  else if c.toNat ≤ 0xff then hexEscape 'x' 2 c
  else if c.toNat ≤ 0xffff then hexEscape 'u' 4 c
  else hexEscape 'U' 8 c

/-- `repr` of a string, in double quotes only when that saves escapes. -/
def reprStr (s : String) : String :=
  let quote := if s.toList.contains '\'' && !s.toList.contains '"' then '"' else '\''
  String.ofList (quote :: s.toList.flatMap (reprChar quote) ++ [quote])

namespace PyVal

mutual

/-- `repr` of a value. The classes without a text of their own print their names. -/
def repr : PyVal → String
  | none => "None"
  | bool b => if b then "True" else "False"
  | int i => toString i
  | float bits => Externals.floatText bits
  | str s => reprStr s
  | decimal d => "Decimal('" ++ d.str ++ "')"
  | uuid u => "UUID('" ++ u.str ++ "')"
  | datetime t => t.isoformat
  | enum _ name value => "<" ++ name ++ ": " ++ value.repr ++ ">"
  | list xs => "[" ++ reprList xs ++ "]"
  | tuple xs => "(" ++ reprList xs ++ (if xs.length = 1 then ",)" else ")")
  | dict items => "\x7b" ++ reprItems items ++ "\x7d"
  | proxy items => "mappingproxy(\x7b" ++ reprItems items ++ "\x7d)"
  | dataclass cls _ => cls
  | object cls _ => cls
  | endless _ => "..."

def reprList : List PyVal → String
  | [] => ""
  | [x] => x.repr
  | x :: xs => x.repr ++ ", " ++ reprList xs

def reprItems : List (PyVal × PyVal) → String
  | [] => ""
  | [(k, x)] => k.repr ++ ": " ++ x.repr
  | (k, x) :: items => k.repr ++ ": " ++ x.repr ++ ", " ++ reprItems items

end

/-- `str(value)`. -/
def text : PyVal → String
  | str s => s
  | decimal d => d.str
  | uuid u => u.str
  | v => v.repr

end PyVal

end Payments
