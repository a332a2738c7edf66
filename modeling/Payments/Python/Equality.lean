import Payments.Python.Object

namespace Payments

/-- What `==` compares of a number, whatever its type. -/
inductive Number where
  | finite (q : ℚ)
  | infinity (neg : Bool)
  | nan
  deriving DecidableEq

namespace Number

/-- A NaN equals no number. -/
def eq (a b : Number) : Bool := a ≠ .nan ∧ a = b

theorem eq_symm {a b : Number} (h : a.eq b = true) : b.eq a = true := by
  simp only [eq, decide_eq_true_eq] at h ⊢
  obtain ⟨hn, rfl⟩ := h
  exact ⟨hn, rfl⟩

theorem eq_trans {a b c : Number} (h : a.eq b = true) (h' : b.eq c = true) : a.eq c = true := by
  simp only [eq, decide_eq_true_eq] at h h' ⊢
  exact ⟨h.1, h.2.trans h'.2⟩

@[simp] theorem eq_self {a : Number} : a.eq a = true ↔ a ≠ .nan := by
  simp [eq]

@[simp] theorem eq_finite (p q : ℚ) : (finite p).eq (finite q) = decide (p = q) := by
  simp [eq]

/-- The number that the bits of a double stand for. -/
def ofDouble (bits : Nat) : Number :=
  let neg : Bool := bits / 2 ^ 63 % 2 = 1
  let sign : ℚ := if neg then -1 else 1
  let exponent : Nat := bits / 2 ^ 52 % 2 ^ 11
  let fraction : Nat := bits % 2 ^ 52
  if exponent = 2 ^ 11 - 1 then (if fraction = 0 then .infinity neg else .nan)
  else if exponent = 0 then .finite (sign * fraction / 2 ^ 1074)
  else .finite (sign * (2 ^ 52 + fraction) * 2 ^ exponent / 2 ^ 1075)

end Number

namespace Decimal

def number : Decimal → Number
  | finite neg coeff exp => .finite ((if neg then -(coeff : ℚ) else coeff) * (10 : ℚ) ^ exp)
  | infinity neg => .infinity neg
  | nan => .nan

/-- `Decimal.__eq__`. -/
def eq (d e : Decimal) : Bool := d.number.eq e.number

end Decimal

namespace PyVal

def number : PyVal → Option Number
  | bool b => some (.finite (if b then 1 else 0))
  | int i => some (.finite i)
  | float bits => some (.ofDouble bits)
  | decimal d => some d.number
  | enum .int _ (int i) => some (.finite i)
  | _ => Option.none

/-- The characters of a string or of a member of an enum of strings. -/
def string : PyVal → Option String
  | str s => some s
  | enum .str _ (str s) => some s
  | _ => Option.none

/-- The entries of a dictionary or of a proxy of one. -/
def mapping : PyVal → Option (List (PyVal × PyVal))
  | dict items => some items
  | proxy items => some items
  | _ => Option.none

/-- `==` of values that hold no others. The class of a member is not recorded, so two members
of plain enums are compared by their names. -/
def eqAtom (v w : PyVal) : Bool :=
  match v.number, w.number, v.string, w.string with
  | some a, some b, _, _ => a.eq b
  | _, _, some s, some t => s = t
  | _, _, _, _ =>
    match v, w with
    | none, none => true
    | uuid u, uuid u' => u = u'
    | datetime t, datetime t' => t = t'
    | enum .plain name _, enum .plain name' _ => name = name'
    | _, _ => false

mutual

/-- `==`. A proxy is compared as the dictionary behind it, and an object of an unknown class
equals nothing. -/
def eq : PyVal → PyVal → Bool
  | list xs, list ys => eqList xs ys
  | tuple xs, tuple ys => eqList xs ys
  | dict items, w => w.mapping.any (fun others =>
      items.length = others.length && eqItems items others)
  | proxy items, w => w.mapping.any (fun others =>
      items.length = others.length && eqItems items others)
  | dataclass cls fields, dataclass cls' fields' => cls = cls' && eqFields fields fields'
  | v, w => v.eqAtom w
  termination_by structural v => v

def eqList : List PyVal → List PyVal → Bool
  | [], [] => true
  | x :: xs, y :: ys => x.eq y && eqList xs ys
  | _, _ => false
  termination_by structural v => v

/-- Each entry has one with an equal key and an equal value among the others. -/
def eqItems : List (PyVal × PyVal) → List (PyVal × PyVal) → Bool
  | [], _ => true
  | (k, x) :: items, others =>
    others.any (fun (k', y) => k.eq k' && x.eq y) && eqItems items others
  termination_by structural v => v

def eqFields : List (String × PyVal) → List (String × PyVal) → Bool
  | [], [] => true
  | (_, x) :: fields, (_, y) :: fields' => x.eq y && eqFields fields fields'
  | _, _ => false
  termination_by structural v => v

end

end PyVal

end Payments
