import Payments.Domain.ValueObjects
import Payments.Python.Equality

namespace Payments

/-- What the methods that `@dataclass` generates depend on: its options, and whether the
class has a method `__eq__` of its own. -/
structure Decorator where
  eq : Bool := true
  frozen : Bool := true
  ownEq : Bool := false

/-- What `@dataclass` does about `__hash__` in a class that has none of its own. -/
inductive HashAction where
  | inherit
  | remove
  | add
  deriving DecidableEq

namespace Decorator

/-- Whether a method `__eq__` is generated. -/
def generatesEq (d : Decorator) : Bool := d.eq && !d.ownEq

def hashAction (d : Decorator) : HashAction :=
  match d.eq, d.frozen with
  | false, _ => .inherit
  | true, false => .remove
  | true, true => .add

end Decorator

namespace ValueObject

/-- The decorator of the base class. -/
def decorator : Decorator := { ownEq := true }

/-- The classes of value objects that wrap one value. -/
inductive Class where
  | amount
  | description
  | paymentID
  | idempotencyKey
  | webhookUrl
  | timestamp
  deriving DecidableEq

def Class.decorator : Class → Decorator
  | amount => { eq := false }
  | description => {}
  | paymentID => {}
  | idempotencyKey => {}
  | webhookUrl => {}
  | timestamp => {}

/-- A value object in memory. -/
structure Obj (V : Type) extends ValueObject V where
  cls : Class
  address : Nat

variable {V : Type}

/-- `ValueObject.__eq__` of objects of one class, with the comparison of the values. -/
def eqValue (eq : V → V → Bool) (x y : Obj V) : Bool := eq x.value y.value

/-- The generated `__eq__` of objects of one class. -/
def eqFields (eq : V → V → Bool) (x y : Obj V) : Bool :=
  x.address = y.address || (x.rebuilding = y.rebuilding && eq x.value y.value)

/-- `x == y`. Both methods leave the comparison of two classes to the default, identity. -/
def Obj.eq (eq : V → V → Bool) (x y : Obj V) : Bool :=
  x.cls = y.cls && (if x.cls.decorator.generatesEq then eqFields eq x y else eqValue eq x y)

/-- The fields of a tuple that is hashed: the flag of the base class, and the value. -/
abbrev HashData (V : Type) := Bool × Option V

/-- The tuple that the method hashes which the decorator of the base class generates. -/
def baseHashData (x : Obj V) : Option (HashData V) :=
  if decorator.hashAction = .add then some (x.rebuilding, none) else none

/-- The tuple that `hash(x)` hashes. An object without one cannot be hashed. -/
def Obj.hashData (x : Obj V) : Option (HashData V) :=
  match x.cls.decorator.hashAction with
  | .add => some (x.rebuilding, some x.value)
  | .inherit => baseHashData x
  | .remove => none

/-- The tuples hold the same fields, or equal ones. -/
def HashData.Same (eq : V → V → Bool) (d e : HashData V) : Prop :=
  d = e ∨ d.1 = e.1 ∧ ∃ v w, d.2 = some v ∧ e.2 = some w ∧ eq v w = true

/-- The objects are keys of a dictionary as `==` promises it: it is an equivalence among
them, and equal ones hash equal tuples. -/
structure Keys (eq : V → V → Bool) (S : Set (Obj V)) : Prop where
  equivalence : Equivalence (fun x y : S => Obj.eq eq x y = true)
  hashed : ∀ x ∈ S, ∀ y ∈ S, Obj.eq eq x y = true →
    ∃ d e, x.hashData = some d ∧ y.hashData = some e ∧ d.Same eq e

end ValueObject

end Payments
