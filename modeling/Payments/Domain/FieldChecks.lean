import Mathlib.Data.List.Sort
import Payments.Domain.Errors

namespace Payments

/-- Whether a type is a `Sequence`, and then whether it is `list`. -/
inductive SequenceKind where
  | none
  | other
  | list
  deriving DecidableEq

/-- What the checks of the fields ask of the type of an object. -/
structure Kind where
  name : String
  isNone : Bool := false
  isBool : Bool := false
  isEnum : Bool := false
  isValueObject : Bool := false
  isEntity : Bool := false
  isDomainEvent : Bool := false
  sequence : SequenceKind := .none
  deriving DecidableEq

/-- The value of an attribute: its type, the types of what it holds when it is a sequence, and
whether it can be called. -/
structure FieldValue where
  kind : Kind
  elements : List Kind := []
  callable : Bool := false

namespace Kind

def isSequence (k : Kind) : Bool := k.sequence ≠ .none

def isList (k : Kind) : Bool := k.sequence = .list

theorem list_sequence (k : Kind) (h : k.isList = true) : k.isSequence = true := by
  simp_all [isList, isSequence]

def str : Kind := { name := "str", sequence := .other }

def bool : Kind := { name := "bool", isBool := true }

/-- A domain object of the classes that the aggregates accept, or a member of an enum. -/
def isAccepted (k : Kind) : Bool := k.isValueObject || k.isEntity || k.isDomainEvent || k.isEnum

/-- `isinstance(el, ValueObject | Enum | DomainEvent)`. -/
def isAcceptedByEntity (k : Kind) : Bool := k.isValueObject || k.isEnum || k.isDomainEvent

end Kind

/-- A string. Its elements are strings again. -/
def FieldValue.ofStr (s : String) : FieldValue where
  kind := .str
  elements := s.toList.map (fun _ => .str)

def FieldValue.ofBool : FieldValue where
  kind := .bool

/-- An object whose constructor has set its fields. A class statement names the module that
it stands in; `inherited` holds what else `dir` lists of the class and its bases. -/
structure Instance where
  cls : String
  kind : Kind
  isBase : Bool := false
  id : FieldValue
  events : FieldValue
  rebuilding : Bool := false
  declared : List (String × FieldValue)
  declared_new : ∀ f ∈ declared, f.1 ≠ "id" ∧ f.1 ≠ "_events" ∧ f.1 ≠ "_rebuilding" := by decide
  moduleName : String
  module_named : moduleName ≠ "" := by decide
  inherited : List (String × FieldValue) := []

namespace Instance

/-- `fields(self)`, with the values. -/
def fields (o : Instance) : List (String × FieldValue) :=
  ("id", o.id) :: ("_events", o.events) :: ("_rebuilding", .ofBool) :: o.declared

/-- `dir(self)`, with the values. -/
def dir (o : Instance) : List (String × FieldValue) :=
  (o.fields ++ ("__module__", .ofStr o.moduleName) :: o.inherited).insertionSort
    (fun a b => a.1 ≤ b.1)

/-- The declared fields but the identifier. -/
def checked (o : Instance) : List (String × FieldValue) :=
  ("_events", o.events) :: o.declared

end Instance

namespace Entity

def checkAttribute (o : Instance) (attr : String) (field : FieldValue) : Except Exc Unit :=
  if field.callable = true ∨ attr = "id" then .ok ()
  else if field.kind.isSequence then
    match field.elements.find? (fun el => !el.isAcceptedByEntity) with
    | some _ => .error (.domainType
        "Entity attribute must be descendant of Value Object class in Sequences too"
        [("details", "Attempt to pass inappropriate obj in " ++ o.cls ++ ".")])
    | none => .ok ()
  -- the object is tested here, not its attribute
  else if o.kind.isValueObject || o.kind.isEnum then .ok ()
  else .error (.domainType "Entity attribute must be descendant of Value Object class"
    [("details", "Attempt to pass non-VO in " ++ o.cls ++ ".")])

/-- `Entity._validate_field_types`. -/
def validateFieldTypes (o : Instance) : Except Exc Unit :=
  o.dir.forM (fun (attr, field) => checkAttribute o attr field)

/-- `Entity.__post_init__`. -/
def postInit (dev : Bool) (o : Instance) : Except Exc Unit :=
  if o.rebuilding || !dev then .ok ()
  else if o.isBase then .error (.domainType "Attempt to instantiate Aggregate base directly")
  else validateFieldTypes o

end Entity

namespace Aggregate

def checkField (name : String) (value : FieldValue) : Except Exc Unit :=
  if name = "id" ∨ name = "_rebuilding" then .ok ()
  else if value.kind.isEnum || value.kind.isNone || value.kind.isBool then .ok ()
  else if value.kind.isSequence then
    match value.elements.find? (fun el => !el.isAccepted) with
    | some el => .error (.domainType "Sequence elements must be domain objects"
        [("field", name), ("element_type", el.name)])
    | none => .ok ()
  else if value.kind.isValueObject || value.kind.isEntity || value.kind.isDomainEvent then .ok ()
  else .error (.domainType "Aggregate field must be domain object or primitive type"
    [("field", name), ("type", value.kind.name)])

/-- `Aggregate._validate_field_types`. -/
def validateFieldTypes (o : Instance) : Except Exc Unit :=
  o.fields.forM (fun (name, value) => checkField name value)

/-- `Aggregate.__post_init__`, which does not look at the flag that a rebuilt object has. -/
def postInit (dev : Bool) (o : Instance) : Except Exc Unit :=
  if !dev then .ok ()
  else if o.isBase then .error (.domainType "Attempt to instantiate Aggregate base directly")
  else validateFieldTypes o

end Aggregate

end Payments
