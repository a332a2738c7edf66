import Payments.Domain.Url

namespace Payments

/-- The fields that every value object has: the primary value and the flag that its
rebuilding path sets. The development-time type checks accept every value of these types. -/
structure ValueObject (V : Type) where
  value : V
  rebuilding : Bool := false
  deriving DecidableEq

structure PaymentID extends ValueObject UUID deriving DecidableEq
structure IdempotencyKey extends ValueObject UUID deriving DecidableEq
structure Amount extends ValueObject Decimal deriving DecidableEq
structure Description extends ValueObject String deriving DecidableEq
structure Metadata extends ValueObject PyVal
structure Timestamp extends ValueObject DateTime deriving DecidableEq
structure WebhookUrl extends ValueObject String deriving DecidableEq

inductive Currency where
  | rub
  | usd
  | eur
  deriving DecidableEq

namespace Currency

def value : Currency → String
  | rub => "RUB"
  | usd => "USD"
  | eur => "EUR"

/-- `Currency(text)`. -/
def ofValue (s : String) : Option Currency :=
  if s = "RUB" then some rub else if s = "USD" then some usd else if s = "EUR" then some eur
  else none

@[simp] theorem ofValue_value (c : Currency) : ofValue c.value = some c := by
  cases c <;> decide

/-- A member as a Python object. The class inherits from `str`. -/
def toPy (c : Currency) : PyVal := .enum .str c.value (.str c.value)

end Currency

inductive PaymentStatus where
  | pending
  | confirmed
  | failed
  deriving DecidableEq

namespace PaymentStatus

def value : PaymentStatus → String
  | pending => "PENDING"
  | confirmed => "CONFIRMED"
  | failed => "FAILED"

/-- `PaymentStatus(text)`. -/
def ofValue (s : String) : Option PaymentStatus :=
  if s = "PENDING" then some pending else if s = "CONFIRMED" then some confirmed
  else if s = "FAILED" then some failed else none

@[simp] theorem ofValue_value (s : PaymentStatus) : ofValue s.value = some s := by
  cases s <;> decide

def toPy (s : PaymentStatus) : PyVal := .enum .plain s.value (.str s.value)

end PaymentStatus

inductive TaskStatus where
  | pending
  | confirmed
  | failed
  | inProcess
  deriving DecidableEq

/-- The end states of the delivery of an event. -/
def TaskStatus.Terminal (s : TaskStatus) : Prop := s = .confirmed ∨ s = .failed

instance (s : TaskStatus) : Decidable s.Terminal :=
  inferInstanceAs (Decidable (s = .confirmed ∨ s = .failed))

/-- `UUID.version` as an entry of an error context. -/
def versionText (u : UUID) : String :=
  match u.version with
  | some v => toString v
  | none => "None"

/-- `PaymentID(id)`. -/
def PaymentID.new (id : PyVal) : Except Exc PaymentID :=
  match id with
  | .uuid u =>
    if u.version = some 4 then .ok { value := u }
    else .error (.domainType "PaymentID must be UUID v4" [("provided_version", versionText u)])
  | _ => .error (.domainType "PaymentID must be UUID(v4)")

def PaymentID.rebuild (id : UUID) : PaymentID := { value := id, rebuilding := true }

/-- What the generated methods of the dataclass compare and hash: the tuple of all its fields. -/
def PaymentID.astuple (id : PaymentID) : Bool × UUID := (id.rebuilding, id.value)

/-- `PaymentID.__eq__`, which the dataclass generates in place of the inherited one. -/
def PaymentID.eq (id other : PaymentID) : Bool := id.astuple = other.astuple

/-- `IdempotencyKey(key)`. -/
def IdempotencyKey.new (key : UUID) : Except Exc IdempotencyKey :=
  if key.version = some 4 then .ok { value := key }
  else .error (.domainType "IdempotencyKey must be UUID v4"
    [("provided_version", versionText key)])

def IdempotencyKey.rebuild (key : UUID) : IdempotencyKey := { value := key, rebuilding := true }

/-- `Amount(amount)`. Ordering a NaN raises, and so does `int` on the letter that stands for
the exponent of an infinity. -/
def Amount.new (amount : Decimal) : Except Exc Amount :=
  match amount with
  | .finite neg coeff exp =>
    if coeff = 0 ∨ neg = true then .error (.validation "Amount must be greater than zero")
    else if exp < -2 then
      .error (.validation "Amount cannot have more than 2 decimal places")
    else .ok { value := amount }
  | .infinity true => .error (.validation "Amount must be greater than zero")
  | .infinity false => .error (.valueError "invalid literal for int() with base 10: 'F'")
  | .nan => .error .invalidOperation

def Amount.rebuild (amount : Decimal) : Amount := { value := amount, rebuilding := true }

namespace Description

def MIN_LENTH : Nat := 3
def MAX_LENTH : Nat := 50

/-- The characters of `INVALID_PATTERN`, which `VALID_PATTERN` excludes. -/
def isInvalid (c : Char) : Bool :=
  c = '\n' || c = '\r' || c = '\t' || c.toNat ≤ 0x08 ||
    (0x0b ≤ c.toNat && c.toNat ≤ 0x0c) || (0x0e ≤ c.toNat && c.toNat ≤ 0x1f) || c.toNat = 0x7f

/-- `re.match(VALID_PATTERN, text)`. The final `$` also matches before a line end that is
the last character. -/
def matchesValid (cs : List Char) : Bool :=
  cs.all (fun c => !isInvalid c) ||
    (cs.getLast? = some '\n' && cs.dropLast.all (fun c => !isInvalid c))

/-- `re.search(INVALID_PATTERN, text)`: the first invalid character and its position. -/
def searchInvalid (cs : List Char) : Option (Char × Nat) :=
  (cs.find? isInvalid).map (fun c => (c, cs.findIdx isInvalid))

def validateLenth (text : String) : Except Exc Unit :=
  if MAX_LENTH < text.length ∨ text.length < MIN_LENTH then
    .error (.validation "Wrong description lenth" [("details", "Description lenth = " ++
      toString text.length ++ " must be in [3, 50] constraints")])
  else .ok ()

def validatePattern (text : String) : Except Exc Unit :=
  if matchesValid text.toList then .ok ()
  else match searchInvalid text.toList with
    | some (char, position) => .error (.validation "Description contains invalid characters"
        [("details", "Description = " ++ text ++ " contains invalid characters at pos=" ++
          toString position ++ ", char=" ++ String.singleton char)])
    | none => .error (.validation "Description contains invalid characters"
        [("details", "Description = " ++ text ++ " contains invalid characters")])

/-- `Description(text)`. -/
def new (text : String) : Except Exc Description := do
  validateLenth text
  validatePattern text
  .ok { value := text }

def rebuild (text : String) : Description := { value := text, rebuilding := true }

end Description

namespace PyVal

/-- `isinstance(value, str)`. -/
def isStr : PyVal → Bool
  | str _ => true
  | enum .str _ _ => true
  | _ => false

end PyVal

/-- `Metadata(meta)`, which wraps a plain dictionary in a read-only proxy. -/
def Metadata.new (value : PyVal) : Except Exc Metadata :=
  match value with
  | .dict items | .proxy items =>
    if items.all (fun (k, _) => k.isStr) then .ok { value := .proxy items }
    else .error (.domainType "Not each field serializable")
  | _ => .error (.domainType "Metadata must be a dictionary")

/-- `Metadata.rebuild(meta)` on the value of a JSON column. -/
def Metadata.rebuild (value : PyVal) : Except Exc Metadata :=
  match value with
  | .dict items => .ok { value := .proxy items, rebuilding := true }
  | _ => .error (.typeError "mappingproxy() argument must be a mapping")

/-- `dict(metadata.value)`. -/
def Metadata.asDict (m : Metadata) : PyVal :=
  match m.value with
  | .proxy items => .dict items
  | v => v

def Timestamp.new (t : DateTime) : Timestamp := { value := t }

def Timestamp.rebuild (t : DateTime) : Timestamp := { value := t, rebuilding := true }

/-- `WebhookUrl(url)`. -/
def WebhookUrl.new [Externals] (url : String) : Except Exc WebhookUrl := do
  let (scheme, hostname) ← Url.urlparse url
  if scheme ≠ "http" ∧ scheme ≠ "https" then
    .error (.validation "Webhook URL must be http or https")
  else if hostname = some "localhost" ∨ hostname = some "127.0.0.1" then
    .error (.validation "Webhook URL cannot point to localhost")
  else if Externals.validatorsUrl url then .ok { value := url }
  else .error (.validation "Webhook URL must be valid")

def WebhookUrl.rebuild (url : String) : WebhookUrl := { value := url, rebuilding := true }

end Payments
