import Payments.Infrastructure.Serializer
import Payments.Lib.Table

namespace Payments

open Lib

/-- A row of the `payments` table. -/
structure PaymentRow where
  id : UUID
  amount : Decimal
  currency : Currency
  description : String
  metadata : Json
  status : PaymentStatus
  idempotencyKey : UUID
  createdAt : DateTime
  processedAt : Option DateTime
  webhookUrl : String

/-- A row of the `outbox` table. -/
structure OutboxRow where
  id : UUID
  queue : String
  payload : Json
  occurredAt : DateTime
  status : TaskStatus
  handledAt : Option DateTime

structure Db where
  payments : Table PaymentRow UUID PaymentRow.id
  outbox : Table OutboxRow UUID OutboxRow.id

def Db.empty : Db := ⟨.empty, .empty⟩

/-- The hundredths that a finite decimal rounds to, half away from zero. -/
def cents (coeff : Nat) (exp : Int) : Nat :=
  if -2 ≤ exp then coeff * 10 ^ (exp + 2).toNat
  else (coeff + 5 * 10 ^ ((-2 - exp).toNat - 1)) / 10 ^ (-2 - exp).toNat

/-- What a `NUMERIC(18, 2)` column keeps of a value; none is a field overflow. -/
def storeNumeric : Decimal → Option Decimal
  | .finite neg coeff exp =>
    let c := cents coeff exp
    if c < 10 ^ 18 then some (.finite (neg && c ≠ 0) c (-2)) else none
  | .infinity _ => none
  | .nan => some .nan

/-- The values of an `INSERT` into `payments`. -/
structure PaymentValues where
  id : UUID
  amount : Decimal
  currency : Currency
  description : String
  metadata : PyVal
  status : PaymentStatus
  idempotencyKey : UUID
  createdAt : DateTime
  webhookUrl : String

mutual

/-- Whether the `json` type of the database has a text for the value: it has none for a number that
is not finite. -/
def Json.isStorable : Json → Bool
  | .float bits => isFinite bits
  | .arr xs => Json.isStorableList xs
  | .obj items => Json.isStorableItems items
  | _ => true

def Json.isStorableList : List Json → Bool
  | [] => true
  | x :: xs => x.isStorable && Json.isStorableList xs

def Json.isStorableItems : List (String × Json) → Bool
  | [] => true
  | (_, x) :: items => x.isStorable && Json.isStorableItems items

end

/-- What a `JSON` column keeps of a value. What `json.dumps` raises is wrapped before the statement
is sent, and a text that is not valid in the database is a data error. -/
def storeJson (v : PyVal) : Except Exc Json :=
  match v.dumps with
  | .error e => .error (.statement e)
  | .ok j => if j.isStorable then .ok j else .error .dataError

/-- The row that an `INSERT` stores, or what the driver raises. -/
def PaymentValues.toRow (v : PaymentValues) : Except Exc PaymentRow :=
  match storeJson v.metadata, storeNumeric v.amount with
  | .ok metadata, some amount => .ok {
      id := v.id
      amount := amount
      currency := v.currency
      description := v.description
      metadata := metadata
      status := v.status
      idempotencyKey := v.idempotencyKey
      createdAt := v.createdAt
      processedAt := none
      webhookUrl := v.webhookUrl }
  | .error e, _ => .error e
  | .ok _, none => .error .dataError

/-- The row that an `INSERT` of a serialized event stores, in the default status. -/
def SerializedEvent.toRow (s : SerializedEvent) : Except Exc OutboxRow :=
  match storeJson (.dict (s.payload.map (fun (k, v) => (.str k, v)))), UUID.parse s.id,
    s.occurredAt with
  | .error e, _, _ => .error e
  | .ok payload, some id, .datetime occurredAt => .ok {
      id := id
      queue := s.queue
      payload := payload
      occurredAt := occurredAt
      status := .pending
      handledAt := none }
  | .ok _, _, _ => .error .dataError

/-- A change that an open transaction has made and not committed. -/
inductive Write where
  | insertPayment (row : PaymentRow)
  | updatePayment (id : UUID) (status : PaymentStatus) (processedAt : DateTime)
  | insertOutbox (row : OutboxRow)
  | updateOutbox (id : UUID) (status : TaskStatus) (handledAt : Option DateTime)

namespace Db

def settleRow (status : PaymentStatus) (processedAt : DateTime) (r : PaymentRow) : PaymentRow :=
  { r with status := status, processedAt := some processedAt }

/-- A column that is not among the values keeps its content. -/
def markRow (status : TaskStatus) (handledAt : Option DateTime) (r : OutboxRow) : OutboxRow :=
  { r with status := status, handledAt := handledAt.or r.handledAt }

theorem settleRow_id (status : PaymentStatus) (processedAt : DateTime) (r : PaymentRow) :
    (settleRow status processedAt r).id = r.id := rfl

theorem markRow_id (status : TaskStatus) (handledAt : Option DateTime) (r : OutboxRow) :
    (markRow status handledAt r).id = r.id := rfl

def apply (db : Db) : Write → Db
  | .insertPayment row => { db with payments := db.payments.insert row }
  | .updatePayment id status processedAt =>
    { db with payments :=
        db.payments.update id (settleRow status processedAt) (settleRow_id status processedAt) }
  | .insertOutbox row => { db with outbox := db.outbox.insert row }
  | .updateOutbox id status handledAt =>
    { db with outbox :=
        db.outbox.update id (markRow status handledAt) (markRow_id status handledAt) }

def applyAll (db : Db) (ws : List Write) : Db := ws.foldl apply db

end Db

/-- What a transaction locks: a row of a table, or a key in the unique index on
`idempotency_key`. The lock on a row that is not committed is the entry of its
identifier in the primary key. -/
inductive Resource where
  | payment (id : UUID)
  | paymentKey (key : UUID)
  | outbox (id : UUID)
  deriving DecidableEq

def Write.resources : Write → List Resource
  | .insertPayment row => [.payment row.id, .paymentKey row.idempotencyKey]
  | .updatePayment id _ _ => [.payment id]
  | .insertOutbox row => [.outbox row.id]
  | .updateOutbox id _ _ => [.outbox id]

end Payments
