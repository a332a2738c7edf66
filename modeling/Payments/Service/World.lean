import Mathlib.Tactic.Simps.Basic
import Payments.Infrastructure.Routes
import Payments.Infrastructure.Tables
import Payments.Lib.Threads

namespace Payments

open Lib

/-- A message of the broker: the JSON value that its body spells, and its `x-attempt` header. -/
structure Message where
  body : Json
  headers : Option Nat := none

/-- `headers.get("x-attempt", 0)`. -/
def Message.attempt (m : Message) : Nat := m.headers.getD 0

structure CreatePaymentCommand where
  amount : Decimal
  currency : Currency
  key : UUID
  description : String
  metadata : PyVal
  webhookUrl : String

structure CreatePaymentResponse where
  paymentId : String
  status : PaymentStatus
  createdAt : DateTime

structure GetPaymentQueryResponse where
  paymentId : UUID
  amount : Decimal
  currency : Currency
  description : String
  key : UUID
  metadata : PyVal
  status : PaymentStatus
  createdAt : DateTime
  processedAt : Option DateTime

/-- What starts a thread: a request, a poll, or the delivery of a message that waits. -/
inductive Req where
  | create (command : CreatePaymentCommand)
  | get (id : UUID)
  | poll
  | deliver (i : Nat)

inductive Reply where
  | created (response : CreatePaymentResponse)
  | payment (response : GetPaymentQueryResponse)
  | done

/-- What a thread has done that can be seen outside of it. -/
inductive Obs where
  | created (command : CreatePaymentCommand)
  | polled
  | delivered (queue : RabbitQueue) (m : Message)
  | claimed (event : UUID)
  | entered (event : UUID)
  | committed (writes : List Write)
  | accepted (exchange key : String) (m : Message)
  | posted (url : String) (payload : List (String × PyVal))
  | acked
  | ended (r : Except Exc Reply)
  | crashed

/-- What the runs of the service share. `db` holds what is committed, `lock` and `pend` the
locks and the changes of each session's open transaction, `drawn` who drew an identifier,
`ready` and `unacked` the messages of the broker, and `trace` what was seen, newest first. -/
structure World where
  db : Db := .empty
  lock : Resource → Option Tid := fun _ => none
  pend : Tid → List Write := fun _ => []
  drawn : UUID → Option Tid := fun _ => none
  ready : List (RabbitQueue × Message) := []
  unacked : List (Tid × RabbitQueue × Message) := []
  trace : List (Tid × Obs) := []

namespace World

variable (w : World) (t : Tid)

/-- The tables as the session of a thread sees them. -/
def view : Db := w.db.applyAll (w.pend t)

/-- No other open transaction locks the resource. -/
def Free (r : Resource) : Prop := w.lock r = none ∨ w.lock r = some t

instance (r : Resource) : Decidable (w.Free t r) :=
  inferInstanceAs (Decidable (w.lock r = none ∨ w.lock r = some t))

@[simps]
def note (o : Obs) : World := { w with trace := (t, o) :: w.trace }

@[simps]
def hold (rs : List Resource) : World :=
  { w with lock := fun r => if r ∈ rs then some t else w.lock r }

/-- Add changes to the open transaction, which locks what they touch. -/
@[simps]
def write (ws : List Write) : World :=
  { w.hold t (ws.flatMap Write.resources) with
    pend := Function.update w.pend t (w.pend t ++ ws) }

/-- The open transaction ends and nothing of it stays. -/
@[simps]
def drop : World :=
  { w with
    lock := fun r => if w.lock r = some t then none else w.lock r
    pend := Function.update w.pend t [] }

@[simps]
def commit : World :=
  { w.drop t with db := w.view t, trace := (t, .committed (w.pend t)) :: w.trace }

/-- The broker takes a message and puts a copy into every queue it is routed to. -/
@[simps]
def accept (lim : Limits) (exchange key : String) (m : Message) : World :=
  { w with
    ready := w.ready ++ (route lim exchange key).map (fun q => (q, m))
    trace := (t, .accepted exchange key m) :: w.trace }

/-- An identifier is drawn. -/
@[simps]
def draw (u : UUID) : World := { w with drawn := Function.update w.drawn u (some t) }

/-- The broker removes the message that it delivered to a thread. -/
@[simps]
def ackDelivery : World :=
  { w with
    unacked := w.unacked.filter (fun d => d.1 ≠ t)
    trace := (t, .acked) :: w.trace }

/-- Lock the first row of the payments that meets a condition, unless it is locked. -/
def selectPayment (p : PaymentRow → Bool) : Option PaymentRow × World :=
  match (w.view t).payments.rows.find? (fun r => p r ∧ w.Free t (.payment r.id)) with
  | some r => (some r, w.hold t [.payment r.id])
  | none => (none, w)

/-- Lock the event with an identifier that meets a condition, unless it is locked, and
answer with its identifier. -/
def selectOutbox (id : UUID) (p : OutboxRow → Bool) : Option UUID × World :=
  match (w.view t).outbox.find? id with
  | some o => if p o ∧ w.Free t (.outbox id) then (some id, w.hold t [.outbox id]) else (none, w)
  | none => (none, w)

/-- The pending events that no other transaction locks. -/
def pendings : List OutboxRow :=
  (w.view t).outbox.rows.filter (fun o => o.status = .pending ∧ w.Free t (.outbox o.id))

end World

/-- The effects of the service: the statements of its repositories, the calls on a session,
the clock and the random numbers, the broker, the webhook and the delivered message.
`enter` is the point where a handler calls its use case. -/
inductive Op where
  | selectPaymentById (id : UUID)
  | selectPaymentByKey (key : UUID)
  | selectPaymentIdByKey (key : UUID)
  | insertPayment (values : PaymentValues)
  | updatePayment (id : UUID) (status : PaymentStatus) (processedAt : DateTime)
  | insertOutbox (events : List SerializedEvent)
  | selectOutboxId (id : UUID)
  | selectPendings (limit offset : Nat)
  | selectPendingId (id : UUID)
  | updateOutbox (id : UUID) (status : TaskStatus) (handledAt : Option DateTime)
  | flush
  | commit
  | rollback
  | close
  | uuid4
  | now
  | random
  | connect
  | publish (exchange key : String) (m : Message)
  | send (url : String) (payload : List (String × PyVal)) (timeout : Nat)
  | enter (event : UUID)
  | ack

namespace Op

/-- What an effect answers with. `random` tells whether the number is below `0.9`. -/
@[reducible]
def Res : Op → Type
  | selectPaymentById _ => Option PaymentRow
  | selectPaymentByKey _ => Option PaymentRow
  | selectPaymentIdByKey _ => Option UUID
  | insertPayment _ => Unit
  | updatePayment _ _ _ => Option UUID
  | insertOutbox _ => Unit
  | selectOutboxId _ => Option UUID
  | selectPendings _ _ => List OutboxRow
  | selectPendingId _ => Option UUID
  | updateOutbox _ _ _ => Unit
  | flush => Unit
  | commit => Unit
  | rollback => Unit
  | close => Unit
  | uuid4 => UUID
  | now => DateTime
  | random => Bool
  | connect => Unit
  | publish _ _ _ => Unit
  | send _ _ _ => Unit
  | enter _ => Unit
  | ack => Unit

/-- `url.startswith(("http://", "https://"))`. -/
def supportedUrl (url : String) : Bool :=
  "http://".toList.isPrefixOf url.toList || "https://".toList.isPrefixOf url.toList

/-- The exceptions that an effect can raise. -/
def Raises (e : Exc) : Op → Bool
  | uuid4 | now | random | enter _ => false
  | connect | publish _ _ _ | ack => e.isBroker
  | send url _ _ => e.isWebhook && (supportedUrl url || e matches .webhookUrlInvalid)
  | _ => e.isDatabase

end Op

/-- What decides the answer of an effect: it works, it fails with an exception and without
effect, it fails although it took effect, or the value that is drawn. -/
inductive Choice where
  | ok
  | fault (e : Exc)
  | lost (e : Exc)
  | uuid (u : UUID)
  | time (t : DateTime)
  | coin (b : Bool)
  | order (ids : List UUID)

namespace World

/-- An identifier that nobody has drawn and no row has. -/
def Unused (w : World) (u : UUID) : Prop :=
  u.version = some 4 ∧ w.drawn u = none ∧ w.db.payments.find? u = none ∧
    w.db.outbox.find? u = none

instance (w : World) (u : UUID) : Decidable (w.Unused u) :=
  decidable_of_iff (u.version = some 4 ∧ w.drawn u = none ∧
    (w.db.payments.find? u).isNone ∧ (w.db.outbox.find? u).isNone)
    (by simp [Unused])

/-- The rows with the given identifiers, in their order. -/
def named (rows : List OutboxRow) (ids : List UUID) : List OutboxRow :=
  ids.filterMap (fun id => rows.find? (fun o => o.id = id))

/-- An order in which a sort by time may return the rows. -/
def Sorted (rows : List OutboxRow) (ids : List UUID) : Prop :=
  ids.Perm (rows.map OutboxRow.id) ∧
    (named rows ids).Pairwise (fun a b => a.occurredAt.ordinal ≤ b.occurredAt.ordinal)

instance (rows : List OutboxRow) (ids : List UUID) : Decidable (Sorted rows ids) :=
  inferInstanceAs (Decidable (_ ∧ _))

variable (w : World) (t : Tid)

/-- `INSERT` into the payments: a row of another transaction under the same keys makes it
wait, a committed one is an integrity error. -/
def insertPayment (values : PaymentValues) : Option (Except Exc Unit × World) :=
  match values.toRow with
  | .error e => some (.error e, w)
  | .ok row =>
    if (w.view t).payments.rows.any (fun r =>
        r.id = row.id ∨ r.idempotencyKey = row.idempotencyKey) then
      some (.error .integrity, w)
    else if (Write.insertPayment row).resources.all (fun r => w.Free t r) then
      some (.ok (), w.write t [.insertPayment row])
    else none

/-- `INSERT ... ON CONFLICT DO NOTHING` into the outbox. -/
def insertOutbox (events : List SerializedEvent) : Option (Except Exc Unit × World) :=
  match events.mapM SerializedEvent.toRow with
  | .error e => some (.error e, w)
  | .ok rows =>
    let fresh := rows.filter (fun o => ((w.view t).outbox.find? o.id).isNone)
    if fresh.all (fun o => w.Free t (.outbox o.id)) then
      some (.ok (), w.write t (fresh.map .insertOutbox))
    else none

/-- `UPDATE ... RETURNING id`, which waits for the lock on the row. -/
def updatePayment (id : UUID) (status : PaymentStatus) (processedAt : DateTime) :
    Option (Except Exc (Option UUID) × World) :=
  match (w.view t).payments.find? id with
  | none => some (.ok none, w)
  | some _ =>
    if w.Free t (.payment id) then
      some (.ok (some id), w.write t [.updatePayment id status processedAt])
    else none

def updateOutbox (id : UUID) (status : TaskStatus) (handledAt : Option DateTime) :
    Option (Except Exc Unit × World) :=
  match (w.view t).outbox.find? id with
  | none => some (.ok (), w)
  | some _ =>
    if w.Free t (.outbox id) then
      some (.ok (), w.write t [.updateOutbox id status handledAt])
    else none

/-- The oldest pending events in a given order, which are locked with those skipped. -/
def selectPendings (limit offset : Nat) (ids : List UUID) : List OutboxRow × World :=
  (named (w.pendings t) ((ids.drop offset).take limit),
    w.hold t ((ids.take (offset + limit)).map .outbox))

/-- Lock a pending event, which is noted as the claim of it. -/
def selectPendingId (id : UUID) : Option UUID × World :=
  match w.selectOutbox t id (fun o => o.status = .pending) with
  | (some id, w) => (some id, w.note t (.claimed id))
  | (none, w) => (none, w)

/-- The answer of a statement that never fails by itself. -/
def answered {α : Type} (r : α × World) : Option (Except Exc α × World) := some (.ok r.1, r.2)

/-- The answer to the choice that the effect works. -/
def whenOk {α : Type} (ch : Choice) (x : Option (Except Exc α × World)) :
    Option (Except Exc α × World) :=
  match ch with
  | .ok => x
  | _ => none

/-- How an effect that works answers and what it changes; none means that it waits, or
that the choice is not one for it. -/
def answer (lim : Limits) (ch : Choice) : (op : Op) → Option (Except Exc op.Res × World)
  | .selectPaymentById id => whenOk ch (answered (w.selectPayment t (fun r => r.id = id)))
  | .selectPaymentByKey key =>
    whenOk ch (answered (w.selectPayment t (fun r => r.idempotencyKey = key)))
  | .selectPaymentIdByKey key =>
    whenOk ch (answered (((w.view t).payments.rows.find? (fun r => r.idempotencyKey = key)).map
      PaymentRow.id, w))
  | .insertPayment values => whenOk ch (w.insertPayment t values)
  | .updatePayment id status processedAt => whenOk ch (w.updatePayment t id status processedAt)
  | .insertOutbox events => whenOk ch (w.insertOutbox t events)
  | .selectOutboxId id => whenOk ch (answered (w.selectOutbox t id (fun _ => true)))
  | .selectPendings limit offset =>
    match ch with
    | .order ids =>
      if Sorted (w.pendings t) ids then answered (w.selectPendings t limit offset ids) else none
    | _ => none
  | .selectPendingId id => whenOk ch (answered (w.selectPendingId t id))
  | .updateOutbox id status handledAt => whenOk ch (w.updateOutbox t id status handledAt)
  | .flush => whenOk ch (answered ((), w))
  | .commit => whenOk ch (answered ((), w.commit t))
  | .rollback => whenOk ch (answered ((), w.drop t))
  | .close => whenOk ch (answered ((), w.drop t))
  | .uuid4 =>
    match ch with
    | .uuid u => if w.Unused u then answered (u, w.draw t u) else none
    | _ => none
  | .now =>
    match ch with
    | .time now => answered (now, w)
    | _ => none
  | .random =>
    match ch with
    | .coin b => answered (b, w)
    | _ => none
  | .connect => whenOk ch (answered ((), w))
  | .publish exchange key m => whenOk ch (answered ((), w.accept t lim exchange key m))
  | .send url payload _ =>
    if Op.supportedUrl url then whenOk ch (answered ((), w.note t (.posted url payload))) else none
  | .enter event => whenOk ch (answered ((), w.note t (.entered event)))
  | .ack => whenOk ch (answered ((), w.ackDelivery t))

/-- What an effect that fails leaves behind: a session that cannot be closed cleanly is
closed nevertheless, and a call of the notifier was made. -/
def failed : Op → World
  | .close => w.drop t
  | .send url payload _ => w.note t (.posted url payload)
  | _ => w

/-- A commit or a publish that took effect although it raises. -/
def lost (lim : Limits) : Op → Option World
  | .commit => some (w.commit t)
  | .publish exchange key m => some (w.accept t lim exchange key m)
  | _ => none

def exec (lim : Limits) (t : Tid) (op : Op) (ch : Choice) (w : World) :
    Option (Except Exc op.Res × World) :=
  match ch with
  | .fault e => if op.Raises e then some (.error e, w.failed t op) else none
  | .lost e => if op.Raises e then (w.lost t lim op).map (fun w => (.error e, w)) else none
  | ch => w.answer t lim ch op

end World

end Payments
