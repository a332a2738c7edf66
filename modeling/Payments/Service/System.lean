import Payments.Service.Handlers

namespace Payments

open Lib

/-- What happens to the messages without the service: the message at a place expires in its
retry queue, an unacknowledged one returns to its queue, a delivered one is delivered again. -/
inductive Env where
  | expire (i : Nat)
  | requeue (t : Tid)
  | duplicate (i : Nat)

/-- The handler that subscribes to a queue. -/
def subscriber [Externals] (lim : Limits) (queue : RabbitQueue) (msg : Message) :
    Option (Service Unit) :=
  if queue = newPaymentsQ then some (handlePaymentProcessing lim.process msg)
  else if queue = notifyPaymentsQ then some (handleNotifyClient lim.notify msg)
  else none

namespace World

/-- Take the message at a place of the broker and deliver it to a thread. -/
def deliver (w : World) (t : Tid) (i : Nat) (queue : RabbitQueue) (m : Message) : World :=
  { w with
    ready := w.ready.eraseIdx i
    unacked := (t, queue, m) :: w.unacked
    trace := (t, .delivered queue m) :: w.trace }

/-- The dependency that owns the session closes it when the run has ended. -/
def finish (w : World) (t : Tid) (r : Except Exc Reply) : World :=
  (w.drop t).note t (.ended r)

/-- A crash: the database rolls back what the session had open. -/
def crash (w : World) (t : Tid) : World := (w.drop t).note t .crashed

def expire (lim : Limits) (w : World) (i : Nat) : Option World :=
  (w.ready[i]?).bind (fun (queue, m) => queue.arguments.map (fun args =>
    { w with ready := w.ready.eraseIdx i ++
        (route lim args.deadLetterExchange args.deadLetterRoutingKey).map (fun q => (q, m)) }))

def requeue (w : World) (t : Tid) : Option World :=
  (w.unacked.find? (fun d => d.1 = t)).map (fun d =>
    { w with
      ready := w.ready ++ [d.2]
      unacked := w.unacked.filter (fun d => d.1 ≠ t) })

def duplicate (w : World) (i : Nat) : Option World :=
  match w.trace[i]? with
  | some (_, .delivered queue m) => some { w with ready := w.ready ++ [(queue, m)] }
  | _ => none

def environment (lim : Limits) (w : World) : Env → Option World
  | .expire i => w.expire lim i
  | .requeue t => w.requeue t
  | .duplicate i => w.duplicate i

/-- The program that a request starts. -/
def start [Externals] (lim : Limits) (t : Tid) (w : World) : Req → Option (Service Reply × World)
  | .create command =>
    some ((createPayment command).bind (fun r => pure (.created r)), w.note t (.created command))
  | .get id => some ((getPayment id).bind (fun r => pure (.payment r)), w)
  | .poll => some (handleBadEvents.bind (fun _ => pure .done), w.note t .polled)
  | .deliver i =>
    (w.ready[i]?).bind (fun (queue, m) => (subscriber lim queue m).map (fun p =>
      (p.bind (fun _ => pure .done), w.deliver t i queue m)))

end World

/-- The service with its database, its broker and its environment. -/
def service [Externals] (lim : Limits) :
    Sys World Op Op.Res Exc Reply Choice Req Env where
  exec := World.exec lim
  exit := fun t r w => w.finish t r
  start := fun t req w => w.start lim t req
  kill := fun t w => w.crash t
  env := fun e w => w.environment lim e

/-- The step is not a failure of the database, the broker, the webhook or the process. -/
def works : Move Op Choice Req Env → Bool
  | .run _ _ (.fault _) | .run _ _ (.lost _) | .kill _ => false
  | _ => true

end Payments
