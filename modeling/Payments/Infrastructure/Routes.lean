import Mathlib.Algebra.Group.Nat.Defs
import Mathlib.Data.List.Basic

namespace Payments

/-- The arguments of a queue whose messages expire into another exchange. -/
structure RetryArguments where
  messageTtl : Nat
  deadLetterExchange : String
  deadLetterRoutingKey : String
  overflow : String := "reject-publish"
  deadLetterStrategy : String := "at-least-once"
  deriving DecidableEq

structure RabbitQueue where
  name : String
  routingKey : String := ""
  arguments : Option RetryArguments := none
  deriving DecidableEq

def paymentsExchange : String := "payments"
def paymentsDlx : String := "payments.dlx"

def newPaymentsQ : RabbitQueue := { name := "new", routingKey := "new" }
def notifyPaymentsQ : RabbitQueue := { name := "processed", routingKey := "processed" }
def dlq : RabbitQueue := { name := "dead" }

/-- `create_retry_queues`. -/
def createRetryQueues (baseQueue : RabbitQueue) (afterExpireExch : String)
    (retryBase maxAttempt : Nat) : List RabbitQueue :=
  (List.range' 1 maxAttempt).map (fun attempt =>
    let seconds := toString (retryBase * 2 ^ attempt)
    { name := "payments." ++ baseQueue.routingKey ++ ".retry." ++ seconds ++ "s"
      routingKey := baseQueue.routingKey ++ ".retry." ++ seconds ++ "s"
      arguments := some {
        messageTtl := 1000 * retryBase * 2 ^ attempt
        deadLetterExchange := afterExpireExch
        deadLetterRoutingKey := baseQueue.routingKey } })

/-- `MAX_ATTEMPTS` of the two handlers. -/
structure Limits where
  process : Nat := 3
  notify : Nat := 3

/-- `DELAY_BASE` of both handlers. -/
def DELAY_BASE : Nat := 5

/-- `retry_routing_queues` of the handler of a queue. -/
def retryRoutingQueues (baseQueue : RabbitQueue) (maxAttempts : Nat) : List RabbitQueue :=
  createRetryQueues baseQueue paymentsExchange DELAY_BASE maxAttempts

/-- A queue bound to an exchange under a key. -/
structure Binding where
  exchange : String
  key : String
  queue : RabbitQueue

/-- `bind_queues_to_exch`. -/
def bindQueuesToExch (exch : String) (queues : List RabbitQueue) : List Binding :=
  queues.map (fun queue => ⟨exch, queue.routingKey, queue⟩)

/-- `bind_queues_with_retry_to_exch`. -/
def bindQueuesWithRetryToExch (exch deadExch : String) (baseQueue : RabbitQueue)
    (retryBase maxAttempt : Nat) : List Binding :=
  bindQueuesToExch exch [baseQueue] ++
    bindQueuesToExch deadExch (createRetryQueues baseQueue exch retryBase maxAttempt)

/-- The bindings that `create_app` declares. -/
def createAppBindings (lim : Limits) : List Binding :=
  bindQueuesToExch paymentsDlx [dlq] ++
    bindQueuesWithRetryToExch paymentsExchange paymentsDlx newPaymentsQ DELAY_BASE lim.process ++
    bindQueuesWithRetryToExch paymentsExchange paymentsDlx notifyPaymentsQ DELAY_BASE lim.notify

/-- The queues that a message published under a key reaches. No key of the service has a
wildcard, so the topic exchange compares keys. -/
def route (lim : Limits) (exchange routingKey : String) : List RabbitQueue :=
  ((createAppBindings lim).filter (fun b => b.exchange = exchange ∧ b.key = routingKey)).map
    Binding.queue

/-- The key under which `publish(queue=q)` without a routing key publishes. -/
def RabbitQueue.publishKey (q : RabbitQueue) : String :=
  if q.routingKey = "" then q.name else q.routingKey

end Payments
