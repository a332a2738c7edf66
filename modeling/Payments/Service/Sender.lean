import Payments.Lib.Retry
import Payments.Service.Publisher

namespace Payments

open Lib

/-- The exceptions of `httpx`: a `TimeoutException` is a `RequestError`, and that an `HTTPError`,
which the sender raises itself. -/
inductive HttpxError where
  | timeoutException
  | requestError
  | httpError (message : String)

/-- What can be raised on the way to a webhook. -/
inductive SenderExc where
  | httpx (e : HttpxError)
  | circuitBreakerError
  | raised (e : Exc)

/-- `client.post(url, json=payload)` of a client with a timeout. -/
inductive PostOp where
  | post (url : String) (payload : List (String × PyVal)) (timeout : Nat)

/-- A response is its status code. -/
@[reducible]
def PostOp.Res : PostOp → Type
  | post _ _ _ => Nat

abbrev Sending (α : Type) := Prog PostOp PostOp.Res SenderExc α

/-- What the code makes of the answer of a POST. Both `except` clauses raise their exception
again. -/
def checkResponse : Except SenderExc Nat → Except SenderExc Unit
  | .error e => .error e
  | .ok status =>
    if status ≥ 500 then .error (.httpx (.httpError ("Server error: " ++ toString status)))
    else if status = 429 then .error (.httpx (.httpError ("Rate limited: " ++ toString status)))
    else if status ≥ 400 then .error (.raised .webhookPayload)
    else .ok ()

/-- `retry_if_exception_type((TimeoutException, RequestError, HTTPError))`. -/
def retryIfExceptionType : SenderExc → Bool
  | .httpx _ => true
  | _ => false

variable [Pybreaker]

/-- The field of `HttpxWebhookSender`. -/
structure HttpxWebhookSender where
  breaker : Pybreaker.Breaker

namespace HttpxWebhookSender

def new : HttpxWebhookSender where
  breaker := Pybreaker.new 5 60

/-- `_send_with_retries`, which `stop_after_attempt(3)` ends; the last exception is raised. -/
def sendWithRetries (url : String) (payload : List (String × PyVal)) (timeout : Nat) :
    Sending Unit :=
  Prog.retry retryIfExceptionType (Prog.attempt (.post url payload timeout) checkResponse) 2

/-- `self.breaker.call(self._send_with_retries, ...)`, which returns a coroutine as in the
publisher. -/
def call (self : HttpxWebhookSender) (now : Nat) (send : Sending Unit) :
    Sending Unit × HttpxWebhookSender :=
  if Pybreaker.admits self.breaker now then
    (send, { breaker := Pybreaker.called self.breaker now false })
  else (throw .circuitBreakerError, self)

/-- The `except` clauses of `send`. -/
def unsent : SenderExc → SenderExc
  | .circuitBreakerError => .raised .webhookSenderUnavailable
  | .raised e => .raised e
  | .httpx _ => .raised .webhookSenderUnavailable

def send (self : HttpxWebhookSender) (now : Nat) (url : String)
    (payload : List (String × PyVal)) (timeout : Nat) : Sending HttpxWebhookSender :=
  if Op.supportedUrl url then do
    let called := self.call now (sendWithRetries url payload timeout)
    tryCatch called.1 (fun e => throw (unsent e))
    pure called.2
  else throw (.raised .webhookUrlInvalid)

end HttpxWebhookSender

end Payments
