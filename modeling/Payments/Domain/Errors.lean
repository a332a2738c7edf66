namespace Payments

/-- The subclasses of `DomainError`. -/
inductive DomainErrorClass where
  | invariant
  | validation
  | type
  | businessRule
  | resourceNotFound
  | resourceExists
  deriving DecidableEq

/-- A domain error with the entries of its context other than `status`. -/
structure DomainError where
  cls : DomainErrorClass
  message : String
  context : List (String × String) := []
  deriving DecidableEq

/-- The `status` that each class writes into the context of its instances. -/
def DomainError.status (e : DomainError) : Nat :=
  match e.cls with
  | .invariant => 422
  | .validation => 422
  | .type => 422
  | .businessRule => 422
  | .resourceNotFound => 404
  | .resourceExists => 403

/-- The exceptions that the service raises or meets. A `cause` is the exception whose
text a message ends with, or the one that a `StatementError` of the database library wraps. -/
inductive Exc where
  | domain (e : DomainError)
  | valueError (message : String)
  | typeError (message : String)
  | attributeError (message : String)
  | invalidOperation
  | serialization (message : String)
  | sqlTimeout
  | operational
  | integrity
  | dataError
  | statement (cause : Exc)
  | dbapi
  | repositoriesExhausted (message : String)
  | repositoriesUnavailable (message : String) (cause : Exc)
  | publisherUnavailable (message : String) (cause : Option Exc)
  | eventRouting (message : String)
  | eventSerialization (message : String) (cause : Exc)
  | webhookUrlInvalid
  | webhookPayload
  | webhookSenderUnavailable
  | amqp
  | other (name : String)

namespace Exc

def validation (message : String) (context : List (String × String) := []) : Exc :=
  .domain ⟨.validation, message, context⟩

def domainType (message : String) (context : List (String × String) := []) : Exc :=
  .domain ⟨.type, message, context⟩

def businessRule (message : String) : Exc := .domain ⟨.businessRule, message, []⟩

def notFound (message : String) : Exc := .domain ⟨.resourceNotFound, message, []⟩

def exists_ (message : String) : Exc := .domain ⟨.resourceExists, message, []⟩

/-- What the interpreter raises when a recursion goes deeper than its stack. -/
def recursion : Exc := .other "RecursionError"

/-- `isinstance(e, DomainBusinessRuleError)`. -/
def isBusinessRule : Exc → Bool
  | .domain e => e.cls = .businessRule
  | _ => false

/-- What a statement, a commit or a connection of the database driver can raise. -/
def isDatabase : Exc → Bool
  | .sqlTimeout | .operational | .dbapi => true
  | _ => false

/-- What the broker client can raise. -/
def isBroker : Exc → Bool
  | .amqp | .other _ => true
  | _ => false

/-- What `WebhookSender.send` can raise. -/
def isWebhook : Exc → Bool
  | .webhookUrlInvalid | .webhookPayload | .webhookSenderUnavailable | .other _ => true
  | _ => false

end Exc

end Payments
