import Payments.Service.UseCases

namespace Payments

/-- The classes of the exceptions, of which some have a handler. -/
inductive ExcClass where
  | exception
  | domainError
  | invariantError
  | validationError
  | domainTypeError
  | businessRuleError
  | notFoundError
  | existsError
  | typeError
  | valueError
  | keyError
  | lookupError
  | attributeError
  | indexError
  | runtimeError
  | osError
  | timeoutError
  | arithmeticError
  | decimalException
  | invalidOperation
  | serializationError
  | sqlAlchemyError
  | sqlTimeoutError
  | statementError
  | dbapiError
  | databaseError
  | operationalError
  | integrityError
  | dataError
  | repositoriesUnavailableError
  | repositoriesExhaustedError
  | publisherUnavailableError
  | eventRoutingError
  | eventSerializationError
  | webhookUrlInvalidError
  | webhookPayloadError
  | webhookSenderUnavailableError
  | amqpError
  deriving DecidableEq

/-- `type(e).__mro__` of a domain error. -/
def DomainErrorClass.mro : DomainErrorClass → List ExcClass
  | .invariant => [.invariantError, .domainError, .exception]
  | .validation => [.validationError, .domainError, .exception]
  | .type => [.domainTypeError, .domainError, .exception]
  | .businessRule => [.businessRuleError, .invariantError, .domainError, .exception]
  | .resourceNotFound => [.notFoundError, .domainError, .exception]
  | .resourceExists => [.existsError, .domainError, .exception]

namespace Exc

/-- The classes from `StatementError` on, which those of the database driver inherit from. -/
def statementMro : List ExcClass := [.statementError, .sqlAlchemyError, .exception]

/-- `type(e).__mro__` up to `Exception`. The timeout of the pool is no `TimeoutError`. -/
def mro : Exc → List ExcClass
  | .domain e => e.cls.mro
  | .valueError _ => [.valueError, .exception]
  | .typeError _ => [.typeError, .exception]
  | .attributeError _ => [.attributeError, .exception]
  | .invalidOperation => [.invalidOperation, .decimalException, .arithmeticError, .exception]
  | .serialization _ => [.serializationError, .exception]
  | .sqlTimeout => [.sqlTimeoutError, .sqlAlchemyError, .exception]
  | .operational => .operationalError :: .databaseError :: .dbapiError :: statementMro
  | .integrity => .integrityError :: .databaseError :: .dbapiError :: statementMro
  | .dataError => .dataError :: .databaseError :: .dbapiError :: statementMro
  | .statement _ => statementMro
  | .dbapi => .dbapiError :: statementMro
  | .repositoriesExhausted _ => [.repositoriesExhaustedError, .exception]
  | .repositoriesUnavailable _ _ => [.repositoriesUnavailableError, .exception]
  | .publisherUnavailable _ _ => [.publisherUnavailableError, .exception]
  | .eventRouting _ => [.eventRoutingError, .exception]
  | .eventSerialization _ _ => [.eventSerializationError, .exception]
  | .webhookUrlInvalid => [.webhookUrlInvalidError, .exception]
  | .webhookPayload => [.webhookPayloadError, .exception]
  | .webhookSenderUnavailable => [.webhookSenderUnavailableError, .exception]
  | .amqp => [.amqpError, .exception]
  | .other "KeyError" => [.keyError, .lookupError, .exception]
  | .other "IndexError" => [.indexError, .lookupError, .exception]
  | .other "RuntimeError" | .other "RecursionError" => [.runtimeError, .exception]
  | .other "TimeoutError" => [.timeoutError, .osError, .exception]
  | .other _ => [.exception]

end Exc

/-- The status, the message and the code of an error response. -/
structure ErrorResponse where
  status : Nat
  message : String
  errorCode : Option String
  deriving DecidableEq

/-- The response that the handlers of the domain errors make of `exc.message` and
`exc.context["status"]`; another exception has neither, which is an error of its own. -/
def domainResponse : Exc → ErrorResponse
  | .domain e => ⟨e.status, e.message, none⟩
  | _ => ⟨500, "Internal attribute error", some "INTERNAL_ERROR"⟩

/-- `register_shared_domain_exception_handlers`. -/
def sharedDomainHandlers : List (ExcClass × (Exc → ErrorResponse)) := [
  (.notFoundError, domainResponse),
  (.businessRuleError, domainResponse),
  (.invariantError, domainResponse),
  (.existsError, domainResponse)]

/-- `register_application_exception_handlers`. -/
def applicationHandlers : List (ExcClass × (Exc → ErrorResponse)) := [
  (.repositoriesUnavailableError, fun _ =>
    ⟨503, "Database service temporarily unavailable", some "REPOSITORY_UNAVAILABLE"⟩),
  (.repositoriesExhaustedError, fun _ =>
    ⟨503, "Service overloaded, too many concurrent requests", some "REPOSITORY_EXHAUSTED"⟩)]

/-- `register_runtime_exception_handlers`. -/
def runtimeHandlers : List (ExcClass × (Exc → ErrorResponse)) := [
  (.typeError, fun _ => ⟨400, "Invalid argument type", some "TYPE_ERROR"⟩),
  (.valueError, fun _ => ⟨400, "Invalid argument value", some "VALUE_ERROR"⟩),
  (.keyError, fun _ => ⟨400, "Required field missing", some "MISSING_FIELD"⟩),
  (.attributeError, fun _ => ⟨500, "Internal attribute error", some "INTERNAL_ERROR"⟩),
  (.indexError, fun _ => ⟨400, "Index out of range", some "INDEX_ERROR"⟩),
  (.runtimeError, fun _ => ⟨500, "Runtime error", some "RUNTIME_ERROR"⟩),
  (.timeoutError, fun _ => ⟨408, "Operation timed out", some "TIMEOUT"⟩),
  (.exception, fun _ => ⟨500, "Internal server error", some "INTERNAL_ERROR"⟩)]

/-- `register_exceptions`. -/
def exceptionHandlers : List (ExcClass × (Exc → ErrorResponse)) :=
  sharedDomainHandlers ++ applicationHandlers ++ runtimeHandlers

/-- The response to a request whose use case raises: the handler is that of the first class in
the MRO of the exception that has one. -/
def Exc.response (e : Exc) : Option ErrorResponse :=
  (e.mro.findSome? (fun c => exceptionHandlers.lookup c)).map (fun handler => handler e)

/-- What `CreatePaymentRequest` lets through: a finite amount, a JSON object and an address of
one of the two schemes. -/
structure CreatePaymentCommand.FromRequest (command : CreatePaymentCommand) : Prop where
  amount : ∃ neg coeff exp, command.amount = .finite neg coeff exp
  metadata : ∃ items, command.metadata = (Json.obj items).toPy
  webhookUrl : Op.supportedUrl command.webhookUrl = true

end Payments
