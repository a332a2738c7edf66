import Payments.Lib.Program
import Payments.Lib.Threads
import Payments.Lib.Courses
import Payments.Lib.RelyGuarantee
import Payments.Lib.Discipline
import Payments.Lib.Progress
import Payments.Lib.Table
import Payments.Lib.Book
import Payments.Lib.Numeral
import Payments.Lib.Address
import Payments.Python.Values
import Payments.Python.Object
import Payments.Python.Equality
import Payments.Python.Text
import Payments.Domain.Url
import Payments.Domain.ValueObjects
import Payments.Domain.Comparison
import Payments.Domain.Events
import Payments.Domain.Payment
import Payments.Domain.Methods
import Payments.Domain.FieldChecks
import Payments.Infrastructure.Serializer
import Payments.Infrastructure.Routes
import Payments.Infrastructure.Tables
import Payments.Service.World
import Payments.Service.Repositories
import Payments.Service.UseCases
import Payments.Service.Http
import Payments.Service.Publisher
import Payments.Service.Handlers
import Payments.Service.System
import Payments.Proofs.Encoding
import Payments.Proofs.Ledger
import Payments.Proofs.Routing
import Payments.Proofs.Effects
import Payments.Proofs.Footprint
import Payments.Proofs.Contract
import Payments.Proofs.Rules
import Payments.Proofs.Programs
import Payments.Proofs.Service
import Payments.Proofs.Scenarios
import Payments.Proofs.Agreement
import Payments.Proofs.Publication
import Payments.Proofs.Alone
import Payments.Proofs.Atomicity
import Payments.Proofs.Acknowledgement
import Payments.Proofs.Polling
import Payments.Proofs.Reading
import Payments.Proofs.History
import Payments.Proofs.Delivery
import Payments.Proofs.Finality
import Payments.Proofs.Notification
import Payments.Proofs.Republication
import Payments.Proofs.Recovery
import Payments.Proofs.Relay
import Payments.Proofs.Failures
import Payments.Proofs.Retries
import Payments.Proofs.Confirmation
import Payments.Proofs.Burial
import Payments.Proofs.Certification
import Payments.Proofs.Verdict
import Payments.Proofs.Queries
import Payments.Proofs.Lifecycle
import Payments.Proofs.Transport
import Payments.Proofs.Identity
import Payments.Proofs.Readback
import Payments.Proofs.Marking
import Payments.Proofs.Requests
import Payments.Proofs.Responses
import Payments.Proofs.Outages
import Payments.Proofs.Circuit
import Payments.Proofs.Survival
import Payments.Proofs.Readers
import Payments.Proofs.Idempotency
import Payments.Proofs.Claims
import Payments.Proofs.Outbox
import Payments.Proofs.Obstacles
import Payments.Proofs.Handover
import Payments.Proofs.Sending
import Payments.Proofs.Admission
import Payments.Proofs.RetryQueues
import Payments.Proofs.Chains
import Payments.Proofs.Json
import Payments.Proofs.Serialization
import Payments.Proofs.Metadata
import Payments.Proofs.Keys
import Payments.Proofs.Webhook
import Payments.Proofs.FieldChecks
import Payments.Proofs.Discipline
import Payments.Proofs.Abiding
import Payments.Proofs.Transactions
import Payments.Proofs.Progress
import Payments.Proofs.Quiescence
import Payments.Proofs.Orphans
import Payments.Proofs.Attempts
import Payments.Proofs.Completion
import Payments.Proofs.Answers
