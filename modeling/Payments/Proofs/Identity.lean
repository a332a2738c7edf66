import Payments.Proofs.Lifecycle
import Payments.Proofs.Scenarios

namespace Payments

open Lib

section

variable {S : Sys World Op Op.Res Exc Reply Choice Req Env} {amount : Amount} {currency : Currency}
  {description : Description} {metadata : Metadata} {key : IdempotencyKey} {webhookUrl : WebhookUrl}
  {p q : Payment}

/-- What `PaymentService.create` returns is the payment that its constructor call makes. -/
theorem created_payment (h : Sys.Ends S
      (PaymentService.create amount currency description metadata key webhookUrl) (.ok p)) :
    ∃ id createdAt eventId occurredAt, Payment.postInit {
      id := { value := id }
      amount := amount
      currency := currency
      description := description
      metadata := metadata
      key := key
      webhookUrl := webhookUrl
      createdAt := Timestamp.new createdAt } eventId occurredAt = .ok p := by
  obtain ⟨existing, _, h⟩ | ⟨_, _, he⟩ := h.of_bind
  swap
  · cases he
  cases existing with
  | some _ => cases h
  | none =>
    obtain ⟨id, _, h⟩ | ⟨_, _, he⟩ := h.of_bind
    swap
    · cases he
    obtain ⟨createdAt, _, h⟩ | ⟨_, _, he⟩ := h.of_bind
    swap
    · cases he
    obtain ⟨eventId, _, h⟩ | ⟨_, _, he⟩ := h.of_bind
    swap
    · cases he
    obtain ⟨occurredAt, _, h⟩ | ⟨_, _, he⟩ := h.of_bind
    swap
    · cases he
    obtain ⟨p', hp', h⟩ | ⟨_, _, he⟩ := h.of_bind
    swap
    · cases he
    obtain ⟨_, _, h⟩ | ⟨_, _, he⟩ := h.of_bind
    swap
    · cases he
    cases h
    refine ⟨id, createdAt, eventId, occurredAt, ?_⟩
    generalize Payment.postInit _ _ _ = x at hp'
    cases x <;> cases hp'
    rfl

theorem created_id (h : Sys.Ends S
      (PaymentService.create amount currency description metadata key webhookUrl) (.ok p)) :
    p.id.rebuilding = false := by
  obtain ⟨id, createdAt, eventId, occurredAt, h⟩ := created_payment h
  cases h
  rfl

theorem loaded_id {row : PaymentRow} (h : PaymentRepository.toDomain row = .ok q) :
    q.id = PaymentID.rebuild row.id := by
  obtain ⟨_, _, h⟩ := except_bind_ok.mp h
  cases h
  rfl

theorem Payment.calls_id (p : Payment) (calls : List PaymentCall) :
    (p.calls calls).2.id = p.id := by
  by_cases hs : p.status = .pending
  · rcases Payment.calls_pending hs calls with ⟨_, hsame, _⟩ | ⟨_, _, _, _, _, _, _, _, _, hsame, _⟩
    · rw [hsame]
    · rw [hsame]
  · rw [(Payment.calls_settled hs calls).1]

/-- A set keeps two payments apart whose identifiers differ as tuples. -/
theorem Payment.addTo_two (hash : String × (Bool × UUID) → Int) (h : p.id.astuple ≠ q.id.astuple) :
    Payment.addTo hash (Payment.addTo hash [] p) q = [p, q] := by
  have hne : p.eq q = false := by simp [Payment.eq, PaymentID.eq, h.symm]
  simp [Payment.addTo, hne]

/-- The row of a payment after updates of its status. -/
def PaymentRow.updated (row : PaymentRow) (updates : List (PaymentStatus × DateTime)) : PaymentRow :=
  updates.foldl (fun row u => Db.settleRow u.1 u.2 row) row

theorem PaymentRow.updated_id (row : PaymentRow) (updates : List (PaymentStatus × DateTime)) :
    (row.updated updates).id = row.id := by
  induction updates generalizing row with
  | nil => rfl
  | cons u updates ih => exact ih (Db.settleRow u.1 u.2 row)

/-- A created payment and the one that is loaded for its row are never equal, whatever has
happened to either since. -/
theorem identity_lost {row : PaymentRow} {updates : List (PaymentStatus × DateTime)}
    (h : Sys.Ends S
      (PaymentService.create amount currency description metadata key webhookUrl) (.ok p))
    (hrow : (PaymentRepository.values p).toRow = .ok row)
    (hl : PaymentRepository.toDomain (row.updated updates) = .ok q)
    (calls calls' : List PaymentCall) :
    (p.calls calls).2.id.value = (q.calls calls').2.id.value ∧
    (p.calls calls).2.eq (q.calls calls').2 = false ∧
    (q.calls calls').2.eq (p.calls calls).2 = false ∧
    (p.calls calls).2.hashKey ≠ (q.calls calls').2.hashKey ∧
    ∀ hash, Payment.addTo hash (Payment.addTo hash [] (p.calls calls).2) (q.calls calls').2 =
      [(p.calls calls).2, (q.calls calls').2] := by
  have hp : p.id.rebuilding = false := created_id h
  have hq : q.id = PaymentID.rebuild p.id.value := by
    rw [loaded_id hl, row.updated_id, (World.toRow_id hrow).1]
    rfl
  -- the flags of the two identifiers differ, and both methods see them
  have hne : p.id.astuple ≠ q.id.astuple := by
    rw [hq]
    simp [PaymentID.astuple, PaymentID.rebuild, hp]
  have hne' : (p.calls calls).2.id.astuple ≠ (q.calls calls').2.id.astuple := by
    rwa [p.calls_id, q.calls_id]
  refine ⟨?_, ?_, ?_, fun he => hne' (Prod.mk.inj he).2, fun hash => Payment.addTo_two hash hne'⟩
  · rw [p.calls_id, q.calls_id, hq]
    rfl
  · simp [Payment.eq, PaymentID.eq, hne'.symm]
  · simp [Payment.eq, PaymentID.eq, hne']

end

/-- A creation alone, over empty tables. -/
def createdAlone : Option Payment :=
  ((sampleService {}).alone? (fun _ _ => true) 0 [.ok, .uuid (uid 10), .time sampleTime,
    .uuid (uid 11), .time sampleTime, .ok, .ok, .ok] (PaymentService.create
      { value := .finite false 100 (-2) } .rub { value := "test payment" } { value := .proxy [] }
      { value := uid 1 } { value := "https://example.com/hook" }) {}).bind
    (fun x => x.1.toOption)

set_option maxRecDepth 20000 in
theorem createdAlone_some : createdAlone.isSome = true := by decide +kernel

def createdPayment : Payment := createdAlone.get createdAlone_some

theorem createdPayment_ends : Sys.Ends (sampleService {}) (PaymentService.create
    { value := .finite false 100 (-2) } .rub { value := "test payment" } { value := .proxy [] }
    { value := uid 1 } { value := "https://example.com/hook" }) (.ok createdPayment) := by
  obtain ⟨⟨r, w⟩, hrun, hr⟩ := Option.bind_eq_some_iff.mp (Option.some_get createdAlone_some).symm
  have hends := (Sys.runs_of_alone (fun _ _ h => h) hrun).ends
  cases r with
  | error e => cases hr
  | ok p =>
    cases hr
    exact hends

set_option maxRecDepth 20000 in
theorem createdPayment_stored :
    (PaymentRepository.values createdPayment).toRow.toOption.isSome = true := by decide +kernel

def createdRow : PaymentRow :=
  (PaymentRepository.values createdPayment).toRow.toOption.get createdPayment_stored

theorem toOption_get {ε α : Type} {x : Except ε α} (h : x.toOption.isSome = true) :
    x = .ok (x.toOption.get h) := by
  cases x with
  | error e => cases h
  | ok a => rfl

/-- The row has been settled once. -/
def settledUpdates : List (PaymentStatus × DateTime) := [(.confirmed, sampleTime)]

set_option maxRecDepth 20000 in
theorem settledRow_loaded :
    (PaymentRepository.toDomain (createdRow.updated settledUpdates)).toOption.isSome = true := by
  decide +kernel

theorem identity_lost_settled : ∃ p row q,
    (PaymentRepository.values p).toRow = .ok row ∧
    PaymentRepository.toDomain (row.updated settledUpdates) = .ok q ∧
    p.eq q = false ∧ p.hashKey ≠ q.hashKey := by
  have hrow : (PaymentRepository.values createdPayment).toRow = .ok createdRow :=
    toOption_get createdPayment_stored
  have hq := toOption_get settledRow_loaded
  have hlost := identity_lost createdPayment_ends hrow hq [] []
  exact ⟨createdPayment, createdRow, _, hrow, hq, hlost.2.1, hlost.2.2.2.1⟩

set_option maxRecDepth 20000 in
theorem createdRow_loaded : (PaymentRepository.toDomain createdRow).toOption.isSome = true := by
  decide +kernel

def loadedPayment : Payment := (PaymentRepository.toDomain createdRow).toOption.get createdRow_loaded

set_option maxRecDepth 20000 in
theorem loadedPayment_differs : createdPayment.eq loadedPayment = false ∧
    createdPayment.hashKey ≠ loadedPayment.hashKey ∧
    createdPayment.id.value = loadedPayment.id.value := by decide +kernel

/-- A payment and its reloaded copy are two elements of a set. -/
theorem reloaded_differs : Sys.Ends (sampleService {}) (PaymentService.create
      { value := .finite false 100 (-2) } .rub { value := "test payment" } { value := .proxy [] }
      { value := uid 1 } { value := "https://example.com/hook" }) (.ok createdPayment) ∧
    (PaymentRepository.values createdPayment).toRow = .ok createdRow ∧
    PaymentRepository.toDomain createdRow = .ok loadedPayment ∧
    createdPayment.id.value = loadedPayment.id.value ∧ createdPayment.eq loadedPayment = false :=
  ⟨createdPayment_ends, toOption_get createdPayment_stored, toOption_get createdRow_loaded,
    loadedPayment_differs.2.2, loadedPayment_differs.1⟩

end Payments
