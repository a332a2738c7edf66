import Payments.Proofs.Finality
import Payments.Proofs.Footprint
import Payments.Proofs.Routing

namespace Payments

open Lib

/-- The queue that a message which failed is meant for: the retry queue of its attempt while
attempts remain, and the dead letters on the last one. -/
def failureQueue (base : RabbitQueue) (maxAttempts : Nat) (m : Message) : Option RabbitQueue :=
  if m.attempt < maxAttempts then (retryRoutingQueues base maxAttempts)[m.attempt]? else some dlq

/-- Whatever happens, what the handler of a message publishes on the exchange of the dead letters
reaches exactly the queue that the message is meant for. -/
def FailureRouted [Externals] (lim : Limits) (base : RabbitQueue) (maxAttempts : Nat) (m : Message)
    (handler : Service Unit) : Prop :=
  ∀ k m', (service lim).Comes handler (.publish paymentsDlx k m') →
    ∃ q, failureQueue base maxAttempts m = some q ∧ route lim paymentsDlx k = [q]

section

variable [Externals] {lim : Limits} {m : Message} {e : UUID} {α : Type}

omit [Externals] in
/-- What a handler publishes on the exchange of the dead letters is a copy for a retry, or the
dead letter. -/
theorem Op.Handles.failure {uses : Op → Prop} {base : RabbitQueue} {maxAttempts : Nat}
    {k deadKey : String} {deadHeaders : Option Nat} {m' : Message}
    (h : (Op.publish paymentsDlx k m').Handles uses base maxAttempts m e deadKey deadHeaders)
    (huses : ∀ op, uses op → ∀ k m', op ≠ .publish paymentsDlx k m') :
    (m.attempt < maxAttempts ∧ ∃ retry, failureQueue base maxAttempts m = some retry ∧
      retry ∈ retryRoutingQueues base maxAttempts ∧ k = retry.routingKey) ∨
      (¬ m.attempt < maxAttempts ∧ failureQueue base maxAttempts m = some dlq ∧ k = deadKey) := by
  cases h with
  | claims h => exact h.elim
  | uses h => exact absurd rfl (huses _ h _ _)
  | concludes h => exact h.elim
  | buries h =>
    rcases h with h | ⟨hlt, retry, hr, h⟩ | ⟨hlt, h | h⟩
    · cases h
    · cases h
      exact .inl ⟨hlt, retry, by rw [failureQueue, if_pos hlt, hr], List.mem_of_getElem? hr, rfl⟩
    · exact h.elim
    · cases h
      exact .inr ⟨hlt, by rw [failureQueue, if_neg hlt], rfl⟩

omit [Externals] in
theorem Op.Emits.elsewhere {op : Op} (h : op.Emits) (k : String) (m' : Message) :
    op ≠ .publish paymentsDlx k m' := by
  rintro rfl
  obtain ⟨_, _, h⟩ := h
  exact absurd (Op.publish.inj h).1 (by decide)

/-- A copy for a retry reaches the queue of its attempt; the dead letter of
`handle_notify_client` reaches its queue, too. -/
theorem notify_routed : FailureRouted lim notifyPaymentsQ lim.notify m
    (handleNotifyClient lim.notify m) := by
  intro k m' hc
  have hfail := hc.of_only (only_handleNotifyClient (P := fun op => ∀ k m',
    op = .publish paymentsDlx k m' → ∃ q, failureQueue notifyPaymentsQ lim.notify m = some q ∧
      route lim paymentsDlx k = [q]) ?_)
  · exact hfail k m' rfl
  · rintro event _ op ho k m' rfl
    rcases ho.failure (by rintro _ ⟨_, _, _, rfl⟩ k m'; simp) with
      ⟨_, retry, hq, hr, rfl⟩ | ⟨_, hq, rfl⟩
    · exact ⟨retry, hq, route_retry_only (.inr hr)⟩
    · exact ⟨dlq, hq, route_dlq⟩

theorem payment_routed (h : m.attempt < lim.process ∨ ∀ event, decodeNew m.body ≠ .ok event) :
    FailureRouted lim newPaymentsQ lim.process m (handlePaymentProcessing lim.process m) := by
  intro k m' hc
  have hfail := hc.of_only (only_handlePaymentProcessing (P := fun op => ∀ k m',
    op = .publish paymentsDlx k m' → ∃ q, failureQueue newPaymentsQ lim.process m = some q ∧
      route lim paymentsDlx k = [q]) (fun _ _ h => by cases h) ?_)
  · exact hfail k m' rfl
  · rintro event hd op ho k m' rfl
    have hlt : m.attempt < lim.process := h.resolve_right (fun hn => hn event hd)
    rcases ho.failure (fun op hu k m' => hu.elim (fun hs he => by subst he; exact hs)
      (fun he => he.elsewhere k m')) with ⟨_, retry, hq, hr, rfl⟩ | ⟨hn, _⟩
    · exact ⟨retry, hq, route_retry_only (.inl hr)⟩
    · exact absurd hlt hn

end

/-- A state where an event is pending and no one locks it. -/
def pendingWorld (e : UUID) : World where
  db := { payments := .empty, outbox := Table.empty.insert {
    id := e
    queue := ""
    payload := .null
    occurredAt := sampleTime
    status := .pending
    handledAt := none } }

section

variable [Externals] {lim : Limits} {m : Message} {e : UUID} {α : Type}

/-- An effect ends as it does in a state, or in an exception that it can raise. -/
theorem ends_exec {op : Op} {ch : Choice} {r : Except Exc op.Res} {w w' : World}
    (h : World.exec lim 0 op ch w = some (r, w')) : (service lim).Ends (perform op) r :=
  Sys.Ends.perform (show (service lim).exec 0 op ch w = some (r, w') from h)

theorem ends_fault {op : Op} {x : Exc} (h : op.Raises x = true) :
    (service lim).Ends (perform op) (.error x) := by
  have he : World.exec lim 0 op (.fault x) {} = some (.error x, ({} : World).failed 0 op) := by
    simp only [World.exec, if_pos h]
  exact ends_exec he

/-- A unit of work ends as its body does, or in the exception of its close. -/
theorem ends_within {body : Service α} {r : Except Exc α} (h : (service lim).Ends body r) :
    (service lim).Ends (Uow.within body) r ∧
      (service lim).Ends (Uow.within body) (.error .operational) := by
  have hclose : (service lim).Ends (perform .close) (.ok ()) := @ends_exec _ _ .close .ok _ {} _ rfl
  have hroll : (service lim).Ends (Uow.rollbackOn r) (.ok ()) := by
    cases r with
    | ok _ => exact .ret ()
    | error e => exact .handle_ok (@ends_exec _ _ .rollback .ok _ {} _ rfl)
  have hout : (service lim).Ends (Prog.ofExcept r : Service α) r := by
    cases r with
    | ok a => exact .ret a
    | error e => exact .raise e
  exact ⟨.bind h.outcome (.bind hroll (.bind hclose hout)),
    .bind h.outcome (.bind hroll (.bind_error (ends_fault rfl)))⟩

omit [Externals] in
theorem select_pendingWorld (t : Tid) (p : OutboxRow → Bool)
    (hp : ∀ o : OutboxRow, o.status = .pending → p o = true) :
    ((pendingWorld e).selectOutbox t e p).1 = some e := by
  rcases hs : (pendingWorld e).selectOutbox t e p with ⟨r, w⟩
  rcases World.select_outbox hs with ⟨_, _, hn⟩ | ⟨_, _, _, _, _, hr, _⟩
  · refine absurd (.inl rfl) (hn _ (Table.mem_insert.mpr (.inr ⟨rfl, rfl⟩)) rfl (hp _ rfl))
  · exact hr

theorem ends_update {e : UUID} {status : TaskStatus} {handledAt : Option DateTime} :
    (service lim).Ends (perform (.updateOutbox e status handledAt)) (.ok ()) :=
  @ends_exec _ _ (.updateOutbox e status handledAt) .ok _ {} _ rfl

theorem ends_flush : (service lim).Ends (perform .flush) (.ok ()) :=
  @ends_exec _ _ .flush .ok _ {} _ rfl

theorem ends_claim : (service lim).Ends (claim e) (.ok true) := by
  refine (ends_within ?_).1
  refine .bind (@ends_exec _ _ .now (.time sampleTime) _ {} _ rfl) ?_
  have hselect : (service lim).Ends (perform (.selectPendingId e)) (.ok (some e)) := by
    have hs : ((pendingWorld e).selectPendingId 0 e).1 = some e := by
      have := @select_pendingWorld e 0 (fun o => o.status = .pending) (fun _ h => by simp [h])
      unfold World.selectPendingId
      split
      · rename_i id w hx
        rwa [hx] at this
      · rename_i w hx
        rw [hx] at this
        cases this
    rw [← hs]
    exact @ends_exec _ _ (.selectPendingId e) .ok _ (pendingWorld e) _ rfl
  exact .bind hselect (.bind ends_update (.bind ends_flush (.ret true)))

theorem ends_conclude {status : TaskStatus} : (service lim).Ends (conclude e status) (.ok ()) := by
  have hselect : (service lim).Ends (perform (.selectOutboxId e)) (.ok (some e)) := by
    rw [← @select_pendingWorld e 0 (fun _ => true) (fun _ _ => rfl)]
    exact @ends_exec _ _ (.selectOutboxId e) .ok _ (pendingWorld e) _ rfl
  refine (ends_within ?_).1
  refine .bind (.bind hselect (.bind ends_update ends_flush)) ?_
  exact .handle_ok (@ends_exec _ _ .commit .ok _ {} _ rfl)

/-- The use case of a payment may lose the database. -/
theorem ends_process_lost (event : PaymentEvent) :
    (service lim).Ends (processPayment event) (.error .operational) := by
  simp only [processPayment, Prog.bind_eq, Prog.pure_eq]
  cases hp : PaymentID.new (event.attr "payment_id") with
  | error x => exact .bind_error (ends_within (r := .error x) (.raise x)).2
  | ok id =>
    refine .bind_error (ends_within (r := .error .operational) ?_).2
    rw [Prog.ofExcept_ok_bind]
    exact .bind_error (.bind_error (ends_fault rfl))

/-- On the last attempt `handle_payment_processing` comes to publish under the name of the queue of
the dead letters. -/
theorem comes_dead {event : PaymentEvent} (hd : decodeNew m.body = .ok event)
    (hle : lim.process ≤ m.attempt) : (service lim).Comes (handlePaymentProcessing lim.process m)
      (.publish paymentsDlx dlq.publishKey { body := m.body }) := by
  have hconnect : (service lim).Ends (perform .connect) (.ok ()) :=
    @ends_exec _ _ .connect .ok _ {} _ rfl
  have henter : (service lim).Ends (perform (.enter event.id)) (.ok ()) :=
    @ends_exec _ _ (.enter event.id) .ok _ {} _ rfl
  simp only [handlePaymentProcessing, Prog.bind_eq, Prog.pure_eq]
  refine .bind hconnect ?_
  rw [hd, Prog.ofExcept_ok_bind]
  refine .bind ends_claim (.first ?_)
  rw [if_pos (.inl rfl)]
  refine .handle (.bind henter (.bind_error (ends_process_lost event))) ?_
  rw [if_neg (by decide)]
  refine .bind hconnect ?_
  rw [if_neg (Nat.not_lt.mpr hle)]
  exact .bind ends_conclude .here

/-- What `handle_notify_client` publishes when it fails always reaches the queue that the message
is meant for; what `handle_payment_processing` publishes does so while attempts remain. -/
theorem failures_routed :
    (FailureRouted lim newPaymentsQ lim.process m (handlePaymentProcessing lim.process m) ↔
      m.attempt < lim.process ∨ ∀ event, decodeNew m.body ≠ .ok event) ∧
    FailureRouted lim notifyPaymentsQ lim.notify m (handleNotifyClient lim.notify m) := by
  refine ⟨⟨fun h => ?_, payment_routed⟩, notify_routed⟩
  by_contra hn
  obtain ⟨hle, hd⟩ := not_or.mp hn
  obtain ⟨event, hd⟩ := not_forall.mp hd
  obtain ⟨q, _, hq⟩ := h _ _ (comes_dead (not_not.mp hd) (Nat.not_lt.mp hle))
  rw [route_dead_name] at hq
  cases hq

end

/-- A thread has published the dead letter of a last attempt of `handle_payment_processing`. -/
def buries (t : Tid) (trace : List (Tid × Obs)) : Bool :=
  trace.any (fun d => d.1 = t && match d.2 with
    | .accepted x k _ => x = paymentsDlx && k = dlq.publishKey
    | _ => false) &&
  trace.any (fun d => d.1 = t && match d.2 with
    | .delivered q m => q = newPaymentsQ && m.attempt = 3
    | _ => false)

theorem mem_of_buries {t : Tid} {trace : List (Tid × Obs)} (h : buries t trace = true) :
    (∃ m, (t, .accepted paymentsDlx dlq.publishKey m) ∈ trace) ∧
      ∃ m, (t, .delivered newPaymentsQ m) ∈ trace ∧ m.attempt = 3 := by
  obtain ⟨ha, hd⟩ := Bool.and_eq_true_iff.mp h
  obtain ⟨⟨u, o⟩, hm, ho⟩ := List.any_eq_true.mp ha
  obtain ⟨⟨u', o'⟩, hm', ho'⟩ := List.any_eq_true.mp hd
  simp only [Bool.and_eq_true, decide_eq_true_eq] at ho ho'
  obtain ⟨rfl, ho⟩ := ho
  obtain ⟨rfl, ho'⟩ := ho'
  refine ⟨?_, ?_⟩
  · cases o with
    | accepted x k m =>
      obtain ⟨rfl, rfl⟩ : x = paymentsDlx ∧ k = dlq.publishKey := by simpa using ho
      exact ⟨m, hm⟩
    | _ => cases ho
  · cases o' with
    | delivered q m =>
      obtain ⟨rfl, ha⟩ : q = newPaymentsQ ∧ m.attempt = 3 := by simpa using ho'
      exact ⟨m, hm', ha⟩
    | _ => cases ho'

/-- Every delivery of a created event loses the database, the last attempt too. -/
def lostRun : Schedule :=
  createRun 0 (uid 1) (uid 10) (uid 11) ++ failRun 1 0 ++ [.env (.expire 0)] ++ failRun 2 0 ++
    [.env (.expire 0)] ++ failRun 3 0 ++ [.env (.expire 0), .start (.deliver 0), .run 4 .ok] ++
    claimRun 4 ++ [.run 4 .ok, .run 4 (.fault .operational)] ++ oks 4 10 ++ [.exit 4]

set_option maxRecDepth 20000 in
theorem lostRun_some : (after {} lostRun).isSome = true := by decide +kernel

set_option maxRecDepth 20000 in
theorem lostRun_buries : buries 4 ((after {} lostRun).get lostRun_some).shared.trace = true := by
  decide +kernel

theorem dead_letter_lost : ∃ c, @Reachable sample {} c ∧ ∃ t m m',
    (t, .delivered newPaymentsQ m) ∈ c.shared.trace ∧ m.attempt = 3 ∧
      (t, .accepted paymentsDlx dlq.publishKey m') ∈ c.shared.trace ∧
      route {} paymentsDlx dlq.publishKey = [] := by
  obtain ⟨⟨m', ha⟩, m, hd, hm⟩ := mem_of_buries lostRun_buries
  exact ⟨_, reachable_after lostRun_some, 4, m, m', hd, hm, ha, route_dead_name⟩

end Payments
