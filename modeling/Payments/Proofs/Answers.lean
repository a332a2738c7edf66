import Payments.Proofs.Attempts
import Payments.Proofs.Idempotency
import Payments.Proofs.Readback
import Payments.Proofs.Responses

namespace Payments

open Lib

/-- The exception tells neither that a payment exists nor that the publisher failed. -/
def Exc.isRejection : Exc → Bool
  | .publisherUnavailable _ _ => false
  | .domain e => e.cls ≠ .resourceExists
  | _ => true

/-- The exception leaves open whether the statement or the commit that met it took effect. -/
def Exc.isOutage (e : Exc) : Bool := e.isDatabase || e.isRepositories

/-- The thread has committed the payment of a command together with its created event. -/
structure World.Registered (w : World) (t : Tid) (command : CreatePaymentCommand)
    (row : PaymentRow) (o : OutboxRow) : Prop where
  key : row.idempotencyKey = command.key
  created : row.Created o
  told : (t, .committed [.insertPayment row, .insertOutbox o]) ∈ w.trace
  kept : ∃ r ∈ w.db.payments.rows, row.Evolves r

/-- What the answer to a creation tells the client. -/
inductive World.Answers (w : World) (t : Tid) (command : CreatePaymentCommand) :
    Except Exc CreatePaymentResponse → Prop where
  /-- The payment is committed, and its created event is with the broker. -/
  | responds {row : PaymentRow} {o : OutboxRow} {response : CreatePaymentResponse}
      (registered : w.Registered t command row o) (tells : row.Tells command response)
      (sent : (t, .accepted paymentsExchange newPaymentsQ.routingKey { body := o.body }) ∈
        w.trace) : Answers w t command (.ok response)
  /-- The payment is committed all the same. -/
  | unpublished {row : PaymentRow} {o : OutboxRow} {message : String} {cause : Option Exc}
      (registered : w.Registered t command row o) :
      Answers w t command (.error (.publisherUnavailable message cause))
  /-- Another payment has the key. -/
  | taken {message : String} (untold : Untold t w) (taken : w.db.Taken command.key) :
      Answers w t command (.error (.exists_ message))
  | rejected {e : Exc} (rejection : e.isRejection = true) (untold : Untold t w) :
      Answers w t command (.error e)
  /-- The payment may be committed or not. -/
  | outage {e : Exc} (he : e.isOutage = true) : Answers w t command (.error e)

/-- What the others do: they keep what the thread relies on, and tell nothing in its name. -/
structure Bystanders (t : Tid) (w w' : World) : Prop where
  rivals : Rivals t w w'
  seen : ∀ d ∈ w.trace, d ∈ w'.trace

section

variable {t : Tid} {w w' : World} {command : CreatePaymentCommand} {row : PaymentRow}
  {o : OutboxRow} {y : Except Exc CreatePaymentResponse} {e : Exc}

theorem World.Registered.mono (h : w.Registered t command row o) (hg : w.db.Grows w'.db)
    (hs : ∀ d ∈ w.trace, d ∈ w'.trace) : w'.Registered t command row o := by
  obtain ⟨r, hr, he⟩ := h.kept
  obtain ⟨r', hr', he'⟩ := hg.payment r hr
  exact ⟨h.key, h.created, hs _ h.told, r', hr', he.trans he'⟩

theorem World.Answers.mono (h : w.Answers t command y) (hg : w.db.Grows w'.db)
    (hs : ∀ d ∈ w.trace, d ∈ w'.trace)
    (hn : ∀ ws, (t, .committed ws) ∈ w'.trace → (t, .committed ws) ∈ w.trace) :
    w'.Answers t command y := by
  have huntold : Untold t w → Untold t w' := fun h ws hm => h ws (hn ws hm)
  cases h with
  | responds hr ht hsent => exact .responds (hr.mono hg hs) ht (hs _ hsent)
  | unpublished hr => exact .unpublished (hr.mono hg hs)
  | taken hu ht => exact .taken (huntold hu) (ht.grows hg)
  | rejected he hu => exact .rejected he (huntold hu)
  | outage he => exact .outage he

theorem Bystanders.registered (h : w.Registered t command row o) (hr : Bystanders t w w') :
    w'.Registered t command row o :=
  h.mono hr.rivals.1.grows hr.seen

theorem Bystanders.answers (h : w.Answers t command y) (hr : Bystanders t w w') :
    w'.Answers t command y :=
  h.mono hr.rivals.1.grows hr.seen (fun _ => hr.rivals.2 _)

theorem outage_of_database (h : e.isDatabase = true) : e.isOutage = true := by
  simp [Exc.isOutage, h]

/-- A row that cannot be loaded tells nothing of a payment that exists. -/
theorem toDomain_rejection (h : PaymentRepository.toDomain row = .error e) :
    e.isRejection = true := by
  unfold PaymentRepository.toDomain Metadata.rebuild at h
  split at h <;> cases h
  rfl

theorem toRow_rejection {values : PaymentValues} (h : values.toRow = .error e) :
    e.isRejection = true := by
  rcases World.toRow_error h with ⟨_, rfl⟩ | rfl <;> rfl

end

section

variable [Externals] {lim : Limits} {t : Tid} {w : World} {command : CreatePaymentCommand}
  {ws : List Write} {F : World → Prop} {α β : Type}

variable (command) in
/-- A program of a creation, whatever fails: it works, or it ends with an answer. -/
abbrev Answering (lim : Limits) (t : Tid) (p : Service α) (P : α → World → Prop) (w : World) : Prop :=
  wp (service lim) (fun _ _ => True) (.relying Bystanders) t p
    (Ends P (fun e w => w.Answers t command (.error e))) w

theorem answering_op {op : Op} {Q : op.Res → World → Prop} (P : World → Prop) (hP : P w)
    (stable : ∀ w w', P w → Bystanders t w w' → P w')
    (h : ∀ w₁ ch r w₂, P w₁ → World.Does lim t w₁ op ch r w₂ →
      Ends Q (fun e w => w.Answers t command (.error e)) r w₂) :
    Answering command lim t (perform op) Q w :=
  wp_relying P hP stable (fun w₁ ch r w₂ hp _ he => h w₁ ch r w₂ hp (World.exec_does he))

theorem answering_then {p : Service α} {f : α → Service β} {P : α → World → Prop}
    {Q : β → World → Prop} (hp : Answering command lim t p P w)
    (hf : ∀ a w, P a w → Answering command lim t (f a) Q w) :
    Answering command lim t (p.bind f) Q w :=
  wp_seq _ hp hf (fun _ _ h => h)

/-- A read before the commit. -/
theorem answering_read (op : Op) (ho : op.Reads) (he : ∀ e, op.Raises e = true → e.isDatabase = true)
    (hF : Firm t F) (h : Before t ws F w) :
    Answering command lim t (perform op) (fun _ => Before t ws F) w := by
  apply answering_op _ h (fun _ _ h hr => h.stable hF hr.rivals)
  intro w₁ ch r w₂ h hd
  have h' := h.does hF ho hd
  cases hd with
  | fault hr => exact .outage (outage_of_database (he _ hr))
  | refusePayment | conflict | refuseOutbox | lostCommit | lostPublish => exact ho.elim
  | _ => exact h'

theorem answering_draw (hF : Firm t F) (h : Before t ws F w) :
    Answering command lim t (perform .uuid4)
      (fun u => Before t ws (fun w => F w ∧ Drawn t u w)) w := by
  apply answering_op _ h (fun _ _ h hr => h.stable hF hr.rivals)
  intro w₁ ch r w₂ h hd
  have h' := @Before.does t w₁ w₂ ws F lim .uuid4 ch r hF h trivial hd
  cases hd with
  | fault hr => cases hr
  | uuid4 hu => exact ⟨⟨h'.1.1, h'.1.2, by simp, hu.2.2⟩, h'.2⟩

/-- The first check finds the payment with the key, or overlooks it where its row is locked. -/
theorem answering_getByKey {key : IdempotencyKey} (hk : key.value = command.key)
    (h : Before t [] (fun _ => True) w) :
    Answering command lim t (PaymentRepository.getByKey key) (fun x w =>
      Before t [] (fun _ => True) w ∧ (x.isSome = true → w.db.Taken command.key)) w := by
  have htrue : Firm t (fun _ => True) := .const True
  apply answering_then (P := fun row w => Before t [] (fun _ => True) w ∧
    (row.isSome = true → w.db.Taken command.key))
  · apply answering_op _ h (fun _ _ h hr => h.stable htrue hr.rivals)
    intro w₁ ch r w₂ h hd
    have h' := @Before.does t w₁ w₂ [] _ lim (.selectPaymentByKey key.value) ch r htrue h trivial hd
    cases hd with
    | fault hr => exact .outage (outage_of_database hr)
    | lockKey hr hkey => exact ⟨h', fun _ => ⟨_, World.view_nil h.1.1 ▸ hr, hkey.trans hk⟩⟩
    | skipKey => exact ⟨h', fun he => by cases he⟩
  · intro row w hend
    obtain ⟨h, htaken⟩ := hend
    cases row with
    | none => exact ⟨h, fun he => by cases he⟩
    | some row =>
      cases hp : PaymentRepository.toDomain row with
      | error e =>
        simp only [hp, Prog.bind_eq]
        exact .rejected (toDomain_rejection hp) h.2
      | ok p =>
        simp only [hp, Prog.bind_eq, Prog.ofExcept_ok_bind]
        exact ⟨h, fun _ => htaken rfl⟩

/-- The second check sees what the first has overlooked, and the tables may refuse the values. -/
theorem answering_add {p : Payment} {eventId : UUID} (hk : p.key.value = command.key)
    (h : Before t [] (fun w => Drawn t p.id.value w ∧ Drawn t eventId w) w) :
    Answering command lim t (PaymentRepository.add p) (fun _ w => ∃ row,
      (PaymentRepository.values p).toRow = .ok row ∧
        Before t [.insertPayment row] (Opened t row eventId) w) w := by
  have hF : Firm t (fun w => Drawn t p.id.value w ∧ Drawn t eventId w) :=
    (firm_drawn _).and (firm_drawn _)
  apply answering_then (P := fun x w => Before t [] (fun w => Drawn t p.id.value w ∧
    Drawn t eventId w) w ∧ (x.isSome = true → w.db.Taken command.key))
  · apply answering_op _ h (fun _ _ h hr => h.stable hF hr.rivals)
    intro w₁ ch r w₂ h hd
    cases hd with
    | fault hr => exact .outage (outage_of_database hr)
    | readKey hr hkey => exact ⟨h, fun _ => ⟨_, World.view_nil h.1.1 ▸ hr, hkey.trans hk⟩⟩
    | missKey => exact ⟨h, fun he => by cases he⟩
  intro x w hend
  obtain ⟨h, htaken⟩ := hend
  cases x with
  | some _ => exact .taken h.2 (htaken rfl)
  | none =>
    apply answering_then (P := fun _ w => ∃ row, (PaymentRepository.values p).toRow = .ok row ∧
      Before t [.insertPayment row] (Opened t row eventId) w)
    · apply answering_op _ h (fun _ _ h hr => h.stable hF hr.rivals)
      intro w₁ ch r w₂ h hd
      have htold : Untold t w₂ := h.2.does (by simp) hd
      cases hd with
      | fault hr => exact .outage (outage_of_database hr)
      | refusePayment hv => exact .rejected (toRow_rejection hv) htold
      | conflict => exact .rejected rfl htold
      | @insertPayment _ row hv hn hf =>
        have hfree : ∀ x ∈ [Write.insertPayment row], ∀ r ∈ x.resources, w₁.Free t r := by
          simpa using hf
        obtain ⟨hd₁, hd₂⟩ := hF _ _ h.1.2 (.write hfree)
        refine ⟨row, hv, ⟨by simp [h.1.1], ⟨?_, fun r hr => ?_⟩, ?_, hd₂⟩, htold⟩
        · simp [World.write_lock, World.hold_lock, Write.resources]
        · have hview : r ∈ (w₁.view t).payments.rows := by
            rw [World.view_nil h.1.1]
            exact hr
          exact (hn r hview).2
        · rw [(World.toRow_id hv).1]
          exact hd₁
    · intro _ w hend
      obtain ⟨row, hv, h⟩ := hend
      have hflush : Answering command lim t (perform .flush)
          (fun _ => Before t [.insertPayment row] (Opened t row eventId)) w :=
        answering_read .flush trivial (fun _ he => he) (firm_opened row eventId) h
      exact wp_mono hflush (fun r w hw => by
        cases r with
        | ok _ => exact ⟨row, hv, hw⟩
        | error _ => exact hw)

theorem answering_service_create {parts : PaymentParts} (hk : parts.key.value = command.key)
    (h : Before t [] (fun _ => True) w) :
    Answering command lim t (PaymentService.create parts.amount parts.currency parts.description
      parts.metadata parts.key parts.webhookUrl) (fun p w => ∃ row createdAt eventId occurredAt,
        p = parts.payment row.id createdAt eventId occurredAt ∧
        (PaymentRepository.values p).toRow = .ok row ∧
        Before t [.insertPayment row] (Opened t row eventId) w) w := by
  have htrue : Firm t (fun _ => True) := .const True
  apply answering_then (answering_getByKey hk h)
  intro existing w hend
  obtain ⟨h, htaken⟩ := hend
  cases existing with
  | some _ => exact .taken h.2 (htaken rfl)
  | none =>
    apply answering_then (answering_draw htrue h)
    intro id w h
    have hF := htrue.and (firm_drawn (t := t) id)
    apply answering_then (answering_read .now trivial (fun _ he => by cases he) hF h)
    intro createdAt w h
    apply answering_then (answering_draw hF h)
    intro eventId w h
    apply answering_then (answering_read .now trivial (fun _ he => by cases he)
      (hF.and (firm_drawn _)) h)
    intro occurredAt w h
    simp only [Payment.postInit, Payment.recordEvent, Prog.ofExcept, Prog.bind_eq, Prog.bind,
      ne_eq, not_true_eq_false, false_and, Bool.false_eq_true, ↓reduceIte]
    have hbefore : Before t [] (fun w => Drawn t id w ∧ Drawn t eventId w) w :=
      ⟨⟨h.1.1, h.1.2.1.2, h.1.2.2⟩, h.2⟩
    apply answering_then (answering_add hk hbefore)
    intro _ w hend
    obtain ⟨row, hv, h⟩ := hend
    refine ⟨row, createdAt, eventId, occurredAt, ?_, hv, h⟩
    rw [(World.toRow_id hv).1]
    rfl

theorem answering_add_event {e : PaymentEvent} {o : OutboxRow} {row : PaymentRow}
    (hst : e.StoredAs o) (h : Before t [.insertPayment row] (Opened t row o.id) w) :
    Answering command lim t (OutboxRepository.add [e]) (fun _ =>
      Before t [.insertPayment row, .insertOutbox o] (Opened t row o.id)) w := by
  have hF := firm_opened (t := t) row o.id
  obtain ⟨s, hr, heq⟩ := add_event_eq hst
  rw [heq]
  apply answering_then (P := fun _ => Before t [.insertPayment row, .insertOutbox o]
    (Opened t row o.id))
  · apply answering_op _ h (fun _ _ h hr => h.stable hF hr.rivals)
    intro w₁ ch x w₂ h hd
    have htold : Untold t w₂ := h.2.does (by simp) hd
    have hn : (w₁.view t).outbox.find? o.id = none := by
      rw [World.view, h.1.1]
      exact h.1.2.2.2.2.2
    rcases insert_one hd hr hn with ⟨_, _, he, rfl, _⟩ | ⟨rfl, rfl, hf⟩
    · exact .outage (outage_of_database he)
    · exact ⟨⟨by simp [h.1.1], hF _ _ h.1.2 (.write hf)⟩, htold⟩
  · exact fun _ _ h => answering_read .flush trivial (fun _ he => he) hF h

/-- The commit registers the payment, or nobody can tell whether it did. -/
theorem answering_commit {row : PaymentRow} {o : OutboxRow} (hk : row.idempotencyKey = command.key)
    (hc : row.Created o)
    (h : Before t [.insertPayment row, .insertOutbox o] (Opened t row o.id) w) :
    Answering command lim t Uow.commit (fun _ w => w.Registered t command row o) w := by
  have hF := firm_opened (t := t) row o.id
  have hroll : ∀ (e : Exc) (w : World), e.isOutage = true → Answering command lim t
      ((perform .rollback).bind (fun _ => Prog.raise e)) (fun (_ : Unit) w =>
        w.Registered t command row o) w := by
    intro e w he
    apply answering_then (P := fun _ _ => True)
    · apply answering_op (fun _ => True) trivial (fun _ _ _ _ => trivial)
      intro w₁ ch r w₂ _ hd
      cases hd with
      | fault hr => exact .outage (outage_of_database hr)
      | rollback => trivial
    · exact fun _ _ _ => .outage he
  apply wp_catch (Ends (fun _ w => w.Registered t command row o) (fun e _ => e.isDatabase = true))
  · apply wp_relying _ h (fun _ _ h hr => h.stable hF hr.rivals)
    intro w₁ ch r w₂ h _ he
    cases World.exec_does he with
    | fault hr | lostCommit hr => exact hr
    | commit =>
      have hdb : (w₁.commit t).db = w₁.db.applyAll [.insertPayment row, .insertOutbox o] := by
        rw [World.commit_db, World.view, h.1.1]
      have hmem : row ∈ (w₁.commit t).db.payments.rows := by
        rw [hdb]
        exact (Db.mem_payments_create h.1.2.2.1.2.1).mpr (.inr rfl)
      refine ⟨hk, hc, ?_, row, hmem, .refl row⟩
      rw [World.commit_trace, h.1.1]
      exact List.mem_cons_self
  · exact fun _ _ h => h
  · intro e w he
    split
    · exact hroll _ w rfl
    · exact hroll _ w rfl
    · exact .outage (outage_of_database he)

/-- A unit of work of a creation ends as its body does, or its session cannot be closed. -/
theorem answering_within {body : Service α} {P : α → World → Prop}
    (hs : ∀ a w w', P a w → Bystanders t w w' → P a w') (hdrop : ∀ a w, P a w → P a (w.drop t))
    (h : Answering command lim t body P w) : Answering command lim t (Uow.within body) P w := by
  have hstable : ∀ (r : Except Exc α) (w w' : World),
      Ends P (fun e w => w.Answers t command (.error e)) r w → Bystanders t w w' →
      Ends P (fun e w => w.Answers t command (.error e)) r w' := by
    intro r w w' hr hb
    cases r with
    | ok a => exact hs a w w' hr hb
    | error e => exact hb.answers hr
  have hclosed : ∀ (r : Except Exc α) (w : World),
      Ends P (fun e w => w.Answers t command (.error e)) r w →
      Ends P (fun e w => w.Answers t command (.error e)) r (w.drop t) := by
    intro r w hr
    cases r with
    | ok a => exact hdrop a w hr
    | error e => exact hr.mono (.refl _) (fun _ hd => hd) (fun _ hd => hd)
  apply wp_unit _ h
  · intro e w he
    apply wp_relying _ he (hstable (.error e))
    intro w₁ ch r w₂ h₁ _ hexec
    cases World.exec_does hexec with
    | fault => exact h₁
    | rollback => exact hclosed (.error e) w₁ h₁
  · intro r w hr
    apply wp_relying _ hr (hstable r)
    intro w₁ ch x w₂ h₁ _ hexec
    cases World.exec_does hexec with
    | fault he => exact .outage (outage_of_database he)
    | close => exact hclosed r w₁ h₁

variable (command) in
/-- The payment of a command is registered, and its created event is to be published. -/
def Registers (t : Tid) (x : Payment × List PaymentEvent) (w : World) : Prop :=
  ∃ row o e, x.2 = [e] ∧ EventBus.queueRegistry e.cls = some newPaymentsQ ∧
    parseEventToMessage e = .ok o.body ∧ row.Tells command (.fromDomain x.1) ∧
    w.Registered t command row o

theorem answering_registration {parts : PaymentParts} (hp : command.parts = .ok parts)
    (h : Before t [] (fun _ => True) w) :
    Answering command lim t (registration parts) (Registers command t) w := by
  have hkey := idempotency_key_value (parts_ok hp).2.1
  apply answering_then (answering_service_create hkey h)
  intro p w hend
  obtain ⟨row, createdAt, eventId, occurredAt, hpay, hv, h⟩ := hend
  subst hpay
  have hst := created_stored row.id eventId occurredAt
  apply answering_then (answering_add_event hst h)
  intro _ w h
  apply answering_then (answering_commit ((World.toRow_id hv).2.trans hkey) ⟨rfl, rfl⟩ h)
  intro _ w hr
  have hstores : row.Stores command (.fromDomain (parts.payment row.id createdAt eventId
      occurredAt)) := ⟨parts, row.id, createdAt, eventId, occurredAt, hp, hv, rfl⟩
  exact ⟨row, _, _, rfl, rfl, created_published _ _ _ hst, hstores.tells, hr⟩

omit [Externals] in
/-- Whatever the broker raises, the publisher is unavailable. -/
theorem unavailable_eq (event : PaymentEvent) (e : Exc) :
    ∃ message cause, EventBus.unavailable event e = .publisherUnavailable message cause := by
  unfold EventBus.unavailable
  split
  · exact ⟨_, _, rfl⟩
  · exact ⟨_, _, rfl⟩

theorem answering_publish {row : PaymentRow} {o : OutboxRow} {e : PaymentEvent}
    (hq : EventBus.queueRegistry e.cls = some newPaymentsQ) (hb : parseEventToMessage e = .ok o.body)
    (h : w.Registered t command row o) :
    Answering command lim t (EventBus.publishPaymentEvents [e]) (fun _ w =>
      w.Registered t command row o ∧
        (t, .accepted paymentsExchange newPaymentsQ.routingKey { body := o.body }) ∈ w.trace) w := by
  refine answering_then ?_ (fun _ _ h => h)
  unfold EventBus.publishPaymentEvent
  simp only [hq, hb]
  apply wp_catch (Ends (fun _ w => w.Registered t command row o ∧
    (t, .accepted paymentsExchange newPaymentsQ.routingKey { body := o.body }) ∈ w.trace)
      (fun _ w => w.Registered t command row o))
  · apply wp_relying (fun w => w.Registered t command row o) h (fun _ _ h hr => hr.registered h)
    intro w₁ ch r w₂ h _ he
    have hsent : (w₁.accept t lim paymentsExchange newPaymentsQ.routingKey
        { body := o.body }).Registered t command row o :=
      h.mono (.refl _) (fun _ hd => List.mem_cons_of_mem _ hd)
    cases World.exec_does he with
    | fault => exact h
    | lostPublish => exact hsent
    | publish => exact ⟨hsent, List.mem_cons_self⟩
  · exact fun _ _ h => h
  · intro x w hr
    obtain ⟨message, cause, hx⟩ := unavailable_eq e x
    rw [hx]
    exact .unpublished hr

omit [Externals] in
theorem rejection_of_refuses {e : Exc} (h : e.Refuses) : e.isRejection = true := by
  cases e with
  | domain d => rcases h with h | h <;> simp [Exc.isRejection, h]
  | _ => exact h.elim

/-- The values of a command are refused with an error of their own. -/
theorem parts_rejection {e : Exc} (h : command.parts = .error e) : e.isRejection = true := by
  simp only [CreatePaymentCommand.parts, bind, Except.bind] at h
  cases hamount : Amount.new command.amount with
  | error e' =>
    rw [hamount] at h
    cases h
    unfold Amount.new at hamount
    split at hamount
    · split at hamount
      · cases hamount
        rfl
      · split at hamount <;> cases hamount
        rfl
    · cases hamount
      rfl
    · cases hamount
      rfl
    · cases hamount
      rfl
  | ok a =>
  rw [hamount] at h
  cases hkey : IdempotencyKey.new command.key with
  | error e' =>
    rw [hkey] at h
    cases h
    exact rejection_of_refuses (key_refuses hkey)
  | ok k =>
  rw [hkey] at h
  cases hdescription : Description.new command.description with
  | error e' =>
    rw [hdescription] at h
    cases h
    exact rejection_of_refuses (description_refuses hdescription)
  | ok d =>
  rw [hdescription] at h
  cases hmetadata : Metadata.new command.metadata with
  | error e' =>
    rw [hmetadata] at h
    cases h
    unfold Metadata.new at hmetadata
    split at hmetadata <;> (try split at hmetadata) <;> cases hmetadata <;> rfl
  | ok m =>
  rw [hmetadata] at h
  cases hurl : WebhookUrl.new command.webhookUrl with
  | error e' =>
    rw [hurl] at h
    cases h
    rcases webhook_refuses hurl with ⟨hr, _⟩ | hp
    · exact rejection_of_refuses hr
    · obtain ⟨_, rfl⟩ := urlparse_error hp
      rfl
  | ok u =>
    rw [hurl] at h
    cases h

/-- A creation answers whatever happens. -/
theorem answering_create_payment (h : Before t [] (fun _ => True) w) :
    Answering command lim t (createPayment command)
      (fun response w => w.Answers t command (.ok response)) w := by
  cases hp : command.parts with
  | error e =>
    simp only [createPayment, hp, Prog.bind_eq]
    exact .rejected (parts_rejection hp) h.2
  | ok parts =>
    rw [create_payment_eq hp]
    apply answering_then (answering_within ?_ ?_ (answering_registration hp h))
    · intro x w hend
      obtain ⟨row, o, e, hx, hq, hb, ht, hr⟩ := hend
      rw [hx]
      apply answering_then (answering_publish hq hb hr)
      exact fun _ _ hend => .responds hend.1 ht hend.2
    · intro x w w' hend hs
      obtain ⟨row, o, e, hx, hq, hb, ht, hr⟩ := hend
      exact ⟨row, o, e, hx, hq, hb, ht, hs.registered hr⟩
    · intro x w hend
      obtain ⟨row, o, e, hx, hq, hb, ht, hr⟩ := hend
      exact ⟨row, o, e, hx, hq, hb, ht, hr.mono (.refl _) (fun _ hd => hd)⟩

variable {c c' : Config World Op Op.Res Exc Reply} {x : Except Exc Reply}

/-- A thread with a command was started with it. -/
theorem creation_started (h : Reachable lim c) (hc : (t, .created command) ∈ c.shared.trace) :
    ∃ c₀ c₁, Reachable lim c₀ ∧ (service lim).Step c₀ (.start t (.create command)) c₁ ∧
      (service lim).Reach (fun _ _ => True) c₁ c := by
  have hinit : (t, Obs.created command) ∉
      (Config.initial {} : Config World Op Op.Res Exc Reply).shared.trace := List.not_mem_nil
  obtain ⟨c₀, mv, c₁, h₀, hs, hn, hc₁, h₁⟩ := Sys.Reach.onset
    (P := fun c => (t, Obs.created command) ∈ c.shared.trace) h hinit hc
  refine ⟨c₀, c₁, h₀, ?_, h₁⟩
  have hr := revealed hs hn hc₁
  cases mv with
  | run _ op _ =>
    obtain ⟨_, hshow⟩ := hr
    cases op <;> exact hshow.elim
  | start _ req =>
    cases req with
    | create command' =>
      obtain ⟨rfl, he⟩ := hr
      cases he
      exact hs
    | get => exact hr.elim
    | poll => cases hr.2
    | deliver =>
      obtain ⟨_, _, _, _, _, _, he⟩ := hr
      cases he
  | exit =>
    obtain ⟨_, _, he⟩ := hr
    cases he
  | kill => cases hr.2
  | env => exact hr.elim

/-- The client can rely on the answer to a creation, whatever fails and whatever else runs. After
a response the payment is committed and its event is with the broker; where the publisher is
unavailable it is committed all the same; where the key is taken there is a payment with it, and
this creation committed nothing, as it did with every other rejection. Only an outage of the
database leaves the outcome open. -/
theorem creation_answered (h : Reachable lim c) (hc : (t, .created command) ∈ c.shared.trace)
    (hx : (t, .ended x) ∈ c.shared.trace) :
    ∃ y, x = y.map Reply.created ∧ c.shared.Answers t command y := by
  obtain ⟨c₀, c₁, h₀, hs, h₁⟩ := creation_started h hc
  have hr₁ : Reachable lim c₁ := h₀.step trivial hs
  obtain ⟨p, ⟨w, hp⟩, hlt, ht, hstory, hpend, htrace⟩ := started_fresh h₀ hs (by simp)
  obtain ⟨rfl, _⟩ := Prod.mk.inj (Option.some.inj hp)
  have hall : ∀ {d}, (service lim).Reach (fun _ _ => True) c₁ d → Reachable lim d :=
    fun hd => hr₁.trans hd
  let Q : Except Exc Reply → World → Prop := fun x w =>
    ∃ y, x = y.map Reply.created ∧ w.Answers t command y
  have hwp : ∀ p, c₁.threads t = some p → wp (service lim) (fun _ _ => True)
      (.relying Bystanders) t p Q c₁.shared := by
    intro p hp
    cases ht.symm.trans hp
    have hbefore : Before t [] (fun _ => True) c₁.shared := ⟨⟨hpend, trivial⟩, htrace⟩
    exact wp_seq _ (answering_create_payment hbefore) (fun r _ hw => ⟨.ok r, rfl, hw⟩)
      (fun e _ hw => ⟨.error e, rfl, hw⟩)
  have hended : .ended x ∈ c.shared.story t := World.mem_story.mpr ⟨hx, rfl⟩
  obtain ⟨d, d', hd, hexit, hthen, y, hy, hq⟩ := ended_meets (C := .relying Bystanders) hlt
    (by rw [hstory]; exact List.not_mem_nil) hwp
    (fun w => ⟨⟨World.Rely.refl t w, fun _ => id⟩, fun _ hd => hd⟩)
    (fun _ _ _ hr hr' => ⟨hr.rivals.trans hr'.rivals, fun _ hd => hr'.seen _ (hr.seen _ hd)⟩)
    (fun _ _ _ hq hr => hq.imp (fun _ hy => ⟨hy.1, hr.answers hy.2⟩)) (fun _ _ => trivial)
    (fun d _ _ hd _ hs hm => ⟨⟨contract_valid.rely_step (reachable_holds (hall hd)) trivial hs hm,
      fun _ => told_other hs hm⟩, step_seen hs⟩) h₁ hended
  have hafter : (service lim).Reach (fun _ _ => True) d c :=
    (Sys.Reach.init.step trivial hexit).trans hthen
  refine ⟨y, hy, hq.mono (reach_grows (hall hd) hafter) (reach_seen hafter) ?_⟩
  intro ws hws
  have hnone : d'.threads t = none ∧ t < d'.next ∧
      ((t, .committed ws) ∈ d'.shared.trace → (t, .committed ws) ∈ d.shared.trace) := by
    cases hexit with
    | exit hu _ =>
      refine ⟨Function.update_self _ _ _, ((reachable_holds (hall hd)).running _ _ hu).1, ?_⟩
      intro hm
      rcases List.mem_cons.mp hm with he | hm
      · cases he
      · exact hm
  exact hnone.2.2 ((idle_told hnone.1 hnone.2.1 hthen).2.2 hws)

/-- A creation whose publisher fails after the commit. -/
def brokenRun : Schedule :=
  [.start (.create (sampleCommand (uid 1))), .run 0 .ok, .run 0 (.uuid (uid 10))] ++
    stamps 0 (uid 11) ++ oks 0 7 ++ [.run 0 (.fault .amqp), .exit 0]

omit [Externals] in
set_option maxRecDepth 20000 in
theorem brokenRun_some : (after {} brokenRun).isSome = true := by decide +kernel

/-- The payment is committed, and the client was told that the publisher is unavailable. -/
def broken : Config World Op Op.Res Exc Reply :=
  (after {} brokenRun).get brokenRun_some

omit [Externals] in
set_option maxRecDepth 20000 in
theorem broken_ends :
    broken.shared.trace.any (fun d => d.1 = 0 && d.2 matches .created _) = true ∧
      broken.shared.trace.any (fun d => d.1 = 0 &&
        d.2 matches .ended (.error (.publisherUnavailable _ _))) = true := by decide +kernel

omit [Externals] in
theorem creation_answered_unpublished : @Reachable sample {} broken ∧
    ∃ command message cause, (0, .created command) ∈ broken.shared.trace ∧
      (0, .ended (.error (.publisherUnavailable message cause))) ∈ broken.shared.trace ∧
      ∃ r ∈ broken.shared.db.payments.rows, r.idempotencyKey = command.key := by
  have hr : @Reachable sample {} broken := reachable_after brokenRun_some
  obtain ⟨⟨t, o⟩, hc, hd⟩ := List.any_eq_true.mp broken_ends.1
  obtain ⟨⟨u, o'⟩, hx, hd'⟩ := List.any_eq_true.mp broken_ends.2
  obtain ⟨ht, ho⟩ := Bool.and_eq_true_iff.mp hd
  obtain ⟨hu, ho'⟩ := Bool.and_eq_true_iff.mp hd'
  obtain rfl : t = 0 := of_decide_eq_true ht
  obtain rfl : u = 0 := of_decide_eq_true hu
  simp only at ho ho'
  split at ho
  · rename_i command
    split at ho'
    · rename_i message cause
      obtain ⟨y, hy, ha⟩ := @creation_answered sample _ _ _ _ _ hr hc hx
      refine ⟨hr, command, message, cause, hc, hx, ?_⟩
      cases ha with
      | responds => cases hy
      | unpublished h =>
        obtain ⟨r, hr, he⟩ := h.kept
        exact ⟨r, hr, he.1 ▸ h.key⟩
      | taken => cases hy
      | rejected he =>
        cases hy
        cases he
      | outage he =>
        cases hy
        cases he
    · cases ho'
  · cases ho

end

end Payments
