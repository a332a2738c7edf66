import Payments.Proofs.Footprint
import Payments.Proofs.Json
import Payments.Proofs.Rules

namespace Payments

open Lib

section

variable [Externals] {lim : Limits} {t : Tid} {w : World} {F : World → Prop} {ws : List Write}

/-- The message of the event is that of a stored row of its class. -/
def PaymentEvent.Announced (e : PaymentEvent) (db : Db) : Prop :=
  ∃ o ∈ db.outbox.rows, parseEventToMessage e = .ok o.body ∧ o.queue = e.cls.queue

omit [Externals] in
theorem PaymentEvent.Announced.grows {e : PaymentEvent} {db db' : Db} (h : e.Announced db)
    (hg : db.Grows db') : e.Announced db' := by
  obtain ⟨o, ho, hp, hq⟩ := h
  obtain ⟨o', ho', he⟩ := hg.event o ho
  exact ⟨o', ho', hp.trans (congrArg _ he.same.2.2.2.symm), he.same.2.1.trans hq⟩

omit [Externals] in
theorem queueRegistry_key {cls : EventClass} {q : RabbitQueue}
    (h : EventBus.queueRegistry cls = some q) : cls.queue = "payments." ++ q.routingKey := by
  cases cls <;> cases h <;> decide

omit [Externals] in
/-- What is published under the key of a class reaches the handler of the class only. -/
theorem carries_route {db : Db} {o : OutboxRow} (ho : o ∈ db.outbox.rows) {m : Message}
    (hm : m.body = o.body) {key : String} (hq : o.queue = "payments." ++ key) :
    ∀ q ∈ route lim paymentsExchange key, Carries db q m := by
  intro q hr
  obtain ⟨hb, hk⟩ := route_payments hr
  obtain ⟨ht, hret⟩ := base_topic hb
  exact ⟨hret, o, ho, hm, .inr (by rw [hq, ht, hk])⟩

theorem meets_publish_event {e : PaymentEvent} {P : World → Prop} (hs : Stable t P) (hP : P w)
    (he : e.Announced w.db) :
    Meets lim t (EventBus.publishPaymentEvent e) (fun _ => P) w := by
  unfold EventBus.publishPaymentEvent
  cases hq : EventBus.queueRegistry e.cls with
  | none => exact hP
  | some q =>
    obtain ⟨o, ho, hp, hc⟩ := he
    simp only [hp]
    have hstable : Stable t (fun w => P w ∧ e.Announced w.db) := fun w w' h hr =>
      ⟨hs w w' h.1 hr, h.2.grows hr.grows⟩
    refine meets_handle (fun _ => P) (meets_op _ ⟨hP, o, ho, hp, hc⟩ hstable ?_)
      (fun _ _ h => h) (fun _ _ h => h)
    rintro w₁ ⟨hP₁, o₁, ho₁, hp₁, hc₁⟩ _
    have hb : o.body = o₁.body := Except.ok.inj (hp.symm.trans hp₁)
    refine ⟨⟨⟨o₁, ho₁, hb⟩, carries_route ho₁ hb (hc₁.trans (queueRegistry_key hq))⟩, ?_⟩
    intro ch r w₂ hd
    cases hd with
    | fault => exact hP₁
    | lostPublish => exact hs _ _ hP₁ .accept
    | publish => exact hs _ _ hP₁ .accept

theorem meets_publish {P : World → Prop} (hs : Stable t P) {events : List PaymentEvent}
    (hP : P w) (he : ∀ e ∈ events, e.Announced w.db) :
    Meets lim t (EventBus.publishPaymentEvents events) (fun _ => P) w := by
  induction events generalizing w with
  | nil => exact hP
  | cons e events ih =>
    have hstable : Stable t (fun w => P w ∧ ∀ e ∈ events, e.Announced w.db) := fun w w' h hr =>
      ⟨hs w w' h.1 hr, fun e he => (h.2 e he).grows hr.grows⟩
    exact meets_bind _ (meets_publish_event hstable
      ⟨hP, fun e' he' => he e' (List.mem_cons_of_mem _ he')⟩ (he e List.mem_cons_self))
      (fun _ _ h => ih h.1 h.2) (fun _ _ h => h.1)

omit [Externals] in
/-- Storing one event is an `INSERT` of its row and a flush. -/
theorem add_event_eq {e : PaymentEvent} {o : OutboxRow} (hst : e.StoredAs o) :
    ∃ s : SerializedEvent, s.toRow = .ok o ∧ OutboxRepository.add [e] =
      (perform (.insertOutbox [s])).bind (fun _ => perform .flush) := by
  obtain ⟨s, hs, hr⟩ := except_bind_ok.mp hst
  have hm : [e].mapM (fun e => serializeEvent e false) = .ok [s] := by
    simp [List.mapM_cons, hs, bind, Except.bind, pure, Except.pure]
  refine ⟨s, hr, ?_⟩
  simp only [OutboxRepository.add, List.isEmpty_cons, Bool.false_eq_true, ↓reduceIte, Prog.bind_eq,
    hm, Prog.ofExcept_ok_bind]

omit [Externals] in
/-- The `INSERT` of a row whose key is new fails, or it adds the row to the open transaction. -/
theorem insert_one {s : SerializedEvent} {o : OutboxRow} {ch : Choice} {r : Except Exc Unit}
    {w' : World} (hd : World.Does lim t w (.insertOutbox [s]) ch r w') (hs : s.toRow = .ok o)
    (hn : (w.view t).outbox.find? o.id = none) :
    (∃ e, ch = .fault e ∧ Op.Raises e (.insertOutbox [s]) = true ∧ r = .error e ∧ w' = w) ∨
      (r = .ok () ∧ w' = w.write t [.insertOutbox o] ∧
        ∀ x ∈ [Write.insertOutbox o], ∀ res ∈ x.resources, w.Free t res) := by
  have hrow : [s].mapM SerializedEvent.toRow = .ok [o] := by
    simp [List.mapM_cons, hs, bind, Except.bind, pure, Except.pure]
  cases hd with
  | fault he => exact .inl ⟨_, rfl, he, rfl, rfl⟩
  | refuseOutbox hv => cases hrow.symm.trans hv
  | insertOutbox hv hf =>
    cases hrow.symm.trans hv
    have hfresh : [o].filter (fun o => ((w.view t).outbox.find? o.id).isNone) = [o] := by
      simp [hn]
    rw [hfresh] at hf ⊢
    refine .inr ⟨rfl, rfl, fun x hx res hres => ?_⟩
    obtain rfl := List.mem_singleton.mp hx
    obtain rfl := List.mem_singleton.mp hres
    exact hf o List.mem_cons_self

/-- Storing one event adds its row to the open transaction. -/
theorem meets_add_event {e : PaymentEvent} {o : OutboxRow} (hst : e.StoredAs o)
    (hw : ∀ db : Db, (db.applyAll ws).outbox = db.outbox) (hF : Firm t F)
    (hd : ∀ w, F w → Drawn t o.id w) (h : During t ws F w) :
    Meets lim t (OutboxRepository.add [e])
      (fun r w => r = .ok () → During t (ws ++ [.insertOutbox o]) F w) w := by
  obtain ⟨s, hr, heq⟩ := add_event_eq hst
  rw [heq]
  refine meets_bind (fun r w => r = .ok () → During t (ws ++ [.insertOutbox o]) F w)
    (meets_op _ h (hF.during ws) ?_) ?_ ?_
  · intro w₁ hw₁ _
    refine ⟨?_, fun ch r w₂ hdoes => ?_⟩
    · intro s' hs' o' ho'
      cases List.mem_singleton.mp hs'
      cases hr.symm.trans ho'
      exact (hd w₁ hw₁.2).1
    · have hn : (w₁.view t).outbox.find? o.id = none := by
        rw [World.view, hw₁.1, hw]
        exact (hd w₁ hw₁.2).2.2
      rcases insert_one hdoes hr hn with ⟨_, _, _, rfl, _⟩ | ⟨rfl, rfl, hf⟩
      · exact fun he => by cases he
      · exact fun _ => ⟨by simp [hw₁.1], hF _ _ hw₁.2 (.write hf)⟩
  · intro _ w hw'
    exact wp_mono (meets_reads ((Prog.only_perform _).mpr trivial) (hw' rfl) (hF.during _))
      (fun _ _ h _ => h)
  · exact fun _ _ _ he => by cases he

/-- A commit that returns has applied the changes of the transaction. -/
theorem meets_commit (G : Db → Prop) (hF : Firm t F)
    (hc : ∀ w : World, w.Inv → F w → w.db.Change ws) (hG : ∀ w, F w → G (w.db.applyAll ws))
    (h : During t ws F w) :
    Meets lim t Uow.commit (fun r w => r = .ok () → G w.db) w := by
  refine meets_handle (fun r w => r = .ok () → G w.db) (meets_op _ h (hF.during ws) ?_)
    (fun _ _ h => h) ?_
  · intro w₁ hw₁ hi
    refine ⟨?_, fun ch r w₂ hd => ?_⟩
    · change w₁.db.Change (w₁.pend t)
      rw [hw₁.1]
      exact hc w₁ hi hw₁.2
    · cases hd with
      | fault => exact fun he => by cases he
      | lostCommit => exact fun he => by cases he
      | commit =>
        intro _
        rw [World.commit_db, World.view, hw₁.1]
        exact hG w₁ hw₁.2
  · have hroll : (perform .rollback).Only Op.Plain := (Prog.only_perform _).mpr trivial
    intro e w _
    split
    · exact meets_bind (fun _ _ => True) (meets_plain hroll) (fun _ _ _ he => by cases he)
        (fun _ _ _ he => by cases he)
    · exact meets_bind (fun _ _ => True) (meets_plain hroll) (fun _ _ _ he => by cases he)
        (fun _ _ _ he => by cases he)
    · exact fun he => by cases he

end

/-- The row of a payment that was just created. -/
structure PaymentRow.New (row : PaymentRow) : Prop where
  status : row.status = .pending
  processedAt : row.processedAt = none
  amount : ∃ neg coeff exp, row.amount = .finite neg coeff exp

theorem toRow_new {p : Payment} {row : PaymentRow}
    (h : (PaymentRepository.values p).toRow = .ok row) (hs : p.status = .pending)
    (ha : ∃ neg coeff exp, p.amount.value = .finite neg coeff exp) : row.New := by
  obtain ⟨neg, coeff, exp, ha⟩ := ha
  unfold PaymentValues.toRow at h
  split at h
  · rename_i amount _ hn
    cases h
    refine ⟨hs, rfl, ?_⟩
    simp only [PaymentRepository.values, ha, storeNumeric] at hn
    split at hn
    · cases hn
      exact ⟨_, _, _, rfl⟩
    · cases hn
  · cases h
  · cases h

/-- The metadata of a payment are stored as an object. -/
theorem toRow_metadata {p : Payment} {row : PaymentRow}
    (h : (PaymentRepository.values p).toRow = .ok row) (hm : ∃ items, p.metadata.value = .proxy items) :
    ∃ items, row.metadata = .obj items := by
  obtain ⟨items, hm⟩ := hm
  unfold PaymentValues.toRow at h
  split at h
  · rename_i metadata _ hd _
    cases h
    simp only [PaymentRepository.values, Metadata.asDict, hm] at hd
    obtain ⟨js, _, rfl⟩ := except_map_ok.mp (store_json_ok.mp hd).1
    exact ⟨js, rfl⟩
  · cases h
  · cases h

theorem metadata_new_proxy {v : PyVal} {metadata : Metadata} (h : Metadata.new v = .ok metadata) :
    ∃ items, metadata.value = .proxy items := by
  unfold Metadata.new at h
  split at h
  · split at h
    · cases h
      exact ⟨_, rfl⟩
    · cases h
  · split at h
    · cases h
      exact ⟨_, rfl⟩
    · cases h
  · cases h

theorem amount_new_finite {a : Decimal} {amount : Amount} (h : Amount.new a = .ok amount) :
    ∃ neg coeff exp, amount.value = .finite neg coeff exp := by
  unfold Amount.new at h
  split at h
  · split at h
    · cases h
    · split at h
      · cases h
      · cases h
        exact ⟨_, _, _, rfl⟩
  · cases h
  · cases h
  · cases h

section

variable [Externals] {lim : Limits} {t : Tid} {w : World}

/-- What the session of a creation knows after the insert of the row. -/
def Opened (t : Tid) (row : PaymentRow) (eventId : UUID) (w : World) : Prop :=
  Reserves t row.idempotencyKey w ∧ Drawn t row.id w ∧ Drawn t eventId w

omit [Externals] in
theorem firm_opened (row : PaymentRow) (eventId : UUID) : Firm t (Opened t row eventId) :=
  (firm_reserves _).and ((firm_drawn _).and (firm_drawn _))

/-- What `uuid4` answers is drawn by the thread and no row has it. -/
theorem meets_uuid4 {F : World → Prop} {ws : List Write} (hF : Firm t F) (h : During t ws F w) :
    Meets lim t (perform .uuid4)
      (fun r w => ∀ u, r = .ok u → During t ws (fun w => F w ∧ Drawn t u w) w) w := by
  refine meets_op _ h (hF.during ws) (fun w₁ hw₁ _ => ⟨trivial, fun ch r w₂ hd => ?_⟩)
  cases hd with
  | fault => exact fun u he => by cases he
  | uuid4 hu =>
    intro u he
    cases he
    exact ⟨hw₁.1, hF _ _ hw₁.2 (World.Rely.draw hu).toKeeps, by simp, hu.2.2⟩

/-- A read before more of the transaction. -/
theorem meets_read {F : World → Prop} {ws : List Write} {op : Op} (ho : op.Reads) (hF : Firm t F)
    (h : During t ws F w) : Meets lim t (perform op) (fun _ => During t ws F) w :=
  meets_reads ((Prog.only_perform op).mpr ho) h (hF.during ws)

omit [Externals] in
theorem reads_getByKey (key : IdempotencyKey) :
    (PaymentRepository.getByKey key).Only Op.Reads := by
  refine Prog.Only.bind ((Prog.only_perform _).mpr trivial) (fun row => ?_)
  cases row with
  | none => trivial
  | some row => exact Prog.Only.bind (Prog.only_ofExcept _) (fun _ => trivial)

theorem meets_add {p : Payment} {eventId : UUID}
    (h : During t [] (fun w => Drawn t p.id.value w ∧ Drawn t eventId w) w) :
    Meets lim t (PaymentRepository.add p)
      (fun r w => r = .ok () → ∃ row, (PaymentRepository.values p).toRow = .ok row ∧
        During t [.insertPayment row] (Opened t row eventId) w) w := by
  have hF : Firm t (fun w => Drawn t p.id.value w ∧ Drawn t eventId w) :=
    (firm_drawn _).and (firm_drawn _)
  refine meets_bind _ (meets_read trivial hF h) ?_ (fun _ _ _ he => by cases he)
  intro existing w h
  cases existing with
  | some _ => exact fun he => by cases he
  | none =>
    refine meets_bind (fun r w => r = .ok () →
      ∃ row, (PaymentRepository.values p).toRow = .ok row ∧
        During t [.insertPayment row] (Opened t row eventId) w)
      (meets_op _ h (hF.during []) ?_) ?_ (fun _ _ _ he => by cases he)
    · intro w₁ hw₁ _
      refine ⟨hw₁.2.1.1, fun ch r w₂ hd => ?_⟩
      cases hd with
      | fault => exact fun he => by cases he
      | refusePayment => exact fun he => by cases he
      | conflict => exact fun he => by cases he
      | @insertPayment _ row hv hn hf =>
        intro _
        have hfree : ∀ x ∈ [Write.insertPayment row], ∀ r ∈ x.resources, w₁.Free t r := by
          simpa using hf
        obtain ⟨hd₁, hd₂⟩ := hF _ _ hw₁.2 (.write hfree)
        refine ⟨row, hv, by simp [hw₁.1], ⟨?_, fun r hr => ?_⟩, ?_, hd₂⟩
        · simp [World.write_lock, World.hold_lock, Write.resources]
        · have hview : r ∈ (w₁.view t).payments.rows := by
            rw [World.view_nil hw₁.1]
            exact hr
          exact (hn r hview).2
        · rw [(World.toRow_id hv).1]
          exact hd₁
    · intro _ w hw
      obtain ⟨row, hv, hd⟩ := hw rfl
      exact wp_mono (meets_read trivial (firm_opened row eventId) hd)
        (fun _ _ h _ => ⟨row, hv, h⟩)

/-- A payment as it is created from the value objects of a command. -/
def PaymentParts.payment (parts : PaymentParts) (id : UUID) (createdAt : DateTime)
    (eventId : UUID) (occurredAt : DateTime) : Payment where
  id := { value := id }
  amount := parts.amount
  currency := parts.currency
  description := parts.description
  metadata := parts.metadata
  key := parts.key
  webhookUrl := parts.webhookUrl
  createdAt := Timestamp.new createdAt
  events := [createdEvent id eventId occurredAt]

/-- The row of the payment that a creation reports in its response. -/
def PaymentRow.Stores (row : PaymentRow) (command : CreatePaymentCommand)
    (response : CreatePaymentResponse) : Prop :=
  ∃ parts id createdAt eventId occurredAt, command.parts = .ok parts ∧
    (PaymentRepository.values (parts.payment id createdAt eventId occurredAt)).toRow = .ok row ∧
    response = CreatePaymentResponse.fromDomain (parts.payment id createdAt eventId occurredAt)

/-- The payment that a response reports is committed, and has evolved only as it may. -/
def CreatePaymentResponse.Kept (response : CreatePaymentResponse) (command : CreatePaymentCommand)
    (db : Db) : Prop :=
  ∃ row : PaymentRow, row.Stores command response ∧ ∃ row' ∈ db.payments.rows, row.Evolves row'

theorem CreatePaymentResponse.Kept.grows {response : CreatePaymentResponse}
    {command : CreatePaymentCommand} {db db' : Db} (h : response.Kept command db)
    (hg : db.Grows db') : response.Kept command db' := by
  obtain ⟨row, hst, row', hr, hev⟩ := h
  obtain ⟨row'', hr', hev'⟩ := hg.payment row' hr
  exact ⟨row, hst, row'', hr', hev.trans hev'⟩

def Registered (x : Payment × List PaymentEvent) (command : CreatePaymentCommand) (db : Db) :
    Prop :=
  (∀ e ∈ x.2, e.Announced db) ∧ (CreatePaymentResponse.fromDomain x.1).Kept command db

/-- A created payment has its row inserted and its event recorded. -/
theorem meets_service_create (parts : PaymentParts) (h : w.pend t = []) :
    Meets lim t (PaymentService.create parts.amount parts.currency parts.description
      parts.metadata parts.key parts.webhookUrl)
      (fun r w => ∀ p, r = .ok p → ∃ row createdAt eventId occurredAt,
        p = parts.payment row.id createdAt eventId occurredAt ∧
        (PaymentRepository.values p).toRow = .ok row ∧
        During t [.insertPayment row] (Opened t row eventId) w) w := by
  have htrue : Firm t (fun _ => True) := .const True
  refine meets_bind _ (meets_reads (reads_getByKey parts.key) ⟨h, trivial⟩ (htrue.during [])) ?_
    (fun _ _ _ _ he => by cases he)
  intro existing w h
  cases existing with
  | some _ => exact fun _ he => by cases he
  | none =>
    refine meets_bind _ (meets_uuid4 htrue h) ?_ (fun _ _ _ _ he => by cases he)
    intro id w h
    have hF := htrue.and (firm_drawn (t := t) id)
    refine meets_bind _ (meets_read trivial hF (h id rfl)) ?_ (fun _ _ _ _ he => by cases he)
    intro createdAt w h
    refine meets_bind _ (meets_uuid4 hF h) ?_ (fun _ _ _ _ he => by cases he)
    intro eventId w h
    refine meets_bind _ (meets_read trivial (hF.and (firm_drawn _)) (h eventId rfl)) ?_
      (fun _ _ _ _ he => by cases he)
    intro occurredAt w h
    simp only [Payment.postInit, Payment.recordEvent, Prog.ofExcept, Prog.bind_eq, Prog.bind,
      ne_eq, not_true_eq_false, false_and, Bool.false_eq_true, ↓reduceIte]
    refine meets_bind _ (meets_add ⟨h.1, h.2.1.2, h.2.2⟩) ?_
      (fun _ _ _ _ he => by cases he)
    intro _ w h p he
    cases he
    obtain ⟨row, hv, hd⟩ := h rfl
    refine ⟨row, createdAt, eventId, occurredAt, ?_, hv, hd⟩
    rw [(World.toRow_id hv).1]
    rfl

theorem meets_create_payment (command : CreatePaymentCommand) (h : w.pend t = []) :
    Meets lim t (createPayment command)
      (fun r w => ∀ response, r = .ok response → response.Kept command w.db) w := by
  simp only [createPayment, Prog.bind_eq, Prog.pure_eq]
  cases hp : command.parts with
  | error e => exact fun _ he => by cases he
  | ok parts =>
    obtain ⟨ham, _, hmeta, _⟩ := parts_ok hp
    rw [Prog.ofExcept_ok_bind]
    have hgrows : ∀ (x : Payment × List PaymentEvent) db db', Registered x command db →
        db.Grows db' → Registered x command db' :=
      fun x _ _ hx hg => ⟨fun e he => (hx.1 e he).grows hg, hx.2.grows hg⟩
    refine meets_bind _ (meets_within _ hgrows ?_) ?_ (fun _ _ _ _ he => by cases he)
    · refine meets_bind _ (meets_service_create parts h) ?_ (fun _ _ _ _ he => by cases he)
      intro p w hw
      obtain ⟨row, createdAt, eventId, occurredAt, rfl, hv, hd⟩ := hw p rfl
      have hnew := toRow_new hv rfl (amount_new_finite ham)
      have hst := created_stored row.id eventId occurredAt
      simp only [Payment.pullEvents, PaymentParts.payment]
      refine meets_bind _ (meets_add_event hst (fun _ => rfl) (firm_opened row eventId)
        (fun _ hw => hw.2.2) hd) ?_ (fun _ _ _ _ he => by cases he)
      intro _ w hw
      refine meets_bind _ (meets_commit
        (fun db => (∀ e ∈ [createdEvent row.id eventId occurredAt], e.Announced db) ∧
          row ∈ db.payments.rows)
        (firm_opened row eventId)
        (fun w hi hF => .create row _ hF.2.1.2.1 hF.1.2 hF.2.2.2.2 hnew.status hnew.processedAt
          hnew.amount (toRow_metadata hv (metadata_new_proxy hmeta)) (hi.version _ _ hF.2.1.1)
          ⟨rfl, rfl⟩ rfl)
        (fun w hF => ⟨fun e he => ?_, ?_⟩) (hw rfl)) ?_ (fun _ _ _ _ he => by cases he)
      · cases List.mem_singleton.mp he
        exact ⟨_, (Db.mem_outbox_create hF.2.2.2.2).mpr (.inr rfl),
          created_published _ _ _ hst, rfl⟩
      · exact (Db.mem_payments_create hF.2.1.2.1).mpr (.inr rfl)
      · intro _ w hG x he
        cases he
        obtain ⟨hann, hmem⟩ := hG rfl
        exact ⟨hann, row, ⟨parts, row.id, createdAt, eventId, occurredAt, hp, hv, rfl⟩, row, hmem,
          .refl row⟩
    · intro x w hw
      obtain ⟨hann, hkept⟩ := hw.2 x rfl
      have hs : Stable t (fun w => (CreatePaymentResponse.fromDomain x.1).Kept command w.db) :=
        fun _ _ h hr => h.grows hr.grows
      refine meets_bind _ (meets_publish hs hkept hann) (fun _ w hkept => ?_)
        (fun _ _ _ _ he => by cases he)
      refine (wp_ret _).mpr (fun response he => ?_)
      obtain rfl : CreatePaymentResponse.fromDomain x.1 = response := Except.ok.inj he
      exact hkept

end

/-- What `_to_domain` makes of a row. -/
theorem toDomain_ok {row : PaymentRow} {p : Payment}
    (h : PaymentRepository.toDomain row = .ok p) :
    p.id.value = row.id ∧ p.amount.value = row.amount ∧ p.currency = row.currency ∧
      p.webhookUrl.value = row.webhookUrl ∧ p.status = row.status ∧ p.events = [] := by
  obtain ⟨metadata, _, h⟩ := except_bind_ok.mp h
  cases h
  exact ⟨rfl, rfl, rfl, rfl, rfl, rfl⟩

/-- A row with metadata that are an object can be loaded. -/
theorem toDomain_obj {row : PaymentRow} (h : ∃ items, row.metadata = .obj items) :
    ∃ p, PaymentRepository.toDomain row = .ok p := by
  obtain ⟨items, hm⟩ := h
  simp [PaymentRepository.toDomain, hm, Json.toPy, Metadata.rebuild, bind, Except.bind]

/-- The loaded payment `p` of a pending row after the gateway has answered. -/
structure Settled (row : PaymentRow) (p : Payment) (status : PaymentStatus) (now : DateTime)
    (eventId : UUID) (occurredAt : DateTime) (reason : Option String) : Prop where
  wasPending : row.status = .pending
  isSettled : status ≠ .pending
  sameId : p.id.value = row.id
  newStatus : p.status = status
  stamped : p.processedAt = some (Timestamp.new now)
  recorded : p.events = [processedEvent (Db.settleRow status now row) eventId occurredAt reason]

theorem settled_of_settle {row : PaymentRow} {p p' : Payment} {status : PaymentStatus}
    {reason : Option String} {st : Stamp} (hd : PaymentRepository.toDomain row = .ok p)
    (hs : status ≠ .pending) (h : p.settle status (reasonPy reason) st = .ok p') :
    Settled row p' status st.now st.eventId st.occurredAt reason := by
  obtain ⟨hid, ha, hc, hu, hst, hev⟩ := toDomain_ok hd
  obtain ⟨hp, rfl⟩ := Payment.settle_ok h
  refine ⟨hst ▸ hp, hs, hid, rfl, rfl, ?_⟩
  simp [hid, ha, hc, hu, hev, processedEvent, Db.settleRow]

/-- The events report how the payment that an event names was settled, and both the payment and
the report are committed. -/
def PaymentEvent.Outcome (event : PaymentEvent) (events : List PaymentEvent) (db : Db) : Prop :=
  ∃ id row eventId occurredAt reason, PaymentID.new (event.attr "payment_id") = .ok id ∧
    row.id = id.value ∧ row ∈ db.payments.rows ∧ row.status ≠ .pending ∧
    events = [processedEvent row eventId occurredAt reason] ∧ ∃ o ∈ db.outbox.rows,
      row.Processed o ∧
        parseEventToMessage (processedEvent row eventId occurredAt reason) = .ok o.body

section

variable [Externals] {lim : Limits} {t : Tid} {w : World}

theorem meets_getById (id : PaymentID) (h : w.pend t = []) :
    Meets lim t (PaymentRepository.getById id)
      (fun r w => ∀ p, r = .ok p → ∃ row, PaymentRepository.toDomain row = .ok p ∧
        row.id = id.value ∧ During t [] (Holds t row) w) w := by
  have htrue : Firm t (fun _ => True) := .const True
  refine meets_bind (fun r w => ∀ row, r = .ok (some row) →
      row.id = id.value ∧ During t [] (Holds t row) w)
    (meets_op _ ⟨h, trivial⟩ (htrue.during []) (fun w₁ hw₁ _ => ⟨trivial, fun ch r w₂ hd => ?_⟩))
    ?_ (fun _ _ _ _ he => by cases he)
  · cases hd with
    | fault => exact fun _ he => by cases he
    | skipPayment => exact fun _ he => by cases he
    | lockPayment hr hid hf =>
      intro row he
      cases he
      rw [World.view_nil hw₁.1] at hr
      exact ⟨hid, hw₁.1, by simp, hr⟩
  · intro row w hw
    cases row with
    | none => exact fun _ he => by cases he
    | some row => exact (wp_ofExcept _).mpr (fun p hp => ⟨row, hp, hw row rfl⟩)

theorem meets_emulate {row : PaymentRow} {p : Payment}
    (hd : PaymentRepository.toDomain row = .ok p) (h : During t [] (Holds t row) w) :
    Meets lim t (emulateProcessing p)
      (fun r w => ∀ p', r = .ok p' → ∃ status now eventId occurredAt reason,
        Settled row p' status now eventId occurredAt reason ∧
        During t [] (fun w => Holds t row w ∧ Drawn t eventId w) w) w := by
  have hF := firm_holds (t := t) row
  refine meets_bind _ (meets_read trivial hF h) ?_ (fun _ _ _ _ he => by cases he)
  intro success w h
  cases he : p.ensurePending with
  | error e => exact fun _ he => by cases he
  | ok _ =>
    simp only [Prog.bind_eq, Prog.ofExcept_ok_bind]
    refine meets_bind _ (meets_read trivial hF h) ?_ (fun _ _ _ _ he => by cases he)
    intro now w h
    refine meets_bind _ (meets_uuid4 hF h) ?_ (fun _ _ _ _ he => by cases he)
    intro eventId w h
    refine meets_bind _ (meets_read trivial (hF.and (firm_drawn _)) (h eventId rfl)) ?_
      (fun _ _ _ _ he => by cases he)
    intro occurredAt w h
    refine (wp_ofExcept _).mpr (fun p' hp' => ?_)
    cases success with
    | true =>
      have hok : p.settle .confirmed (reasonPy none) ⟨eventId, occurredAt, now⟩ = .ok p' := hp'
      exact ⟨.confirmed, now, eventId, occurredAt, none,
        settled_of_settle hd (by decide) hok, h⟩
    | false =>
      have hok : p.settle .failed (reasonPy (some "simulated error")) ⟨eventId, occurredAt, now⟩ =
        .ok p' := hp'
      exact ⟨.failed, now, eventId, occurredAt, some "simulated error",
        settled_of_settle hd (by decide) hok, h⟩

theorem meets_update {row : PaymentRow} {p : Payment} {status : PaymentStatus} {now : DateTime}
    {eventId : UUID} {occurredAt : DateTime} {reason : Option String} {F : World → Prop}
    (hF : Firm t F) (hs : Settled row p status now eventId occurredAt reason)
    (h : During t [] F w) :
    Meets lim t (PaymentRepository.update p)
      (fun r w => r = .ok () → During t [.updatePayment row.id status now] F w) w := by
  simp only [PaymentRepository.update, hs.stamped, Timestamp.new]
  refine meets_bind (fun r w => ∀ id, r = .ok (some id) →
      During t [.updatePayment row.id status now] F w)
    (meets_op _ h (hF.during []) (fun w₁ hw₁ _ => ⟨trivial, fun ch r w₂ hd => ?_⟩)) ?_
    (fun _ _ _ he => by cases he)
  · cases hd with
    | fault => exact fun _ he => by cases he
    | missPayment => exact fun _ he => by cases he
    | updatePayment hr hf =>
      exact fun _ _ => ⟨by simp [hw₁.1, hs.sameId, hs.newStatus],
        hF _ _ hw₁.2 (.write (by simpa [Write.resources] using hf))⟩
  · intro result w hw
    have hread : (perform .flush).Only Op.Reads := (Prog.only_perform _).mpr trivial
    cases result with
    | none =>
      refine meets_bind (fun _ _ => True) (wp_mono (meets_reads hread trivial
        (fun _ _ _ _ => trivial)) (fun _ _ h => h)) (fun _ _ _ he => by cases he)
        (fun _ _ _ he => by cases he)
    | some id =>
      exact meets_bind _ (meets_reads hread (hw id rfl) (hF.during _)) (fun _ _ h _ => h)
        (fun _ _ _ he => by cases he)

omit [Externals] in
theorem PaymentEvent.Outcome.announced {event : PaymentEvent} {events : List PaymentEvent} {db : Db}
    (h : event.Outcome events db) : ∀ e ∈ events, e.Announced db := by
  obtain ⟨id, row, eventId, occurredAt, reason, _, _, _, _, rfl, o, ho, hp, hm⟩ := h
  intro e he
  cases List.mem_singleton.mp he
  exact ⟨o, ho, hm, hp.1⟩

omit [Externals] in
theorem PaymentEvent.Outcome.grows {event : PaymentEvent} {events : List PaymentEvent} {db db' : Db}
    (h : event.Outcome events db) (hg : db.Grows db') : event.Outcome events db' := by
  obtain ⟨id, row, eventId, occurredAt, reason, hid, hrow, hr, hs, hev, o, ho, hp, hm⟩ := h
  obtain ⟨o', ho', he⟩ := hg.event o ho
  obtain ⟨_, hq, hpay, hb⟩ := he.same
  exact ⟨id, row, eventId, occurredAt, reason, hid, hrow, hg.settled hr hs, hs, hev, o', ho',
    ⟨hq.trans hp.1, hpay.symm ▸ hp.2⟩, hm.trans (congrArg _ hb.symm)⟩

/-- The unit of work of a processing returns the event that reports how it has settled the
payment, in tables where both are committed. -/
theorem meets_settlement (event : PaymentEvent) (h : w.pend t = []) :
    Meets lim t (Uow.within (settlement event))
      (fun r w => w.pend t = [] ∧ ∀ events, r = .ok events → event.Outcome events w.db) w := by
  simp only [settlement, Prog.bind_eq, Prog.pure_eq]
  refine meets_within event.Outcome (fun _ _ _ hx hg => hx.grows hg) ?_
  cases hpid : PaymentID.new (event.attr "payment_id") with
  | error e => exact fun _ he => by cases he
  | ok id =>
    rw [Prog.ofExcept_ok_bind]
    refine meets_bind _ (meets_getById id h) ?_ (fun _ _ _ _ he => by cases he)
    intro p w hp
    obtain ⟨row, hd, hrow, h⟩ := hp p rfl
    refine meets_bind _ (meets_emulate hd h) ?_ (fun _ _ _ _ he => by cases he)
    intro p' w hp'
    obtain ⟨status, now, eventId, occurredAt, reason, hset, h⟩ := hp' p' rfl
    have hF := (firm_holds (t := t) row).and (firm_drawn eventId)
    have hst := processed_stored (Db.settleRow status now row) eventId occurredAt reason
    refine meets_bind (fun r w => ∀ q, r = .ok q → q = p' ∧
      During t [.updatePayment row.id status now] (fun w => Holds t row w ∧ Drawn t eventId w) w)
      (meets_bind _ (meets_update hF hset h) (fun _ _ hw _ he => by cases he; exact ⟨rfl, hw rfl⟩)
        (fun _ _ _ _ he => by cases he)) ?_ (fun _ _ _ _ he => by cases he)
    intro q w hq
    obtain ⟨rfl, h⟩ := hq q rfl
    simp only [Payment.pullEvents, hset.recorded]
    refine meets_bind _ (meets_add_event hst (fun _ => rfl) hF (fun _ hw => hw.2) h) ?_
      (fun _ _ _ _ he => by cases he)
    intro _ w hw
    refine meets_bind _ (meets_commit (event.Outcome [processedEvent
        (Db.settleRow status now row) eventId occurredAt reason]) hF
      (fun w _ hF => .settle row status now _ hF.1.2 hset.wasPending hset.isSettled hF.2.2.2
        ⟨rfl, reason, rfl⟩ rfl) (fun w hF => ?_) (hw rfl)) ?_ (fun _ _ _ _ he => by cases he)
    · refine ⟨id, Db.settleRow status now row, eventId, occurredAt, reason, hpid, hrow,
        (Db.mem_payments_settle hF.1.2).mpr (.inr rfl), hset.isSettled, rfl, _,
        (Db.mem_outbox_settle hF.2.2.2).mpr (.inr rfl), ⟨rfl, reason, rfl⟩,
        processed_published _ _ _ _ hst⟩
    · intro _ w hG events he
      cases he
      exact hG rfl

theorem meets_process_payment (event : PaymentEvent) (h : w.pend t = []) :
    Meets lim t (processPayment event) (fun _ w => w.pend t = []) w := by
  have hs : Stable t (fun w => w.pend t = []) := fun _ _ hp hr => hr.pend.trans hp
  rw [process_payment_eq]
  exact meets_bind _ (meets_settlement event h)
    (fun events w hw => meets_publish hs hw.1 (hw.2 events rfl).announced) (fun _ _ hw => hw.1)

end

end Payments
