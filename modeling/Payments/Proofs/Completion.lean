import Payments.Lib.Progress
import Payments.Proofs.Acknowledgement
import Payments.Proofs.Attempts
import Payments.Proofs.Recovery
import Payments.Proofs.Transport

namespace Payments

open Lib

/-- Only a draw changes who has drawn an identifier. -/
theorem World.does_undrawn {lim : Limits} {t : Tid} {op : Op} {ch : Choice} {w w' : World}
    {r : Except Exc op.Res} (hd : Does lim t w op ch r w') (ho : op ≠ .uuid4) :
    w'.drawn = w.drawn := by
  cases hd with
  | fault => cases op <;> rfl
  | uuid4 => exact absurd rfl ho
  | _ => rfl

/-- The thread is the only one with a transaction: it has made these changes to these tables, and
nothing is locked for it. -/
structure Lone (t : Tid) (db : Db) (ws : List Write) (w : World) : Prop where
  db : w.db = db
  pend : w.pend t = ws
  free : ∀ x, w.Free t x

section Lone

variable {t : Tid} {db : Db} {ws : List Write} {w w' : World}

theorem Lone.view (h : Lone t db ws w) : w.view t = db.applyAll ws := by
  rw [World.view, h.pend, h.db]

theorem Lone.hold (h : Lone t db ws w) (rs : List Resource) : Lone t db ws (w.hold t rs) :=
  ⟨h.db, h.pend, fun x => World.free_hold (h.free x)⟩

theorem Lone.write (h : Lone t db ws w) (xs : List Write) :
    Lone t db (ws ++ xs) (w.write t xs) :=
  ⟨h.db, by simp [h.pend], fun x => World.free_write (h.free x)⟩

theorem Lone.commit (h : Lone t db ws w) : Lone t (db.applyAll ws) [] (w.commit t) :=
  ⟨by simp [h.view], by simp, fun x => World.free_drop (h.free x)⟩

theorem Lone.drop (h : Lone t db ws w) : Lone t db [] (w.drop t) :=
  ⟨h.db, by simp, fun x => World.free_drop (h.free x)⟩

/-- What changes neither the tables nor the transactions leaves the thread alone. -/
theorem Lone.of_same (h : Lone t db ws w) (hdb : w'.db = w.db) (hp : w'.pend = w.pend)
    (hl : w'.lock = w.lock) : Lone t db ws w' :=
  ⟨hdb.trans h.db, (congrFun hp t).trans h.pend, fun x => by
    simpa only [World.Free, hl] using h.free x⟩

theorem Lone.calm (h : Lone t db [] w) : Calm t w w :=
  ⟨rfl, h.pend, h.free, [], rfl, fun _ _ _ hm => by cases hm⟩

end Lone

section

variable [Externals] {lim : Limits} {t : Tid} {db : Db} {ws : List Write} {w w' : World}
  {o : OutboxRow} {r : PaymentRow} {m : Message} {α : Type}

/-- The program can run alone to its end where nothing fails. -/
abbrev Completes (lim : Limits) (t : Tid) (p : Service α) (w : World) (a : α) (w' : World) :
    Prop :=
  (service lim).Runs (fun _ m => works m = true) t p w (.ok a) w'

theorem completes_op {op : Op} {a : op.Res} (ch : Choice) (hw : works (.run t op ch) = true)
    (he : World.exec lim t op ch w = some (.ok a, w')) : Completes lim t (perform op) w a w' :=
  runs_op (fun _ _ h => h) ch hw he

theorem completes_within {body : Service α} {a : α} (h : Completes lim t body w a w') :
    Completes lim t (Uow.within body) w a (w'.drop t) :=
  runs_within (fun _ _ h => h) h

theorem completes_commit : Completes lim t Uow.commit w () (w.commit t) :=
  .handle_ok (completes_op .ok rfl rfl)

theorem completes_publish {e : PaymentEvent} {q : RabbitQueue} {body : Json}
    (hq : EventBus.queueRegistry e.cls = some q) (hb : parseEventToMessage e = .ok body) :
    Completes lim t (EventBus.publishPaymentEvent e) w ()
      (w.accept t lim paymentsExchange q.routingKey { body := body }) := by
  unfold EventBus.publishPaymentEvent
  simp only [hq, hb]
  exact .handle_ok (completes_op .ok rfl rfl)

variable (lim) in
/-- The claim of a pending event. -/
theorem completes_claim (h : Lone t db [] w) (ho : o ∈ db.outbox.rows) (hp : o.status = .pending) :
    ∃ w', Completes lim t (claim o.id) w true w' ∧ Lone t db [] w' ∧ w'.drawn = w.drawn := by
  obtain ⟨w', hr, hc⟩ := runs_claim_true (fun _ _ h => h) h.calm (h.db ▸ ho) hp
  refine ⟨w', hr, ⟨hc.db.trans h.db, hc.pend, hc.free⟩, ?_⟩
  refine hr.keeps (I := fun v => v.drawn = w.drawn) (only_claim o.id) ?_ rfl
  intro op ch s r s' hop he hs
  refine (World.does_undrawn (World.exec_does he) ?_).trans hs
  rintro rfl
  exact hop.elim

variable (lim) in
/-- The transaction of an end state. -/
theorem completes_conclude (status : TaskStatus) (h : Lone t db [] w) (ho : o ∈ db.outbox.rows) :
    ∃ w', Completes lim t (conclude o.id status) w () w' ∧
      Lone t (db.applyAll [.updateOutbox o.id status none]) [] w' ∧ w'.ready = w.ready ∧
      ∀ d ∈ w.trace, d ∈ w'.trace := by
  have hfind : db.outbox.find? o.id = some o := Table.find_mem ho
  have hlock := h.hold [.outbox o.id]
  have hselect : Completes lim t (perform (.selectOutboxId o.id)) w (some o.id)
      (w.hold t [.outbox o.id]) := by
    apply completes_op .ok rfl
    simp [World.exec, World.answer, World.whenOk, World.answered, World.selectOutbox, h.view,
      Db.applyAll, hfind, h.free]
  have hupdate : Completes lim t (perform (.updateOutbox o.id status none))
      (w.hold t [.outbox o.id]) ()
      ((w.hold t [.outbox o.id]).write t [.updateOutbox o.id status none]) := by
    apply completes_op .ok rfl
    simp [World.exec, World.answer, World.whenOk, World.updateOutbox, hlock.view, Db.applyAll,
      hfind, hlock.free]
  have hmark : Completes lim t (OutboxRepository.markProcessed o.id status) w ()
      ((w.hold t [.outbox o.id]).write t [.updateOutbox o.id status none]) :=
    .bind hselect (.bind hupdate (completes_op .ok rfl rfl))
  exact ⟨_, completes_within (.bind hmark completes_commit),
    (hlock.write [.updateOutbox o.id status none]).commit.drop, rfl,
    fun d hd => List.mem_cons_of_mem _ hd⟩

theorem completes_getById {p : Payment} (hr : r ∈ db.payments.rows)
    (hd : PaymentRepository.toDomain r = .ok p) (h : Lone t db [] w) :
    Completes lim t (PaymentRepository.getById { value := r.id }) w p
      (w.hold t [.payment r.id]) := by
  have hfind : db.payments.rows.find? (fun x => decide (x.id = r.id)) = some r := Table.find_mem hr
  have hload : Completes lim t (perform (.selectPaymentById r.id)) w (some r)
      (w.hold t [.payment r.id]) := by
    apply completes_op .ok rfl
    simp [World.exec, World.answer, World.whenOk, World.answered, World.selectPayment, h.view,
      Db.applyAll, h.free, hfind]
  refine .bind hload ?_
  simp only [hd]
  exact .ret _ _

variable {event : PaymentEvent} {u : UUID}

/-- The gateway accepts a payment that is pending. -/
theorem completes_emulate {p p' : Payment} (hp : p.ensurePending = .ok ())
    (hmark : p.markAsSucceeded ⟨u, sampleTime, sampleTime⟩ = .ok p') (hu : w.Unused u) :
    Completes lim t (emulateProcessing p) w p' (w.draw t u) := by
  have hdraw : Completes lim t (perform .uuid4) w u (w.draw t u) := by
    apply completes_op (.uuid u) rfl
    simp [World.exec, World.answer, hu, World.answered]
  refine .bind (a := true) (completes_op (.coin true) rfl rfl) ?_
  simp only [hp, Prog.bind_eq, Prog.ofExcept_ok_bind]
  refine .bind (a := sampleTime) (completes_op (.time sampleTime) rfl rfl) (.bind hdraw ?_)
  refine .bind (a := sampleTime) (completes_op (.time sampleTime) rfl rfl) ?_
  simp only [if_true, hmark]
  exact .ret _ _

theorem completes_update {p : Payment} {status : PaymentStatus} {now : DateTime} {eventId : UUID}
    {occurredAt : DateTime} {reason : Option String} (hr : r ∈ db.payments.rows)
    (hs : Settled r p status now eventId occurredAt reason) (h : Lone t db [] w) :
    Completes lim t (PaymentRepository.update p) w ()
      (w.write t [.updatePayment r.id status now]) := by
  have hrow : db.payments.find? r.id = some r := Table.find_mem hr
  have hwrite : World.exec lim t (.updatePayment p.id.value p.status now) .ok w =
      some (.ok (some p.id.value), w.write t [.updatePayment r.id status now]) := by
    simp only [World.exec, World.answer, World.whenOk, World.updatePayment, h.view, Db.applyAll,
      List.foldl_nil, hrow, h.free, if_true, hs.sameId, hs.newStatus]
  simp only [PaymentRepository.update, hs.stamped, Timestamp.new]
  exact .bind (a := some p.id.value) (completes_op .ok rfl hwrite)
    (.bind (a := ()) (completes_op .ok rfl rfl) (.ret _ _))

theorem completes_add_event {e : PaymentEvent} (hst : e.StoredAs o)
    (hnew : (db.applyAll ws).outbox.find? o.id = none) (h : Lone t db ws w) :
    Completes lim t (OutboxRepository.add [e]) w () (w.write t [.insertOutbox o]) := by
  obtain ⟨s, hrow, heq⟩ := add_event_eq hst
  have hrows : [s].mapM SerializedEvent.toRow = .ok [o] := by
    simp [List.mapM_cons, hrow, bind, Except.bind, pure, Except.pure]
  have hwrite : World.exec lim t (.insertOutbox [s]) .ok w =
      some (.ok (), w.write t [.insertOutbox o]) := by
    simp [World.exec, World.answer, World.whenOk, World.insertOutbox, hrows, h.view, hnew, h.free]
  rw [heq]
  exact .bind (a := ()) (completes_op .ok rfl hwrite) (completes_op .ok rfl rfl)

/-- The row that reports that a payment has been confirmed. -/
def confirmedEvent (r : PaymentRow) (u : UUID) : OutboxRow :=
  ⟨u, EventClass.paymentProcessedEvent.queue,
    processedPayload (Db.settleRow .confirmed sampleTime r) none, sampleTime, .pending, none⟩

/-- What the settlement of a payment makes of the tables. -/
def Db.confirm (db : Db) (r : PaymentRow) (u : UUID) : Db :=
  db.applyAll [.updatePayment r.id .confirmed sampleTime, .insertOutbox (confirmedEvent r u)]

variable (lim) in
/-- The transaction that settles a pending payment, with an identifier that nobody has drawn. -/
theorem completes_settlement (hs : db.Sound) (hev : event.attr "payment_id" = .uuid r.id)
    (hr : r ∈ db.payments.rows) (hp : r.status = .pending) (hu : w.Unused u)
    (h : Lone t db [] w) :
    ∃ w', Completes lim t (Uow.within (settlement event)) w
      [processedEvent (Db.settleRow .confirmed sampleTime r) u sampleTime none] w' ∧
      Lone t (db.confirm r u) [] w' := by
  have hid : PaymentID.new (event.attr "payment_id") = .ok { value := r.id } := by
    rw [hev]
    simp [PaymentID.new, hs.version r hr]
  obtain ⟨p, hd⟩ := toDomain_obj (hs.metadata r hr)
  have hpending : p.ensurePending = .ok () := by
    simp [Payment.ensurePending, (toDomain_ok hd).2.2.2.2.1, hp]
  obtain ⟨p', hmark⟩ : ∃ p', p.markAsSucceeded ⟨u, sampleTime, sampleTime⟩ = .ok p' := by
    simp [Payment.markAsSucceeded, Payment.settle, hpending, bind, Except.bind]
  have hset : Settled r p' .confirmed sampleTime u sampleTime none :=
    @settled_of_settle r p p' .confirmed none ⟨u, sampleTime, sampleTime⟩ hd (by decide) hmark
  have hnew : (db.applyAll [.updatePayment r.id .confirmed sampleTime]).outbox.find? u = none := by
    have hfree : w.db.outbox.find? u = none := hu.2.2.2
    rwa [h.db] at hfree
  have h₁ : Lone t db [] ((w.hold t [.payment r.id]).draw t u) :=
    (h.hold [.payment r.id]).of_same rfl rfl rfl
  have h₂ := h₁.write [.updatePayment r.id .confirmed sampleTime]
  have hstored := processed_stored (Db.settleRow .confirmed sampleTime r) u sampleTime none
  refine ⟨_, completes_within ?_, (h₂.write [.insertOutbox (confirmedEvent r u)]).commit.drop⟩
  simp only [settlement, hid, Prog.bind_eq, Prog.pure_eq, Prog.ofExcept_ok_bind]
  refine .bind (completes_getById hr hd h) (.bind (completes_emulate hpending hmark hu) ?_)
  refine .bind (a := p') (.bind (completes_update hr hset h₁) (.ret _ _)) ?_
  simp only [Payment.pullEvents, hset.recorded]
  exact .bind (completes_add_event hstored hnew h₂) (.bind completes_commit (.ret _ _))

variable (lim) in
/-- A delivery of the created event of a pending payment settles it, confirms the event and
publishes the outcome. -/
theorem completes_handle_payment (hs : db.Sound) (ho : o ∈ db.outbox.rows)
    (hop : o.status = .pending) (hr : r ∈ db.payments.rows) (hp : r.status = .pending)
    (hc : r.Created o) (hb : m.body = o.body) (hu : w.Unused u) (h : Lone t db [] w) :
    ∃ w', Completes lim t (handlePaymentProcessing lim.process m) w () w' ∧
      Lone t ((db.confirm r u).applyAll [.updateOutbox o.id .confirmed none]) [] w' ∧
      (notifyPaymentsQ, { body := (confirmedEvent r u).body }) ∈ w'.ready := by
  have hdec : decodeNew m.body = .ok (createdEvent r.id o.id o.occurredAt) :=
    hb ▸ decode_created hc
  obtain ⟨w₁, hclaim, h₁, hdrawn⟩ := completes_claim lim h ho hop
  have hu₁ : (w₁.note t (.entered o.id)).Unused u := by
    obtain ⟨hv, hd, hpay, hout⟩ := hu
    rw [h.db] at hpay hout
    exact ⟨hv, (congrFun hdrawn u).trans hd, h₁.db.symm ▸ hpay, h₁.db.symm ▸ hout⟩
  have h₂ : Lone t db [] (w₁.note t (.entered o.id)) := h₁.of_same rfl rfl rfl
  obtain ⟨w₃, hsettle, h₃⟩ := completes_settlement lim hs
    (rfl : (createdEvent r.id o.id o.occurredAt).attr "payment_id" = .uuid r.id) hr hp hu₁ h₂
  have hstored := processed_stored (Db.settleRow .confirmed sampleTime r) u sampleTime none
  have hpublish : Completes lim t (EventBus.publishPaymentEvent
      (processedEvent (Db.settleRow .confirmed sampleTime r) u sampleTime none)) w₃ ()
      (w₃.accept t lim paymentsExchange notifyPaymentsQ.routingKey
        { body := (confirmedEvent r u).body }) :=
    completes_publish rfl (processed_published _ _ _ _ hstored)
  have h₄ : Lone t (db.confirm r u) [] (w₃.accept t lim paymentsExchange
      notifyPaymentsQ.routingKey { body := (confirmedEvent r u).body }) :=
    h₃.of_same rfl rfl rfl
  have hkept : o ∈ (db.confirm r u).outbox.rows := by
    have hnew : db.outbox.find? u = none := h.db ▸ hu.2.2.2
    exact (Db.mem_outbox_settle hnew).mpr (.inl ho)
  obtain ⟨w₅, hconclude, h₅, hready, _⟩ := completes_conclude lim .confirmed h₄ hkept
  refine ⟨w₅.ackDelivery t, ?_, h₅.of_same rfl rfl rfl, ?_⟩
  · simp only [handlePaymentProcessing, hdec, Prog.bind_eq, Prog.pure_eq, Prog.ofExcept_ok_bind]
    refine .bind (a := ()) (completes_op .ok rfl rfl) (.bind hclaim ?_)
    rw [if_pos (.inl rfl)]
    refine .bind (a := ()) (.handle_ok ?_) (completes_op .ok rfl rfl)
    refine .bind (a := ()) (completes_op .ok rfl rfl) (.bind (a := ()) ?_ hconclude)
    exact .bind hsettle (.bind hpublish (.ret _ _))
  · have hroute : notifyPaymentsQ ∈ route lim paymentsExchange notifyPaymentsQ.routingKey := by
      simp [route_base (.inr rfl : Subscribed notifyPaymentsQ)]
    rw [World.ackDelivery_ready, hready]
    exact List.mem_append_right _ (List.mem_map.mpr ⟨_, hroute, rfl⟩)

variable (lim) in
/-- A delivery of the report of a settled payment notifies the client and confirms the event. -/
theorem completes_handle_notify (ho : o ∈ db.outbox.rows) (hop : o.status = .pending)
    (hr : r.Processed o) (hurl : Op.supportedUrl r.webhookUrl = true) (hb : m.body = o.body)
    (h : Lone t db [] w) :
    ∃ w', Completes lim t (handleNotifyClient lim.notify m) w () w' ∧
      Lone t (db.applyAll [.updateOutbox o.id .confirmed none]) [] w' ∧
      ∃ payload, (t, .posted r.webhookUrl payload) ∈ w'.trace := by
  obtain ⟨_, reason, hpay⟩ := hr
  have hdec : decodeNotify m.body = .ok (processedEvent r o.id o.occurredAt reason) :=
    hb ▸ decode_processed hpay (Decimal.parse_str_any _)
  obtain ⟨payload, hload⟩ : ∃ payload, Payload.getStrategy
      ((processedEvent r o.id o.occurredAt reason).attr "status")
      (processedEvent r o.id o.occurredAt reason) = .ok payload := by
    have hstatus : (processedEvent r o.id o.occurredAt reason).attr "status" = r.status.toPy := rfl
    rw [hstatus]
    cases r.status <;> exact ⟨_, rfl⟩
  obtain ⟨w₁, hclaim, h₁, _⟩ := completes_claim lim h ho hop
  have hsend : Completes lim t (perform (.send r.webhookUrl payload DEFAULT_TIMEOUT))
      (w₁.note t (.entered o.id)) ()
      ((w₁.note t (.entered o.id)).note t (.posted r.webhookUrl payload)) := by
    apply completes_op .ok rfl
    simp [World.exec, World.answer, hurl, World.whenOk, World.answered]
  have h₂ : Lone t db [] ((w₁.note t (.entered o.id)).note t (.posted r.webhookUrl payload)) :=
    h₁.of_same rfl rfl rfl
  obtain ⟨w₃, hconclude, h₃, _, hseen⟩ := completes_conclude lim .confirmed h₂ ho
  refine ⟨w₃.ackDelivery t, ?_, h₃.of_same rfl rfl rfl, payload,
    List.mem_cons_of_mem _ (hseen _ List.mem_cons_self)⟩
  simp only [handleNotifyClient, hdec, Prog.bind_eq, Prog.pure_eq, Prog.ofExcept_ok_bind]
  refine .bind hclaim ?_
  rw [if_pos (.inl rfl)]
  refine .bind (a := ()) (.handle_ok ?_) (completes_op .ok rfl rfl)
  refine .bind (a := ()) (completes_op .ok rfl rfl) (.bind (a := ()) ?_ hconclude)
  simp only [sendNotification, hload, Prog.bind_eq, Prog.ofExcept_ok_bind]
  exact hsend

variable (lim) in
/-- The events can all be published, and their messages wait then. -/
theorem completes_publish_events {events : List PaymentEvent} (h : Lone t db ws w)
    (hs : ∀ e ∈ events, ∃ x, Spells x e) :
    ∃ w', Completes lim t (EventBus.publishPaymentEvents events) w () w' ∧ Lone t db ws w' ∧
      w'.drawn = w.drawn ∧ (∀ d ∈ w.ready, d ∈ w'.ready) ∧
      ∀ e ∈ events, ∀ x, Spells x e →
        ∃ q, Subscribed q ∧ (q, { body := x.body }) ∈ w'.ready := by
  induction events generalizing w with
  | nil => exact ⟨w, .ret _ _, h, rfl, fun _ hd => hd, fun _ he => by cases he⟩
  | cons e events ih =>
    obtain ⟨y, ⟨q, hq⟩, hb⟩ := hs e List.mem_cons_self
    have hbase : Subscribed q := by
      cases hcls : e.cls <;> rw [hcls] at hq <;> cases hq
      · exact .inl rfl
      · exact .inr rfl
    have hroute : q ∈ route lim paymentsExchange q.routingKey := by simp [route_base hbase]
    have haccept : Lone t db ws (w.accept t lim paymentsExchange q.routingKey
        { body := y.body }) := h.of_same rfl rfl rfl
    obtain ⟨w', hr, h', hdrawn, hready, hall⟩ := ih haccept
      (fun e' he' => hs e' (List.mem_cons_of_mem _ he'))
    refine ⟨w', .bind (completes_publish hq hb) hr, h', hdrawn,
      fun d hd => hready d (List.mem_append_left _ hd), fun e' he' x hx => ?_⟩
    rcases List.mem_cons.mp he' with rfl | he'
    · have hbody : x.body = y.body := Except.ok.inj (hx.2.symm.trans hb)
      rw [hbody]
      exact ⟨q, hbase, hready _ (List.mem_append_right _ (List.mem_map.mpr ⟨q, hroute, rfl⟩))⟩
    · exact hall e' he' x hx

variable (lim) in
/-- A poll publishes the pending events that it selects. -/
theorem completes_poll {ids : List UUID} (hk : ∀ x ∈ db.outbox.rows, x.Known)
    (hids : World.Sorted (w.pendings t) ids) (ho : o ∈ db.outbox.rows) (hop : o.status = .pending)
    (hfirst : o.id ∈ ids.take 50) (h : Lone t db [] w) :
    ∃ w', Completes lim t handleBadEvents w () w' ∧ Lone t db [] w' ∧ w'.drawn = w.drawn ∧
      ∃ q, Subscribed q ∧ (q, { body := o.body }) ∈ w'.ready := by
  have hview : w.view t = db := h.view
  have hselect : Completes lim t (perform (.selectPendings 50 0)) w
      (World.named (w.pendings t) (ids.take 50))
      (w.hold t ((ids.take (0 + 50)).map .outbox)) :=
    completes_op (.order ids) rfl (World.exec_pendings lim hids 50 0)
  have hknown : ∀ x ∈ World.named (w.pendings t) (ids.take 50), x.Known := by
    intro x hx
    have hm := (List.mem_filter.mp (mem_named hx)).1
    rw [hview] at hm
    exact hk x hm
  obtain ⟨events, hev, hto, hof⟩ := rebuilt_all hknown
  obtain ⟨w', hr, h', hdrawn, _, hall⟩ := completes_publish_events lim
    (h.hold ((ids.take (0 + 50)).map .outbox)) (fun e he => (hof e he).imp (fun _ hx => hx.2))
  have hpending : o ∈ w.pendings t := by
    refine List.mem_filter.mpr ⟨hview.symm ▸ ho, ?_⟩
    simp [hop, h.free]
  obtain ⟨e, he, hspells⟩ := hto o (mem_named_of_sorted (w.pendings_nodup t) hpending hfirst)
  refine ⟨w'.drop t, .bind (a := ()) (completes_op .ok rfl rfl) (completes_within ?_), h'.drop,
    hdrawn, hall e he o hspells⟩
  refine .bind (.bind hselect ?_) hr
  rw [hev]
  exact .ret _ _

omit [Externals] in
/-- The event that is marked has the end state. -/
theorem ended_mark {status : TaskStatus} (ho : o ∈ db.outbox.rows) :
    (db.applyAll [.updateOutbox o.id status none]).Ended o.id status :=
  ⟨_, Db.mem_outbox_mark.mpr (.inr ⟨o, ho, rfl, rfl⟩), rfl, rfl⟩

omit [Externals] in
/-- The others keep theirs. -/
theorem Db.Ended.mark {id : UUID} {status status' : TaskStatus} (h : db.Ended o.id status)
    (hne : o.id ≠ id) : (db.applyAll [.updateOutbox id status' none]).Ended o.id status := by
  obtain ⟨x, hx, hid, hs⟩ := h
  exact ⟨x, Db.mem_outbox_mark.mpr (.inl ⟨hx, hid ▸ hne⟩), hid, hs⟩

variable {c c' : Config World Op Op.Res Exc Reply}

/-- The run goes without a failure to a configuration where no thread runs. -/
structure Completion (lim : Limits) (c c' : Config World Op Op.Res Exc Reply) : Prop where
  reach : (service lim).Reach (fun _ m => works m = true) c c'
  quiet : ∀ t, c'.threads t = none

theorem Completion.reachable (hr : Completion lim c c') (h : Reachable lim c) : Reachable lim c' :=
  h.trans (hr.reach.mono (fun _ _ _ => trivial))

/-- A request whose program can run alone to its end is served. -/
theorem request_completes {req : Req} {p : Service Reply} {w₁ w₂ : World} {a : Reply}
    (hq : ∀ t, c.threads t = none) (hs : c.shared.start lim c.next req = some (p, w₁))
    (hr : Completes lim c.next p w₁ a w₂) :
    ∃ c', Completion lim c c' ∧ c'.shared = w₂.finish c.next (.ok a) ∧ c'.next = c.next + 1 := by
  have hstart : (service lim).Step c (.start c.next req)
      { c.put c.next (some p) w₁ with next := c.next + 1 } := .start hs
  have hput : ({ c.put c.next (some p) w₁ with next := c.next + 1 } :
      Config World Op Op.Res Exc Reply).threads c.next = some p := Function.update_self _ _ _
  obtain ⟨c₂, q, h₂, hw, hq₂, hres, hn, hother⟩ := hr.reach hput rfl
  have hexit : (service lim).Step c₂ (.exit c.next)
      (c₂.put c.next none (c₂.shared.finish c.next (.ok a))) := .exit hq₂ hres
  have hrun : (service lim).Reach (fun _ m => works m = true) c c₂ :=
    Sys.Reach.trans (.step .init rfl hstart) h₂
  refine ⟨_, ⟨.step hrun rfl hexit, fun u => ?_⟩, ?_, hn⟩
  · by_cases hu : c.next = u
    · subst hu
      exact Function.update_self _ _ _
    · have hrest : c₂.threads u = none := by
        rw [hother u hu]
        exact (Function.update_of_ne (Ne.symm hu) _ _).trans (hq u)
      exact (Function.update_of_ne (Ne.symm hu) _ _).trans hrest
  · rw [← hw]
    rfl

/-- Where no thread runs the next one is alone. -/
theorem lone_next (h : Reachable lim c) (hq : ∀ t, c.threads t = none) :
    Lone c.next c.shared.db [] c.shared := by
  refine ⟨rfl, (outside_fresh h (Nat.le_refl _)).pend, fun x => ?_⟩
  cases hl : c.shared.lock x with
  | none => exact .inl hl
  | some u => exact absurd (hq u) (lock_running h x u hl)

/-- A message that waits for a handler is delivered. -/
theorem delivery_starts {q : RabbitQueue} {p : Service Unit} (hm : (q, m) ∈ c.shared.ready)
    (hp : subscriber lim q m = some p) : ∃ i, c.shared.start lim c.next (.deliver i) =
      some (p.bind (fun _ => pure .done), c.shared.deliver c.next i q m) := by
  obtain ⟨i, hi⟩ := List.getElem?_of_mem hm
  exact ⟨i, by simp [World.start, hi, hp]⟩

/-- A poll brings the message of a pending event that it may select to the handler of the event. -/
theorem poll_completes {ids : List UUID} (h : Reachable lim c) (hq : ∀ t, c.threads t = none)
    (ho : o ∈ c.shared.db.outbox.rows) (hs : o.status = .pending)
    (hids : World.Sorted (c.shared.pendings c.next) ids) (hfirst : o.id ∈ ids.take 50) :
    ∃ c' q, Completion lim c c' ∧ c'.shared.db = c.shared.db ∧ c'.shared.drawn = c.shared.drawn ∧
      (q, { body := o.body }) ∈ c'.shared.ready ∧ Subscribed q ∧
      o.queue = "payments." ++ q.routingKey := by
  have hlone : Lone c.next c.shared.db [] (c.shared.note c.next .polled) :=
    (lone_next h hq).of_same rfl rfl rfl
  have hids' : World.Sorted ((c.shared.note c.next .polled).pendings c.next) ids := hids
  obtain ⟨w, hpoll, hw, hdrawn, q, hsub, hm⟩ := completes_poll lim
    (fun x hx => (reachable_holds h).inv.known hx) hids' ho hs hfirst hlone
  have hstart : c.shared.start lim c.next .poll = some
      (handleBadEvents.bind (fun _ => pure .done), c.shared.note c.next .polled) := rfl
  obtain ⟨c', hc, hshared, _⟩ := request_completes hq hstart (.bind hpoll (.ret _ _))
  have hready : (q, { body := o.body }) ∈ c'.shared.ready := by
    rw [hshared]
    exact hm
  refine ⟨c', q, hc, ?_, ?_, hready, hsub, ?_⟩
  · rw [hshared]
    exact hw.db
  · rw [hshared]
    exact hdrawn
  · exact (reachable_holds (hc.reachable h)).inv.queue (.inl hready) hsub rfl

/-- The handler of a created event brings its payment to an outcome. -/
theorem payment_completes (h : Reachable lim c) (hq : ∀ t, c.threads t = none)
    (ho : o ∈ c.shared.db.outbox.rows) (hs : o.status = .pending)
    (hr : r ∈ c.shared.db.payments.rows) (hp : r.status = .pending) (hc : r.Created o)
    (hu : c.shared.Unused u) (hm : (newPaymentsQ, { body := o.body }) ∈ c.shared.ready) :
    ∃ c', Completion lim c c' ∧
      c'.shared.db = (c.shared.db.confirm r u).applyAll [.updateOutbox o.id .confirmed none] ∧
      (notifyPaymentsQ, { body := (confirmedEvent r u).body }) ∈ c'.shared.ready := by
  obtain ⟨i, hstart⟩ := delivery_starts hm rfl
  have hlone : Lone c.next c.shared.db []
      (c.shared.deliver c.next i newPaymentsQ { body := o.body }) :=
    (lone_next h hq).of_same rfl rfl rfl
  have hunused : (c.shared.deliver c.next i newPaymentsQ { body := o.body }).Unused u := hu
  obtain ⟨w, hrun, hw, hready⟩ := completes_handle_payment lim
    (m := { body := o.body }) (reachable_holds h).inv.sound ho hs hr hp hc rfl hunused hlone
  obtain ⟨c', hc', hshared, _⟩ := request_completes hq hstart (.bind hrun (.ret _ _))
  refine ⟨c', hc', ?_, ?_⟩
  · rw [hshared]
    exact hw.db
  · rw [hshared]
    exact hready

/-- The outcome of the payment is committed, and the client has been notified of it. -/
def World.Informed (w : World) (r : PaymentRow) : Prop :=
  r ∈ w.db.payments.rows ∧ r.status ≠ .pending ∧ ∃ x ∈ w.db.outbox.rows, r.Processed x ∧
    x.status = .confirmed ∧ ∃ t payload, (t, .posted r.webhookUrl payload) ∈ w.trace

/-- The handler of a report brings it to the client. -/
theorem notification_completes (h : Reachable lim c) (hq : ∀ t, c.threads t = none)
    (ho : o ∈ c.shared.db.outbox.rows) (hs : o.status = .pending)
    (hr : r ∈ c.shared.db.payments.rows) (hp : r.Processed o)
    (hurl : Op.supportedUrl r.webhookUrl = true)
    (hm : (notifyPaymentsQ, { body := o.body }) ∈ c.shared.ready) :
    ∃ c', Completion lim c c' ∧
      c'.shared.db = c.shared.db.applyAll [.updateOutbox o.id .confirmed none] ∧
      c'.shared.Informed r := by
  obtain ⟨i, hstart⟩ := delivery_starts hm rfl
  have hlone : Lone c.next c.shared.db []
      (c.shared.deliver c.next i notifyPaymentsQ { body := o.body }) :=
    (lone_next h hq).of_same rfl rfl rfl
  obtain ⟨w, hrun, hw, payload, hposted⟩ := completes_handle_notify lim
    (m := { body := o.body }) ho hs hp hurl rfl hlone
  obtain ⟨c', hc', hshared, _⟩ := request_completes hq hstart (.bind hrun (.ret _ _))
  have hdb : c'.shared.db = c.shared.db.applyAll [.updateOutbox o.id .confirmed none] := by
    rw [hshared]
    exact hw.db
  have hset := (reachable_holds h).inv.agree.processed_of_names ho hr hp.1 hp.names
  refine ⟨c', hc', hdb, ?_, hset.1, Db.markRow .confirmed none o, ?_, hp, rfl, c.next, payload, ?_⟩
  · rw [hdb]
    exact hr
  · rw [hdb]
    exact Db.mem_outbox_mark.mpr (.inr ⟨o, ho, rfl, rfl⟩)
  · rw [hshared]
    exact List.mem_cons_of_mem _ hposted

/-- What is begun can be finished without a failure. Where no thread runs, a pending event that a
poll may select can be brought to its end: the event is confirmed, the payment that it is about is
settled, and the client has been notified of the outcome. -/
theorem can_finish {ids : List UUID} (h : Reachable lim c) (hq : ∀ t, c.threads t = none)
    (hr : r ∈ c.shared.db.payments.rows) (ho : o ∈ c.shared.db.outbox.rows)
    (hs : o.status = .pending) (hstage : r.Created o ∧ r.status = .pending ∨ r.Processed o)
    (hids : World.Sorted (c.shared.pendings c.next) ids) (hfirst : o.id ∈ ids.take 50)
    (hu : ∃ u, c.shared.Unused u) (hurl : Op.supportedUrl r.webhookUrl = true) :
    ∃ c', (service lim).Reach (fun _ m => works m = true) c c' ∧ (∀ t, c'.threads t = none) ∧
      c'.shared.db.Ended o.id .confirmed ∧ ∃ r', r'.id = r.id ∧ c'.shared.Informed r' := by
  obtain ⟨c₁, q, h₁, hdb, hdrawn, hm, hsub, hqueue⟩ := poll_completes h hq ho hs hids hfirst
  obtain ⟨u, hv, hd, hpay, hout⟩ := hu
  rw [← hdb] at hr ho hpay hout
  have hr₁ := h₁.reachable h
  rcases hstage with ⟨hc, hp⟩ | hp
  · -- the poll has published a created event: first its payment is settled
    obtain rfl : q = newPaymentsQ := by
      rcases hsub with rfl | rfl
      · rfl
      · exact absurd (hc.1.symm.trans hqueue) (by decide)
    have hunused : c₁.shared.Unused u := ⟨hv, (congrFun hdrawn u).trans hd, hpay, hout⟩
    obtain ⟨c₂, h₂, hdb₂, hm₂⟩ := payment_completes hr₁ h₁.quiet ho hs hr hp hc hunused hm
    have hne : o.id ≠ u := Table.find_none.mp hout o ho
    have hevents : ∀ y, y ∈ (c₁.shared.db.confirm r u).outbox.rows ↔
        y ∈ c₁.shared.db.outbox.rows ∨ y = confirmedEvent r u :=
      fun y => Db.mem_outbox_settle hout
    have hx : confirmedEvent r u ∈ c₂.shared.db.outbox.rows := by
      rw [hdb₂]
      exact Db.mem_outbox_mark.mpr (.inl ⟨(hevents _).mpr (.inr rfl), Ne.symm hne⟩)
    have hended : c₂.shared.db.Ended o.id .confirmed := by
      rw [hdb₂]
      exact ended_mark ((hevents o).mpr (.inl ho))
    have hrow : Db.settleRow .confirmed sampleTime r ∈ c₂.shared.db.payments.rows := by
      rw [hdb₂]
      exact (Db.mem_payments_settle (o := confirmedEvent r u) hr).mpr (.inr rfl)
    obtain ⟨c₃, h₃, hdb₃, hinformed⟩ := notification_completes (h₂.reachable hr₁) h₂.quiet hx rfl
      hrow ⟨rfl, none, rfl⟩ hurl hm₂
    refine ⟨c₃, (h₁.reach.trans h₂.reach).trans h₃.reach, h₃.quiet, ?_,
      Db.settleRow .confirmed sampleTime r, rfl, hinformed⟩
    rw [hdb₃]
    exact hended.mark hne
  · obtain rfl : q = notifyPaymentsQ := by
      rcases hsub with rfl | rfl
      · exact absurd (hp.1.symm.trans hqueue) (by decide)
      · rfl
    obtain ⟨c₂, h₂, hdb₂, hinformed⟩ := notification_completes hr₁ h₁.quiet ho hs hr hp hurl hm
    refine ⟨c₂, h₁.reach.trans h₂.reach, h₂.quiet, ?_, r, rfl, hinformed⟩
    rw [hdb₂]
    exact ended_mark ho

/-- A creation that crashes after its commit, before it has published. -/
def unsentRun : Schedule :=
  [.start (.create (sampleCommand (uid 1))), .run 0 .ok, .run 0 (.uuid (uid 10))] ++
    stamps 0 (uid 11) ++ oks 0 6 ++ [.kill 0]

omit [Externals] in
set_option maxRecDepth 20000 in
theorem unsentRun_some : (after {} unsentRun).isSome = true := by decide +kernel

/-- The payment is committed and nobody knows of it. -/
def unsent : Config World Op Op.Res Exc Reply := (after {} unsentRun).get unsentRun_some

omit [Externals] in
set_option maxRecDepth 20000 in
theorem unsent_waits : (∀ t < unsent.next, (unsent.threads t).isNone = true) ∧
    unsent.shared.ready.isEmpty = true ∧
    World.Sorted (unsent.shared.pendings unsent.next) [uid 11] ∧ unsent.shared.Unused (uid 99) ∧
    ∃ r ∈ unsent.shared.db.payments.rows, r.status = .pending ∧
      Op.supportedUrl r.webhookUrl = true := by decide +kernel

omit [Externals] in
set_option maxRecDepth 20000 in
theorem can_finish_unsent : @Reachable sample {} unsent ∧ unsent.shared.ready = [] ∧
    ∃ r ∈ unsent.shared.db.payments.rows, r.status = .pending ∧ ∃ c',
      (sampleService {}).Reach (fun _ m => works m = true) unsent c' ∧
        ∃ r', r'.id = r.id ∧ c'.shared.Informed r' := by
  have hr : @Reachable sample {} unsent := reachable_after unsentRun_some
  obtain ⟨hquiet, hready, hids, hu, r, hrow, hp, hurl⟩ := unsent_waits
  obtain ⟨o, ho, hc, _⟩ := (@reachable_holds sample _ _ hr).inv.agree.created r hrow
  have hall : ∀ o ∈ unsent.shared.db.outbox.rows, o.status = .pending ∧ o.id = uid 11 := by
    decide +kernel
  obtain ⟨c', h', _, _, hinformed⟩ := @can_finish sample {} _ _ _ [uid 11] hr
    (@quiet_of_started sample {} _ hr hquiet) hrow ho (hall o ho).1 (.inl ⟨hc, hp⟩) hids
    (by simp [(hall o ho).2]) ⟨uid 99, hu⟩ hurl
  exact ⟨hr, List.isEmpty_iff.mp hready, r, hrow, hp, c', h', hinformed⟩

end

end Payments
