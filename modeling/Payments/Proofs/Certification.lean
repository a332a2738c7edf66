import Payments.Proofs.Notification
import Payments.Proofs.Publication

namespace Payments

open Lib

/-- The message carries the report of how a payment was settled. -/
def Message.Reports (m : Message) (id : UUID) : Prop :=
  ∃ o : OutboxRow, m.body = o.body ∧ o.Reports "payments.processed" id

namespace World

/-- The broker has accepted the report for the payment that an event names. -/
def Reported (w : World) (event : PaymentEvent) : Prop :=
  ∃ t m id, PaymentID.new (event.attr "payment_id") = .ok id ∧ m.Reports id.value ∧
    (t, .accepted paymentsExchange notifyPaymentsQ.routingKey m) ∈ w.trace

/-- What the confirmation of an event by a thread is based on: it handles the created event of a
payment whose report is accepted, or a processed event that is none of `P`. -/
def Vouched (P : UUID → Prop) (w : World) (t : Tid) (e : UUID) : Prop :=
  (∃ m event, .delivered newPaymentsQ m ∈ w.story t ∧ decodeNew m.body = .ok event ∧
    event.id = e ∧ w.Reported event) ∨
  ∃ m, .delivered notifyPaymentsQ m ∈ w.story t ∧ m.notifies e = true ∧ ¬ P e

/-- No event is confirmed, in a commit or in an open transaction, without that. -/
def Certain (P : UUID → Prop) (w : World) : Prop :=
  ∀ t e, w.Stated t e .confirmed ∨ Sets (w.pend t) e .confirmed → w.Vouched P t e

end World

/-- No call of the notifier by a run that handles one of these events returns. -/
def Unsent (P : UUID → Prop) (w : World) (mv : Move Op Choice Req Env) : Prop :=
  ∀ t url payload timeout, mv = .run t (.send url payload timeout) .ok →
    ∀ m e, .delivered notifyPaymentsQ m ∈ w.story t → m.notifies e = true → ¬ P e

/-- The duty to confirm only what is certain. -/
def certification (P : UUID → Prop) : Duty where
  inv := World.Certain P
  rely := fun _ w w' => ∀ d ∈ w.trace, d ∈ w'.trace
  guar := fun _ _ _ => True

/-- The effect confirms an event. -/
def Op.Confirms (op : Op) : Prop := ∃ e at', op = .updateOutbox e .confirmed at'

section

variable {P : UUID → Prop} {lim : Limits} {t : Tid} {w w' : World} {op : Op} {ch : Choice}
  {r : Except Exc op.Res} {e : UUID}

namespace World

theorem Reported.mono {event : PaymentEvent} (hr : w.Reported event)
    (h : ∀ d ∈ w.trace, d ∈ w'.trace) : w'.Reported event := by
  obtain ⟨t, m, id, hid, hm, ha⟩ := hr
  exact ⟨t, m, id, hid, hm, h _ ha⟩

theorem Vouched.mono (hv : w.Vouched P t e) (h : ∀ d ∈ w.trace, d ∈ w'.trace) :
    w'.Vouched P t e := by
  rcases hv with ⟨m, event, hm, hd, hid, hr⟩ | ⟨m, hm, hn, hp⟩
  · exact .inl ⟨m, event, story_seen h hm, hd, hid, hr.mono h⟩
  · exact .inr ⟨m, story_seen h hm, hn, hp⟩

/-- A step leaves things certain when it confirms only what is. -/
theorem Certain.mono (hc : w.Certain P) (h : ∀ d ∈ w.trace, d ∈ w'.trace)
    (hs : ∀ t e, w'.Stated t e .confirmed ∨ Sets (w'.pend t) e .confirmed →
      (w.Stated t e .confirmed ∨ Sets (w.pend t) e .confirmed) ∨ w.Vouched P t e) :
    w'.Certain P :=
  fun t e he => ((hs t e he).elim (hc t e) (fun hv => hv)).mono h

theorem Certain.noted (hc : w.Certain P) {o : Obs} (ht : w'.trace = (t, o) :: w.trace)
    (hp : ∀ u, ∀ x ∈ w'.pend u, x ∈ w.pend u) (ho : ∀ ws, o ≠ .committed ws) : w'.Certain P := by
  refine hc.mono (fun d hd => ht ▸ List.mem_cons_of_mem _ hd) (fun u e he => .inl (he.imp ?_ ?_))
  · rintro ⟨ws, hm, hx⟩
    obtain ⟨hm, ha⟩ := mem_story.mp hm
    rw [ht] at hm
    rcases List.mem_cons.mp hm with he | hm
    · exact absurd (Prod.mk.inj he).2.symm (ho ws)
    · exact ⟨ws, mem_story.mpr ⟨hm, ha⟩, hx⟩
  · exact fun ⟨at', hx⟩ => ⟨at', hp u _ hx⟩

/-- An effect leaves things certain when it confirms only what is. -/
theorem Certain.does (hc : w.Certain P) (hd : Does lim t w op ch r w')
    (ho : ∀ e at', op = .updateOutbox e .confirmed at' → w.Vouched P t e) : w'.Certain P := by
  refine hc.mono (does_seen hd) (fun u e he => ?_)
  by_cases hu : t = u
  · subst hu
    rcases he with he | he
    · exact .inl ((does_stated hd he).imp_right (fun h => h.2))
    · rcases does_sets hd he with he | ⟨at', hop⟩
      · exact .inl (.inr he)
      · exact .inr (ho e at' hop)
  · refine .inl (he.imp (fun he => ?_) (fun ⟨at', hx⟩ => ?_))
    · simpa only [Stated, does_story hd hu] using he
    · exact ⟨at', (does_pend hd hx).resolve_right (fun h => hu h.1.symm)⟩

end World

theorem vouched_stable : (certification P).Stable t (fun w => w.Vouched P t e) :=
  fun _ _ h _ _ hd => h.mono hd

end

section

variable [Externals] {P : UUID → Prop} {lim : Limits} {t : Tid} {w : World} {e : UUID} {m : Message}
  {α : Type}

/-- A program that confirms nothing. What was told stays so. -/
theorem unconfirming_certification {p : Service α} {o : Obs}
    (hp : p.Only (fun op => ¬ op.Confirms)) (ho : o ∈ w.story t) :
    Tells (certification P) lim (Unsent P) t p (fun _ w => o ∈ w.story t) w := by
  refine tells_only hp ho (Duty.stable_told _) (fun op hop w₁ ch r w₂ hw₁ _ hi _ hd => ?_)
  exact ⟨hi.does hd (fun e at' he => absurd ⟨e, at', he⟩ hop), trivial, World.does_tells hd hw₁⟩

/-- A confirmation that is vouched for. -/
theorem conclude_certification (h : w.Vouched P t e) :
    Tells (certification P) lim (Unsent P) t (conclude e .confirmed) (fun _ _ => True) w := by
  refine wp_mono (tells_only (only_conclude e .confirmed) h vouched_stable
    (fun op ho w₁ ch r w₂ hw₁ _ hi _ hd => ?_)) (fun _ _ _ => trivial)
  refine ⟨hi.does hd (fun e' at' he => ?_), trivial, hw₁.mono (World.does_seen hd)⟩
  subst he
  exact ho.1 ▸ hw₁

/-- The publish of the report of a settled payment, where it returns, is accepted. -/
theorem publish_certification {event : PaymentEvent} {events : List PaymentEvent} {db : Db}
    (h : event.Outcome events db) :
    Tells (certification P) lim (Unsent P) t (EventBus.publishPaymentEvents events)
      (fun r w => r = .ok () → w.Reported event) w := by
  obtain ⟨id, row, eventId, occurredAt, reason, hid, hrow, _, _, rfl, o, _, hp, hb⟩ := h
  have hreports : (Message.mk o.body none).Reports id.value :=
    ⟨o, rfl, hp.1, hrow ▸ hp.names⟩
  have hq : EventBus.queueRegistry (processedEvent row eventId occurredAt reason).cls =
    some notifyPaymentsQ := rfl
  refine wp_seq (fun r w => r = .ok () → w.Reported event) ?_ (fun _ w hw => hw)
    (fun _ _ _ he => by cases he)
  simp only [EventBus.publishPaymentEvent, hq, hb]
  refine wp_catch (fun r w => r = .ok () → w.Reported event) ?_ (fun _ _ hw he => hw rfl)
    (fun _ _ _ he => by cases he)
  refine tells_op _ trivial (Duty.stable_true _) (fun w₁ ch r w₂ _ _ hi _ hd => ?_)
  refine ⟨hi.does hd (by simp), trivial, ?_⟩
  cases hd with
  | fault | lostPublish => exact fun he => by cases he
  | publish => exact fun _ => ⟨t, _, id, hid, hreports, List.mem_cons_self⟩

omit [Externals] in
theorem Op.Settles.not_confirms {op : Op} (h : op.Settles) : ¬ op.Confirms := by
  rintro ⟨_, _, rfl⟩
  exact h

omit [Externals] in
theorem Op.Emits.not_confirms {op : Op} (h : op.Emits) : ¬ op.Confirms := by
  rintro ⟨_, _, rfl⟩
  obtain ⟨_, _, h⟩ := h
  cases h

omit [Externals] in
theorem Op.Claims.not_confirms {op : Op} (h : op.Claims e) : ¬ op.Confirms := by
  rintro ⟨_, _, rfl⟩
  exact absurd h.2 (by decide)

omit [Externals] in
theorem Op.Buries.not_confirms {op : Op} {q : RabbitQueue} {n : Nat} {k : String} {x : Option Nat}
    (h : op.Buries q n m e k x) : ¬ op.Confirms := by
  rintro ⟨_, _, rfl⟩
  rcases h with h | ⟨_, _, _, h⟩ | ⟨_, h | h⟩
  · cases h
  · cases h
  · exact absurd h.2.1 (by decide)
  · cases h

omit [Externals] in
theorem not_confirms_of {op : Op} (h : ∀ e at', op ≠ .updateOutbox e .confirmed at') :
    ¬ op.Confirms :=
  fun ⟨e, at', he⟩ => h e at' he

/-- Where the use case of a payment returns, its report is accepted. -/
theorem process_certification {o : Obs} (event : PaymentEvent) (hp : w.pend t = [])
    (ho : o ∈ w.story t) :
    Tells (certification P) lim (Unsent P) t (processPayment event)
      (fun r w => (r = .ok () → w.Reported event) ∧ o ∈ w.story t) w := by
  refine wp_and ?_ (unconfirming_certification ((only_process_payment event).mono
    (fun _ h => h.elim (fun h => h.not_confirms) (fun h => h.not_confirms))) ho)
  rw [process_payment_eq]
  refine wp_seq _ (wp_under (wp_restrict (meets_settlement event hp)) (unconfirming_certification
    ((only_within (only_settlement event) trivial trivial).mono (fun _ h => h.not_confirms)) ho))
    (fun events w hw => ?_) (fun _ _ _ he => by cases he)
  exact publish_certification (hw.1.2 events rfl)

/-- Where the call of the notifier returns, the event is none of those without such a call. -/
theorem send_certification {event : PaymentEvent} (hn : m.notifies event.id = true)
    (hm : .delivered notifyPaymentsQ m ∈ w.story t) :
    Tells (certification P) lim (Unsent P) t (sendNotification event)
      (fun r w => (r = .ok () → ¬ P event.id) ∧ .delivered notifyPaymentsQ m ∈ w.story t) w := by
  refine wp_and ?_ (unconfirming_certification ((only_sendNotification event).mono ?_) hm)
  swap
  · rintro op ⟨_, _, _, rfl⟩
    exact not_confirms_of (by simp)
  simp only [sendNotification, Prog.bind_eq]
  cases Payload.getStrategy (event.attr "status") event with
  | error x => exact fun he => by cases he
  | ok payload =>
    rw [Prog.ofExcept_ok_bind]
    split
    · refine tells_op _ hm (Duty.stable_told _) (fun w₁ ch r w₂ hw₁ _ hi ha hd => ?_)
      refine ⟨hi.does hd (by simp), trivial, ?_⟩
      cases hd with
      | fault => exact fun he => by cases he
      | send => exact fun _ => ha t _ _ _ rfl m event.id hw₁ hn
    · exact fun he => by cases he

/-- The guarded part of a handler, whose use case returns where the confirmation is vouched for. -/
theorem guarded_certification {q : RabbitQueue} {run : Service Unit} {f : Exc → Service Unit}
    (hrun : ∀ w, w.pend t = [] → .delivered q m ∈ w.story t →
      Tells (certification P) lim (Unsent P) t run (fun r w => r = .ok () → w.Vouched P t e) w)
    (hf : ∀ x, (f x).Only (fun op => ¬ op.Confirms)) (hp : w.pend t = [])
    (hm : .delivered q m ∈ w.story t) :
    Tells (certification P) lim (Unsent P) t (((perform (.enter e)).bind (fun _ => run.bind (fun _ =>
      conclude e .confirmed))).handle f) (fun _ _ => True) w := by
  have hrest : ∀ x w, Tells (certification P) lim (Unsent P) t (f x) (fun _ _ => True) w :=
    fun x w => tells_only (hf x) trivial (Duty.stable_true _) (fun op hop w₁ ch r w₂ _ _ hi _ hd =>
      ⟨hi.does hd (fun e at' he => absurd ⟨e, at', he⟩ hop), trivial, trivial⟩)
  refine wp_catch (fun _ _ => True) ?_ (fun _ _ _ => trivial) (fun x w _ => hrest x w)
  refine wp_seq (fun _ w => w.pend t = [] ∧ .delivered q m ∈ w.story t)
    (tells_op _ ⟨hp, hm⟩ (Duty.stable_told _).during
      (fun w₁ ch r w₂ hw₁ _ hi _ hd => ?_)) (fun _ w hw => ?_) (fun _ _ _ => trivial)
  · refine ⟨hi.does hd (by simp), trivial, ?_, World.does_tells hd hw₁.2⟩
    cases hd <;> exact hw₁.1
  · exact wp_seq _ (hrun w hw.1 hw.2) (fun _ w hw => conclude_certification (hw rfl))
      (fun _ _ _ => trivial)

/-- What follows the decoding of a message. -/
theorem claimed_certification {q : RabbitQueue} {maxAttempts : Nat} {run : Service Unit}
    (hm : .delivered q m ∈ w.story t) (hb : Backed q.routingKey m e w.db)
    (hrun : ∀ w, w.pend t = [] → .delivered q m ∈ w.story t →
      Tells (certification P) lim (Unsent P) t run (fun _ _ => True) w) :
    Tells (certification P) lim (Unsent P) t ((claim e).bind (fun claimed =>
      (if Admitted claimed m.attempt maxAttempts then run else Prog.ret ()).bind
        (fun _ => perform .ack))) (fun _ _ => True) w := by
  refine wp_seq _ (wp_under (wp_restrict (meets_claim hb)) (unconfirming_certification
    ((only_claim e).mono (fun _ h => h.not_confirms)) hm)) (fun claimed w hw => ?_)
    (fun _ _ _ => trivial)
  refine tells_gated (fun _ => True) (fun _ _ _ => trivial) (fun _ => hrun w hw.1.1 hw.2)
    (fun _ => trivial) (fun w _ => ?_)
  exact tells_op _ trivial (Duty.stable_true _) (fun w₁ ch r w₂ _ _ hi _ hd =>
    ⟨hi.does hd (by simp), trivial, trivial⟩)

theorem payment_certification (hm : .delivered newPaymentsQ m ∈ w.story t)
    (hc : Carries w.db newPaymentsQ m) :
    Tells (certification P) lim (Unsent P) t (handlePaymentProcessing lim.process m)
      (fun _ _ => True) w := by
  have hconnect : (perform .connect).Only (fun op => ¬ op.Confirms) :=
    only_op (not_confirms_of (by simp))
  simp only [handlePaymentProcessing, Prog.bind_eq, Prog.pure_eq]
  cases hd : decodeNew m.body with
  | error x =>
    exact wp_seq _ (unconfirming_certification hconnect hm) (fun _ _ _ => trivial)
      (fun _ _ _ => trivial)
  | ok event =>
    refine wp_seq _ (tells_frame (only_op (by simp)) (fun _ _ h hg => h.grows hg)
      (unconfirming_certification hconnect hm) (decodedNew_backed hc hd)) (fun _ w hw => ?_)
      (fun _ _ _ => trivial)
    rw [Prog.ofExcept_ok_bind]
    refine claimed_certification hw.1 hw.2 (fun w hp hm => guarded_certification
      (fun w hp hm => ?_) (fun x => ?_) hp hm)
    · refine wp_mono (process_certification event hp hm) (fun r w hw he => ?_)
      exact .inl ⟨m, event, hw.2, hd, rfl, hw.1 he⟩
    · split
      · trivial
      · exact (only_retryOrBury _ _ _ _ _ _).mono (fun _ h => h.not_confirms)

theorem notify_certification (hm : .delivered notifyPaymentsQ m ∈ w.story t)
    (hc : Carries w.db notifyPaymentsQ m) :
    Tells (certification P) lim (Unsent P) t (handleNotifyClient lim.notify m)
      (fun _ _ => True) w := by
  simp only [handleNotifyClient, Prog.bind_eq, Prog.pure_eq]
  cases hd : decodeNotify m.body with
  | error x => trivial
  | ok event =>
    have hn : m.notifies event.id = true := by simp [Message.notifies, hd]
    rw [Prog.ofExcept_ok_bind]
    refine claimed_certification hm (decodedNotify_backed hc hd) (fun w hp hm =>
      guarded_certification (fun w hp hm => ?_) (fun x => (only_retryOrBury _ _ _ _ _ _).mono
        (fun _ h => h.not_confirms)) hp hm)
    exact wp_mono (send_certification hn hm) (fun r w hw he => .inr ⟨m, hw.2, hn, hw.1 he⟩)

/-- Every program keeps the duty. -/
theorem certification_met : (certification P).Met lim (Unsent P) where
  refl := fun _ _ _ h => h
  trans := fun _ _ _ _ h h' d hd => h' d (h d hd)
  compat := fun t u w w' _ hg _ _ d hd => by
    obtain ⟨new, ht, _⟩ := hg.published
    exact ht ▸ List.mem_append_right _ hd
  idle := fun _ => Duty.stable_true _
  aside := fun t w w' h _ _ hp ht hi => by
    refine ⟨hi.mono ht (fun u e he => .inl ?_), trivial⟩
    simpa only [World.Stated, h.story u, hp] using he
  deliver := fun t w i q m _ hi _ => ⟨hi.noted rfl (fun _ _ hx => hx) (by simp), trivial⟩
  finish := fun t r w _ hi =>
    ⟨hi.noted rfl (fun _ _ hx => (World.mem_drop_pend hx).2) (by simp), trivial⟩
  crash := fun t w _ hi =>
    ⟨hi.noted rfl (fun _ _ hx => (World.mem_drop_pend hx).2) (by simp), trivial⟩
  environment := fun e w w' _ _ hi he => by
    obtain ⟨_, _, rfl⟩ := World.environment_same he
    exact ⟨hi.mono (fun _ h => h) (fun _ _ he => .inl he), fun _ _ h => h⟩
  polls := fun p t w hp _ _ _ => by
    refine tells_only hp trivial (Duty.stable_true _) (fun op ho w₁ ch r w₂ _ _ hi _ hd => ?_)
    refine ⟨hi.does hd ?_, trivial, trivial⟩
    rintro e at' rfl
    obtain ho | ⟨_, _, ho⟩ := ho <;> cases ho
  payment := fun t w i m _ hr hi _ _ hs => by
    refine payment_certification ?_ (hi.ready _ (List.mem_of_getElem? hr))
    rw [World.story_told rfl rfl]
    exact List.mem_cons_self
  notify := fun t w i m _ hr hi _ _ hs => by
    refine notify_certification ?_ (hi.ready _ (List.mem_of_getElem? hr))
    rw [World.story_told rfl rfl]
    exact List.mem_cons_self

variable {c : Config World Op Op.Res Exc Reply}

theorem certain_reach (h : (service lim).Reach (Unsent P) (Config.initial {}) c) :
    c.shared.Certain P := by
  refine (certification_met.valid.reach_inv ⟨World.inv_empty, ?_⟩ (fun _ => ⟨rfl, rfl⟩) h).2
  rintro t e (⟨_, hm, _⟩ | ⟨_, hm⟩) <;> cases hm

/-- The payment that a stored event names is settled, and its report is stored and was accepted. -/
def World.Reports (w : World) (o : OutboxRow) : Prop :=
  ∃ r ∈ w.db.payments.rows, o.Names r.id ∧ r.status ≠ .pending ∧
    ∃ o' ∈ w.db.outbox.rows, o'.Reports "payments.processed" r.id ∧ ∃ t m,
      (t, .accepted paymentsExchange notifyPaymentsQ.routingKey m) ∈ w.trace ∧ m.body = o'.body

/-- In the run a call of the notifier returns, of a run that handles the event. -/
def Notified (ds : List (Config World Op Op.Res Exc Reply × Move Op Choice Req Env)) (e : UUID) :
    Prop :=
  ∃ d ∈ ds, ∃ t url payload timeout m, d.2 = .run t (.send url payload timeout) .ok ∧
    .delivered notifyPaymentsQ m ∈ d.1.shared.story t ∧ m.notifies e = true

/-- What vouches for a confirmed event is told by the queue of the event. -/
theorem vouched_row (h : Reachable lim c) {o : OutboxRow} (ho : o ∈ c.shared.db.outbox.rows)
    (hv : c.shared.Vouched P t o.id) :
    (o.queue = EventClass.paymentCreatedEvent.queue ∧ c.shared.Reports o) ∨
      o.queue = EventClass.paymentProcessedEvent.queue ∧ ¬ P o.id := by
  have hi := (reachable_holds h).inv
  rcases hv with ⟨m, event, hm, hd, hid, hrep⟩ | ⟨m, hm, hn, hp⟩
  · have hcarries := hi.delivered t _ m (World.mem_story.mp hm).1
    obtain ⟨o₁, ho₁, hb, hq, hid₁⟩ := decodedNew_backed hcarries hd
    obtain rfl := Table.eq_of_key ho₁ ho (hid₁.trans hid)
    obtain ⟨r, hr, hcr | ⟨_, hpr⟩⟩ := hi.agree.origin o₁ ho
    swap
    · exact absurd (hpr.1.symm.trans hq) (by simp [EventClass.queue, newPaymentsQ])
    refine .inl ⟨hcr.1, r, hr, hcr.names, ?_⟩
    -- the event names this payment, and what was accepted is its stored report
    rw [hb, decode_created hcr] at hd
    cases hd
    obtain ⟨u, m', pid, hpid, ⟨o', hb', hq', hn'⟩, ha⟩ := hrep
    obtain ⟨o₂, ho₂, hb₂⟩ := accepted_carried h u _ _ m' ha
    obtain ⟨hqueue, hpay⟩ := body_inj (hb'.symm.trans hb₂)
    have hname : pid.value = r.id := payment_id_value hpid
    have hnames : o₂.Names r.id := by
      unfold OutboxRow.Names at hn' ⊢
      rw [← hpay, hn', hname]
    have hsettled := hi.agree.processed_of_names ho₂ hr (hqueue.symm.trans hq') hnames
    exact ⟨hsettled.1, o₂, ho₂, ⟨hqueue.symm.trans hq', hnames⟩, u, m', ha, hb₂⟩
  · have hcarries := hi.delivered t _ m (World.mem_story.mp hm).1
    unfold Message.notifies at hn
    cases hd : decodeNotify m.body with
    | error x =>
      rw [hd] at hn
      cases hn
    | ok event =>
      rw [hd] at hn
      obtain ⟨o₁, ho₁, _, hq, hid₁⟩ := decodedNotify_backed hcarries hd
      obtain rfl := Table.eq_of_key ho₁ ho (hid₁.trans (of_decide_eq_true hn))
      exact .inr ⟨hq, hp⟩

/-- A created event is confirmed only where its payment is settled and the report of it is stored
and was accepted, and a processed event only after a call of the notifier for it has returned. -/
theorem confirmed_sound {ds : List (Config World Op Op.Res Exc Reply × Move Op Choice Req Env)}
    (h : (service lim).Path (Config.initial {}) ds c) {o : OutboxRow}
    (ho : o ∈ c.shared.db.outbox.rows) (hs : o.status = .confirmed) :
    (o.queue = EventClass.paymentCreatedEvent.queue → c.shared.Reports o) ∧
      (o.queue = EventClass.paymentProcessedEvent.queue → Notified ds o.id) := by
  have hreach : Reachable lim c := h.reach (fun _ _ => trivial)
  obtain ⟨t, hst⟩ : ∃ t, c.shared.Stated t o.id .confirmed := by
    rcases (attributed_reach hreach).row o ho with hp | hst
    · rw [hs] at hp
      cases hp
    · rwa [hs] at hst
  refine ⟨fun hq => ?_, fun hq => ?_⟩
  · have hcertain : c.shared.Certain (fun _ => False) :=
      certain_reach (h.reach (fun _ _ _ _ _ _ _ _ _ _ _ h => h))
    rcases vouched_row hreach ho (hcertain t o.id (.inl hst)) with ⟨_, hr⟩ | ⟨hq', _⟩
    · exact hr
    · rw [hq] at hq'
      simp [EventClass.queue] at hq'
  · by_contra hnone
    have hcertain : c.shared.Certain (· = o.id) := by
      refine certain_reach (h.reach (fun d hd => ?_))
      rintro u url payload timeout he m e hm hn rfl
      exact hnone ⟨d, hd, u, url, payload, timeout, m, he, hm, hn⟩
    rcases vouched_row hreach ho (hcertain t o.id (.inl hst)) with ⟨hq', _⟩ | ⟨_, hp⟩
    · rw [hq] at hq'
      simp [EventClass.queue] at hq'
    · exact hp rfl

end

/-- An event of the queue is confirmed. -/
def World.confirms (w : World) (queue : String) : Bool :=
  w.db.outbox.rows.any (fun o => o.queue = queue && decide (o.status = .confirmed))

theorem World.exists_confirmed {w : World} {queue : String} (h : w.confirms queue = true) :
    ∃ o ∈ w.db.outbox.rows, o.queue = queue ∧ o.status = .confirmed := by
  simpa [confirms] using h

def notifiedConfig : Config World Op Op.Res Exc Reply :=
  (after {} notifiedRun).get notifiedRun_some

set_option maxRecDepth 20000 in
theorem notified_confirms :
    notifiedConfig.shared.confirms EventClass.paymentCreatedEvent.queue = true ∧
    notifiedConfig.shared.confirms EventClass.paymentProcessedEvent.queue = true := by
  decide +kernel

theorem notified_path : ∃ ds, (sampleService {}).Path (Config.initial {}) ds notifiedConfig := by
  obtain ⟨ds, hd, _⟩ := (reachable_after notifiedRun_some).path
  exact ⟨ds, hd⟩

theorem confirmed_sound_notified : ∃ ds, (sampleService {}).Path (Config.initial {}) ds
      notifiedConfig ∧
    (∃ o ∈ notifiedConfig.shared.db.outbox.rows, o.status = .confirmed ∧
      notifiedConfig.shared.Reports o) ∧
    ∃ o ∈ notifiedConfig.shared.db.outbox.rows, o.status = .confirmed ∧ Notified ds o.id := by
  obtain ⟨ds, hd⟩ := notified_path
  obtain ⟨o, ho, hq, hs⟩ := World.exists_confirmed notified_confirms.1
  obtain ⟨o', ho', hq', hs'⟩ := World.exists_confirmed notified_confirms.2
  exact ⟨ds, hd, ⟨o, ho, hs, (@confirmed_sound sample {} _ ds hd o ho hs).1 hq⟩,
    o', ho', hs', (@confirmed_sound sample {} _ ds hd o' ho' hs').2 hq'⟩

end Payments
