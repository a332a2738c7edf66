import Payments.Proofs.Outages

namespace Payments

open Lib

/-- A committed payment has the key. -/
def Db.Taken (db : Db) (key : UUID) : Prop := ∃ r ∈ db.payments.rows, r.idempotencyKey = key

theorem Db.Taken.grows {db db' : Db} {key : UUID} (h : db.Taken key) (hg : db.Grows db') :
    db'.Taken key := by
  obtain ⟨r, hr, rfl⟩ := h
  obtain ⟨r', hr', he⟩ := hg.payment r hr
  exact ⟨r', hr', by rw [he.1]⟩

/-- The step does not insert a payment under the key where a committed one has it. -/
def RivalFree (key : UUID) (w : World) (m : Move Op Choice Req Env) : Prop :=
  ∀ t values, m = .run t (.insertPayment values) .ok → values.idempotencyKey = key →
    ¬ w.db.Taken key

/-- The steps of a run in which nothing fails and no insert meets its rival. -/
def Unopposed (key : UUID) (w : World) (m : Move Op Choice Req Env) : Prop :=
  works m = true ∧ w.db.Sound ∧ RivalFree key w m

/-- The other threads keep their promises and tell nothing of this one. -/
def Rivals (t : Tid) (w w' : World) : Prop :=
  World.Rely t w w' ∧ ∀ o, (t, o) ∈ w'.trace → (t, o) ∈ w.trace

theorem Rivals.trans {t : Tid} {w w' w'' : World} (h : Rivals t w w') (h' : Rivals t w' w'') :
    Rivals t w w'' :=
  ⟨h.1.trans h'.1, fun o ho => h.2 o (h'.2 o ho)⟩

/-- The thread has told of no commit. -/
def Untold (t : Tid) (w : World) : Prop := ∀ ws, (t, .committed ws) ∉ w.trace

/-- The transaction of a creation before its commit. -/
def Before (t : Tid) (ws : List Write) (F : World → Prop) (w : World) : Prop :=
  During t ws F w ∧ Untold t w

/-- A creation is rejected: a committed payment has the key, and nothing is committed. -/
structure Rejected (key : UUID) (t : Tid) (e : Exc) (w : World) : Prop where
  exists_ : ∃ message, e = .exists_ message
  taken : w.db.Taken key
  untold : Untold t w

/-- The thread has created the payment with the key. -/
def Winner (key : UUID) (t : Tid) (w : World) : Prop :=
  ∃ r ∈ w.db.payments.rows, r.idempotencyKey = key ∧ w.drawn r.id = some t

section

variable {key : UUID} {t : Tid} {w w' : World} {ws : List Write} {F : World → Prop} {e : Exc}

theorem Untold.stable (h : Untold t w) (hr : Rivals t w w') : Untold t w' :=
  fun ws hw => h ws (hr.2 _ hw)

theorem Before.stable (hF : Firm t F) (h : Before t ws F w) (hr : Rivals t w w') :
    Before t ws F w' :=
  ⟨hF.during ws _ _ h.1 hr.1, h.2.stable hr⟩

theorem Rejected.stable (h : Rejected key t e w) (hr : Rivals t w w') : Rejected key t e w' :=
  ⟨h.exists_, h.taken.grows hr.1.grows, h.untold.stable hr⟩

theorem Winner.grows (h : Winner key t w) (hg : w.db.Grows w'.db)
    (hd : ∀ u, w.drawn u = some t → w'.drawn u = some t) : Winner key t w' := by
  obtain ⟨r, hr, rfl, hu⟩ := h
  obtain ⟨r', hr', he⟩ := hg.payment r hr
  refine ⟨r', hr', by rw [he.1], ?_⟩
  rw [he.1]
  exact hd _ hu

theorem Winner.stable (h : Winner key t w) (hr : Rivals t w w') : Winner key t w' :=
  h.grows hr.1.grows hr.1.drawn

variable {lim : Limits} {op : Op} {ch : Choice} {r : Except Exc op.Res}

theorem Untold.does (h : Untold t w) (hop : op ≠ .commit) (hd : World.Does lim t w op ch r w') :
    Untold t w' := by
  intro ws hw
  rcases World.does_trace hd with ht | ⟨o, ho, ht⟩ <;> rw [ht] at hw
  · exact h ws hw
  · rcases List.mem_cons.mp hw with he | hw
    · obtain ⟨_, rfl⟩ := Prod.mk.inj he
      cases op <;> first | exact hop rfl | exact ho.elim
    · exact h ws hw

theorem Before.does (hF : Firm t F) (h : Before t ws F w) (hop : op.Reads)
    (hd : World.Does lim t w op ch r w') : Before t ws F w' := by
  refine ⟨hF.during ws _ _ h.1 (reads_rely hop hd), h.2.does ?_ hd⟩
  rintro rfl
  exact hop

end

section

variable [Externals] {lim : Limits} {key : UUID} {t : Tid} {w : World} {ws : List Write}
  {F : World → Prop} {α β : Type}

/-- A program of a creation among its rivals. -/
abbrev Contends (lim : Limits) (key : UUID) (t : Tid) (p : Service α)
    (Q : Except Exc α → World → Prop) (w : World) : Prop :=
  wp (service lim) (Unopposed key) (.relying Rivals) t p Q w

theorem contend_op {op : Op} {Q : Except Exc op.Res → World → Prop} (P : World → Prop) (hP : P w)
    (stable : ∀ w w', P w → Rivals t w w' → P w')
    (h : ∀ w₁ ch r w₂, P w₁ → Unopposed key w₁ (.run t op ch) → World.Does lim t w₁ op ch r w₂ →
      Q r w₂) : Contends lim key t (perform op) Q w :=
  wp_relying P hP stable (fun w₁ ch r w₂ hp ha he => h w₁ ch r w₂ hp ha (World.exec_does he))

theorem contend_then {p : Service α} {f : α → Service β} {P : α → World → Prop}
    {Q : β → World → Prop} {E : Exc → World → Prop} (hp : Contends lim key t p (Ends P E) w)
    (hf : ∀ a w, P a w → Contends lim key t (f a) (Ends Q E) w) :
    Contends lim key t (p.bind f) (Ends Q E) w :=
  wp_seq _ hp hf (fun _ _ h => h)

theorem contend_read {op : Op} {E : Exc → World → Prop} (ho : op.Reads) (hF : Firm t F)
    (h : Before t ws F w) :
    Contends lim key t (perform op) (Ends (fun _ => Before t ws F) E) w := by
  refine contend_op _ h (fun _ _ h hr => h.stable hF hr) (fun w₁ ch r w₂ h ha hd => ?_)
  have h' := h.does hF ho hd
  cases hd with
  | fault | lostCommit | lostPublish => cases ha.1
  | refusePayment | conflict | refuseOutbox => exact ho.elim
  | _ => exact h'

theorem contend_uuid4 {E : Exc → World → Prop} (hF : Firm t F) (h : Before t ws F w) :
    Contends lim key t (perform .uuid4)
      (Ends (fun u => Before t ws (fun w => F w ∧ Drawn t u w)) E) w := by
  refine contend_op _ h (fun _ _ h hr => h.stable hF hr) (fun w₁ ch r w₂ h ha hd => ?_)
  have h' := @Before.does t w₁ w₂ ws F lim .uuid4 ch r hF h trivial hd
  cases hd with
  | fault => cases ha.1
  | uuid4 hu => exact ⟨⟨h'.1.1, h'.1.2, by simp, hu.2.2⟩, h'.2⟩

/-- The first check finds the payment with the key, or overlooks it where its row is locked. -/
theorem contend_getByKey {k : IdempotencyKey} {E : Exc → World → Prop} (hk : k.value = key)
    (h : Before t [] (fun _ => True) w) :
    Contends lim key t (PaymentRepository.getByKey k) (Ends (fun x w =>
      Before t [] (fun _ => True) w ∧ (x.isSome = true → w.db.Taken key)) E) w := by
  have htrue : Firm t (fun _ => True) := .const True
  refine contend_then (P := fun row w => Before t [] (fun _ => True) w ∧ ∀ r, row = some r →
    (∃ items, r.metadata = .obj items) ∧ w.db.Taken key) (contend_op _ h
      (fun _ _ h hr => h.stable htrue hr) (fun w₁ ch r w₂ h ha hd => ?_)) (fun row w hw => ?_)
  · have h' := @Before.does t w₁ w₂ [] _ lim (.selectPaymentByKey k.value) ch r htrue h trivial hd
    cases hd with
    | fault => cases ha.1
    | lockKey hr hkey =>
      have hmem := World.view_nil h.1.1 ▸ hr
      refine ⟨h', fun r he => ?_⟩
      cases he
      exact ⟨ha.2.1.metadata _ hmem, _, hmem, hkey.trans hk⟩
    | skipKey => exact ⟨h', fun _ he => by cases he⟩
  · obtain ⟨h, hrow⟩ := hw
    cases row with
    | none => exact ⟨h, fun he => by cases he⟩
    | some r =>
      obtain ⟨hmeta, htaken⟩ := hrow r rfl
      obtain ⟨p, hp⟩ := toDomain_obj hmeta
      simp only [hp, Prog.bind_eq, Prog.ofExcept_ok_bind]
      exact ⟨h, fun _ => htaken⟩

/-- The second check and the insert: a payment that the first check has overlooked is seen, and the
insert meets no rival. -/
theorem contend_add {p : Payment} {row : PaymentRow} {eventId : UUID}
    (hrow : (PaymentRepository.values p).toRow = .ok row) (hk : p.key.value = key)
    (h : Before t [] (fun w => Drawn t p.id.value w ∧ Drawn t eventId w) w) :
    Contends lim key t (PaymentRepository.add p)
      (Ends (fun _ => Before t [.insertPayment row] (Opened t row eventId)) (Rejected key t)) w := by
  have hF : Firm t (fun w => Drawn t p.id.value w ∧ Drawn t eventId w) :=
    (firm_drawn _).and (firm_drawn _)
  obtain ⟨hrid, hrkey⟩ := World.toRow_id hrow
  refine contend_then (P := fun x w => Before t [] (fun w => Drawn t p.id.value w ∧
    Drawn t eventId w) w ∧ (x.isSome = true → w.db.Taken key)) (contend_op _ h
      (fun _ _ h hr => h.stable hF hr) (fun w₁ ch r w₂ h ha hd => ?_)) (fun x w hw => ?_)
  · cases hd with
    | fault => cases ha.1
    | readKey hr hkey => exact ⟨h, fun _ => ⟨_, World.view_nil h.1.1 ▸ hr, hkey.trans hk⟩⟩
    | missKey => exact ⟨h, fun he => by cases he⟩
  obtain ⟨h, htaken⟩ := hw
  cases x with
  | some _ => exact ⟨⟨_, rfl⟩, htaken rfl, h.2⟩
  | none =>
    refine contend_then (P := fun _ => Before t [.insertPayment row] (Opened t row eventId))
      (contend_op _ h (fun _ _ h hr => h.stable hF hr) (fun w₁ ch r w₂ h ha hd => ?_))
      (fun _ w h => contend_read trivial (firm_opened row eventId) h)
    have htold : Untold t w₂ := h.2.does (by simp) hd
    have hview : w₁.view t = w₁.db := World.view_nil h.1.1
    cases hd with
    | fault => cases ha.1
    | refusePayment hv => cases hrow.symm.trans hv
    | conflict hv hr hc =>
      cases hrow.symm.trans hv
      rw [hview] at hr
      rcases hc with hc | hc
      · exact absurd (hc.trans hrid) (Table.find_none.mp h.1.2.1.2.1 _ hr)
      · exact absurd ⟨_, hr, hc.trans (hrkey.trans hk)⟩ (ha.2.2 t _ rfl hk)
    | insertPayment hv hn hf =>
      cases hrow.symm.trans hv
      have hfree : ∀ x ∈ [Write.insertPayment row], ∀ r ∈ x.resources, w₁.Free t r := by
        simpa using hf
      obtain ⟨hd₁, hd₂⟩ := hF _ _ h.1.2 (.write hfree)
      refine ⟨⟨by simp [h.1.1], ⟨?_, fun r hr => ?_⟩, hrid ▸ hd₁, hd₂⟩, htold⟩
      · simp [World.write_lock, World.hold_lock, Write.resources]
      · exact (hn r (hview ▸ hr)).2

/-- The values of the command are valid, and the tables can store them. -/
structure CreatePaymentCommand.Storable (command : CreatePaymentCommand) (parts : PaymentParts) :
    Prop where
  valid : command.parts = .ok parts
  amount : storeNumeric parts.amount.value ≠ none
  metadata : ∃ json, storeJson parts.metadata.asDict = .ok json

theorem contend_create {command : CreatePaymentCommand} {parts : PaymentParts}
    (hc : command.Storable parts) (hk : command.key = key) (h : Before t [] (fun _ => True) w) :
    Contends lim key t (PaymentService.create parts.amount parts.currency parts.description
      parts.metadata parts.key parts.webhookUrl) (Ends (fun p w => ∃ row eventId occurredAt,
        p.events = [createdEvent row.id eventId occurredAt] ∧ row.idempotencyKey = key ∧
        Before t [.insertPayment row] (Opened t row eventId) w) (Rejected key t)) w := by
  have hkey : parts.key.value = key := (idempotency_key_value (parts_ok hc.valid).2.1).trans hk
  have htrue : Firm t (fun _ => True) := .const True
  refine contend_then (contend_getByKey hkey h) (fun existing w hw => ?_)
  obtain ⟨h, htaken⟩ := hw
  cases existing with
  | some _ => exact ⟨⟨_, rfl⟩, htaken rfl, h.2⟩
  | none =>
    refine contend_then (contend_uuid4 htrue h) (fun id w h => ?_)
    have hF := htrue.and (firm_drawn (t := t) id)
    refine contend_then (contend_read trivial hF h) (fun createdAt w h => ?_)
    refine contend_then (contend_uuid4 hF h) (fun eventId w h => ?_)
    refine contend_then (contend_read trivial (hF.and (firm_drawn _)) h) (fun occurredAt w h => ?_)
    simp only [Payment.postInit, Payment.recordEvent, Prog.ofExcept, Prog.bind_eq, Prog.bind,
      ne_eq, not_true_eq_false, false_and, Bool.false_eq_true, ↓reduceIte]
    obtain ⟨value, ha⟩ := Option.ne_none_iff_exists'.mp hc.amount
    obtain ⟨json, hm⟩ := hc.metadata
    have hbefore : Before t [] (fun w => Drawn t id w ∧ Drawn t eventId w) w :=
      ⟨⟨h.1.1, h.1.2.1.2, h.1.2.2⟩, h.2⟩
    refine contend_then (contend_add (by
      simp only [PaymentRepository.values, PaymentValues.toRow, hm, ha]
      rfl) hkey hbefore) (fun _ w h => ?_)
    exact ⟨_, eventId, occurredAt, rfl, hkey, h⟩

theorem contend_add_event {e : PaymentEvent} {o : OutboxRow} {row : PaymentRow}
    {E : Exc → World → Prop} (hst : e.StoredAs o)
    (h : Before t [.insertPayment row] (Opened t row o.id) w) :
    Contends lim key t (OutboxRepository.add [e]) (Ends (fun _ =>
      Before t [.insertPayment row, .insertOutbox o] (Opened t row o.id)) E) w := by
  have hF := firm_opened (t := t) row o.id
  obtain ⟨s, hr, heq⟩ := add_event_eq hst
  rw [heq]
  refine contend_then (P := fun _ => Before t [.insertPayment row, .insertOutbox o]
    (Opened t row o.id)) (contend_op _ h (fun _ _ h hr => h.stable hF hr)
      (fun w₁ ch x w₂ h ha hd => ?_)) (fun _ _ h => contend_read trivial hF h)
  have htold : Untold t w₂ := h.2.does (by simp) hd
  have hn : (w₁.view t).outbox.find? o.id = none := by
    rw [World.view, h.1.1]
    exact h.1.2.2.2.2.2
  rcases insert_one hd hr hn with ⟨_, rfl, _⟩ | ⟨rfl, rfl, hf⟩
  · cases ha.1
  · exact ⟨⟨by simp [h.1.1], hF _ _ h.1.2 (.write hf)⟩, htold⟩

theorem contend_commit {row : PaymentRow} {o : OutboxRow} {eventId : UUID} {E : Exc → World → Prop}
    (h : Before t [.insertPayment row, .insertOutbox o] (Opened t row eventId) w) :
    Contends lim row.idempotencyKey t Uow.commit (Ends (fun _ => Winner row.idempotencyKey t) E)
      w := by
  have hF := firm_opened (t := t) row eventId
  refine wp_catch (Ends (fun _ => Winner row.idempotencyKey t) (fun _ _ => False))
    (contend_op _ h (fun _ _ h hr => h.stable hF hr) (fun w₁ ch r w₂ h ha hd => ?_))
    (fun _ _ hw => hw) (fun _ _ hw => hw.elim)
  cases hd with
  | fault | lostCommit => cases ha.1
  | commit =>
    refine ⟨row, ?_, rfl, h.1.2.2.1.1⟩
    rw [World.commit_db, World.view, h.1.1]
    exact (Db.mem_payments_create h.1.2.2.1.2.1).mpr (.inr rfl)

/-- A unit of work of a creation ends as its body does. -/
theorem contend_within {body : Service α} {P : α → Prop}
    (h : Contends lim key t body (Ends (fun a w => P a ∧ Winner key t w) (Rejected key t)) w) :
    Contends lim key t (Uow.within body) (Ends (fun a w => P a ∧ Winner key t w)
      (Rejected key t)) w := by
  refine wp_within h (fun e w hw => ?_) (fun a w hw => ?_) (fun e w hw => ?_)
  · refine contend_op _ hw (fun _ _ h hr => h.stable hr) (fun w₁ ch r w₂ h ha hd => ?_)
    cases hd with
    | fault => cases ha.1
    | rollback => exact ⟨h.exists_, h.taken, h.untold⟩
  · refine contend_op _ hw.2 (fun _ _ h hr => h.stable hr) (fun w₁ ch r w₂ h ha hd => ?_)
    cases hd with
    | fault => cases ha.1
    | close => exact ⟨hw.1, h⟩
  · refine contend_op _ hw (fun _ _ h hr => h.stable hr) (fun w₁ ch r w₂ h ha hd => ?_)
    cases hd with
    | fault => cases ha.1
    | close => exact ⟨h.exists_, h.taken, h.untold⟩

theorem contend_publish {e : PaymentEvent} {body : Json} {q : RabbitQueue} {E : Exc → World → Prop}
    (hq : EventBus.queueRegistry e.cls = some q) (hp : parseEventToMessage e = .ok body)
    (h : Winner key t w) :
    Contends lim key t (EventBus.publishPaymentEvents [e]) (Ends (fun _ => Winner key t) E) w := by
  refine contend_then (P := fun _ => Winner key t) ?_ (fun _ _ h => h)
  unfold EventBus.publishPaymentEvent
  simp only [hq, hp]
  refine wp_catch (Ends (fun _ => Winner key t) (fun _ _ => False)) (contend_op _ h
    (fun _ _ h hr => h.stable hr) (fun w₁ ch r w₂ h ha hd => ?_)) (fun _ _ hw => hw)
    (fun _ _ hw => hw.elim)
  cases hd with
  | fault | lostPublish => cases ha.1
  | publish => exact h

/-- A creation among its rivals creates the payment, or is rejected. -/
theorem contend_create_payment {command : CreatePaymentCommand} {parts : PaymentParts}
    (hc : command.Storable parts) (hk : command.key = key) (h : Before t [] (fun _ => True) w) :
    Contends lim key t (createPayment command) (Ends (fun _ => Winner key t) (Rejected key t)) w := by
  rw [create_payment_eq hc.valid]
  refine contend_then (P := fun x w => (∃ id eventId occurredAt,
    x.2 = [createdEvent id eventId occurredAt]) ∧ Winner key t w) (contend_within ?_)
    (fun x w hw => ?_)
  · refine contend_then (contend_create hc hk h) (fun p w hw => ?_)
    obtain ⟨row, eventId, occurredAt, hev, rfl, h⟩ := hw
    simp only [Payment.pullEvents, hev]
    refine contend_then (contend_add_event (created_stored row.id eventId occurredAt) h)
      (fun _ w h => ?_)
    exact contend_then (contend_commit h) (fun _ _ h => ⟨⟨_, _, _, rfl⟩, h⟩)
  · obtain ⟨⟨id, eventId, occurredAt, hx⟩, h⟩ := hw
    have hst := created_stored id eventId occurredAt
    rw [hx]
    exact contend_then (contend_publish rfl (created_published _ _ _ hst) h) (fun _ _ h => h)

end

/-- The run starts the thread with a creation under the key. -/
def Called (key : UUID)
    (ds : List (Config World Op Op.Res Exc Reply × Move Op Choice Req Env)) (t : Tid) : Prop :=
  ∃ command d, d ∈ ds ∧ d.2 = .start t (.create command) ∧ command.key = key

/-- The effect inserts no payment under the key. -/
def Op.Spares (key : UUID) (op : Op) : Prop :=
  ∀ values, op = .insertPayment values → values.idempotencyKey ≠ key

section

variable [Externals] {lim : Limits} {key : UUID} {t : Tid} {w w' : World}
  {c c' : Config World Op Op.Res Exc Reply}
  {ds : List (Config World Op Op.Res Exc Reply × Move Op Choice Req Env)}
  {m : Move Op Choice Req Env}

omit [Externals] in
theorem Called.cons {d : Config World Op Op.Res Exc Reply × Move Op Choice Req Env}
    (h : Called key ds t) : Called key (d :: ds) t := by
  obtain ⟨command, d', hd, h⟩ := h
  exact ⟨command, d', List.mem_cons_of_mem _ hd, h⟩

omit [Externals] in
theorem Op.Settles.spares {op : Op} (h : op.Settles ∨ op.Emits) : op.Spares key := by
  rintro values rfl
  rcases h with h | ⟨_, _, h⟩
  · exact h.elim
  · cases h

/-- Of what starts only a creation under the key inserts a payment under it. -/
theorem spares_start {req : Req} {p : Service Reply} (h : (service lim).start t req w = some (p, w'))
    (hreq : ∀ command, req = .create command → command.key ≠ key) : p.Only (Op.Spares key) := by
  have hdone : ∀ {α : Type} {p : Service α} {f : α → Reply}, p.Only (Op.Spares key) →
      (p.bind (fun a => .ret (f a))).Only (Op.Spares key) := fun hp =>
    Prog.Only.bind hp (fun _ => trivial)
  have hsubscribe : ∀ {q m n e k x} {uses : Op → Prop} {op : Op}, (∀ op, uses op → op.Spares key) →
      Op.Handles uses q n m e k x op → op.Spares key := by
    rintro q m n e k x uses op huses hop values rfl
    cases hop with
    | claims h | concludes h => exact h.elim
    | uses h => exact huses _ h values rfl
    | buries h =>
      rcases h with h | ⟨_, _, _, h⟩ | ⟨_, h | h⟩ <;> cases h
  cases req with
  | create command =>
    cases h
    refine hdone ((only_create_payment command).mono ?_)
    rintro op hop values rfl
    rcases hop with (hop | hop) | ⟨_, _, hop⟩
    · exact fun he => hreq command rfl (hop.symm.trans he)
    · exact hop.elim
    · cases hop
  | get id =>
    cases h
    refine hdone ((only_get_payment id).mono ?_)
    rintro op hop values rfl
    exact hop.elim
  | poll =>
    cases h
    refine hdone (only_handle_bad_events.mono ?_)
    rintro op hop values rfl
    rcases hop with hop | ⟨_, _, hop⟩
    · exact hop.elim
    · cases hop
  | deliver i =>
    obtain ⟨⟨q, m⟩, _, hm⟩ := Option.bind_eq_some_iff.mp h
    obtain ⟨p, hp, he⟩ := Option.map_eq_some_iff.mp hm
    cases he
    apply hdone
    unfold subscriber at hp
    split at hp
    · cases hp
      exact only_handlePaymentProcessing (fun _ h => by cases h) (fun _ _ _ hop =>
        hsubscribe (fun _ h => Op.Settles.spares h) hop)
    · split at hp
      · cases hp
        refine only_handleNotifyClient (fun _ _ _ hop => hsubscribe (fun op h => ?_) hop)
        rintro values rfl
        obtain ⟨_, _, _, h⟩ := h
        cases h
      · cases hp

/-- What only the calls under a key do: they alone insert payments under it, and the payment with
the key is committed by one of them. -/
structure Contest (key : UUID)
    (ds : List (Config World Op Op.Res Exc Reply × Move Op Choice Req Env))
    (c : Config World Op Op.Res Exc Reply) : Prop where
  programs : ∀ u p, c.threads u = some p → Called key ds u ∨ p.Only (Op.Spares key)
  pending : ∀ u row, .insertPayment row ∈ c.shared.pend u → row.idempotencyKey = key →
    Called key ds u
  rows : ∀ r ∈ c.shared.db.payments.rows, r.idempotencyKey = key →
    ∃ u ws, Called key ds u ∧ c.shared.drawn r.id = some u ∧ (u, .committed ws) ∈ c.shared.trace

/-- Who has drawn an identifier does not change. -/
theorem step_drawn (hs : (service lim).Step c m c') {a : UUID} {u : Tid}
    (h : c.shared.drawn a = some u) : c'.shared.drawn a = some u := by
  cases hs with
  | run _ he => exact World.does_drawn (World.exec_does he) h
  | exit | kill => exact h
  | start he =>
    obtain ⟨_, _, _, hw⟩ := World.start_same he
    rw [show (Config.put _ _ _ _).shared = _ from hw]
    exact h
  | env he =>
    obtain ⟨_, _, hw⟩ := World.environment_same he
    rw [hw]
    exact h

/-- The tables change where a thread commits, which is told. -/
theorem step_commits (hs : (service lim).Step c m c') : c'.shared.db = c.shared.db ∨
    ∃ u, c'.shared.db = c.shared.view u ∧ (u, .committed (c.shared.pend u)) ∈ c'.shared.trace := by
  cases hs with
  | @run u op k ch r w hu he =>
    have hd := World.exec_does he
    by_cases hc : op = .commit
    · subst hc
      cases hd with
      | fault => exact .inl rfl
      | commit | lostCommit => exact .inr ⟨u, rfl, List.mem_cons_self⟩
    · exact .inl (World.does_db hd hc)
  | exit | kill => exact .inl rfl
  | start he =>
    obtain ⟨_, _, _, hw⟩ := World.start_same he
    rw [show (Config.put _ _ _ _).shared = _ from hw]
    exact .inl rfl
  | env he =>
    obtain ⟨_, _, hw⟩ := World.environment_same he
    rw [hw]
    exact .inl rfl

theorem Contest.step (h : Contest key ds c) (hr : Reachable lim c) (hs : (service lim).Step c m c') :
    Contest key ((c, m) :: ds) c' := by
  have hput : ∀ (n : Tid) (p : Option (Service Reply)) (w : World),
      (∀ q, p = some q → Called key ((c, m) :: ds) n ∨ q.Only (Op.Spares key)) →
      ∀ u q, (c.put n p w).threads u = some q →
        Called key ((c, m) :: ds) u ∨ q.Only (Op.Spares key) := by
    intro n p w hp u q hq
    by_cases hn : u = n
    · subst hn
      simp only [Config.put, Function.update_self] at hq
      exact hp q hq
    · simp only [Config.put, Function.update_of_ne hn] at hq
      exact (h.programs u q hq).imp Called.cons id
  have hpend : ∀ u row, .insertPayment row ∈ c.shared.pend u → row.idempotencyKey = key →
      Called key ((c, m) :: ds) u := fun u row hx hk => (h.pending u row hx hk).cons
  have hdrop : ∀ n u row, .insertPayment row ∈ (c.shared.drop n).pend u →
      row.idempotencyKey = key → Called key ((c, m) :: ds) u := by
    intro n u row hx hk
    by_cases hn : n = u
    · subst hn
      simp at hx
    · exact hpend u row (World.drop_pend_other hn ▸ hx) hk
  refine ⟨?_, ?_, fun r hmem hk => ?_⟩
  · cases hs with
    | @run u op k ch r w hu he =>
      refine hput _ _ _ (fun q hq => ?_)
      cases hq
      exact (h.programs u _ hu).imp Called.cons (fun hp => hp.2 r)
    | exit | kill => exact hput _ _ _ (fun q hq => by cases hq)
    | @start req p w he =>
      refine hput c.next (some p) w (fun q hq => ?_)
      cases hq
      by_cases hreq : ∃ command, req = .create command ∧ command.key = key
      · obtain ⟨command, rfl, hk⟩ := hreq
        exact .inl ⟨command, _, List.mem_cons_self, rfl, hk⟩
      · exact .inr (spares_start he (fun command hc hk => hreq ⟨command, hc, hk⟩))
    | env he => exact fun u q hq => (h.programs u q hq).imp Called.cons id
  · cases hs with
    | @run u op k ch r w hu he =>
      intro v row hx hk
      rcases World.does_pend (World.exec_does he) hx with hold | ⟨rfl, hwrites⟩
      · exact hpend v row hold hk
      · cases op with
        | insertPayment values =>
          refine ((h.programs v _ hu).resolve_right (fun hp => hp.1 values rfl ?_)).cons
          exact (World.toRow_id hwrites).2.symm.trans hk
        | updatePayment | updateOutbox => cases hwrites
        | _ => exact hwrites.elim
    | exit | kill => exact hdrop _
    | start he =>
      obtain ⟨_, _, _, hw⟩ := World.start_same he
      rw [show (Config.put _ _ _ _).shared = _ from hw]
      exact hpend
    | env he =>
      obtain ⟨_, _, hw⟩ := World.environment_same he
      rw [hw]
      exact hpend
  · have hold : ∀ r ∈ c.shared.db.payments.rows, r.idempotencyKey = key → ∃ u ws,
        Called key ((c, m) :: ds) u ∧ c'.shared.drawn r.id = some u ∧
          (u, .committed ws) ∈ c'.shared.trace := by
      intro r hmem hk
      obtain ⟨u, ws, hu, hd, ht⟩ := h.rows r hmem hk
      exact ⟨u, ws, hu.cons, step_drawn hs hd, step_seen hs _ ht⟩
    rcases step_commits hs with hdb | ⟨u, hdb, ht⟩ <;> rw [hdb] at hmem
    · exact hold r hmem hk
    · -- the rows of a commit are the old ones, settled or not, and those that its thread inserts
      refine Db.forall_applyAll_payments (p := fun r => r.idempotencyKey = key → ∃ u ws,
        Called key ((c, m) :: ds) u ∧ c'.shared.drawn r.id = some u ∧
          (u, .committed ws) ∈ c'.shared.trace) hold (fun row hx hk => ?_) ?_ r hmem hk
      · exact ⟨u, _, hpend u row hx hk,
          step_drawn hs ((reachable_holds hr).inv.payment u row hx), ht⟩
      · exact fun _ _ _ hp => hp

theorem contest_path (h : Reachable lim c) (hq : ∀ u, c.threads u = none)
    (hnew : ∀ r ∈ c.shared.db.payments.rows, r.idempotencyKey ≠ key)
    (h' : (service lim).Path c ds c') : Contest key ds c' := by
  induction h' with
  | init =>
    refine ⟨fun u p hp => ?_, fun u row hx => ?_, fun r hr hk => absurd hk (hnew r hr)⟩
    · rw [hq u] at hp
      cases hp
    · have hlock := (reachable_holds h).inv.locked u _ hx (.payment row.id) (by simp [Write.resources])
      exact absurd (hq u) (lock_running h _ u hlock)
  | step hpath hs ih => exact ih.step (h.trans (hpath.reach (fun _ _ => trivial))) hs

/-- A thread that has ended tells nothing more. -/
theorem idle_told {o : Obs} (ht : c.threads t = none) (hlt : t < c.next)
    (h' : (service lim).Reach (fun _ _ => True) c c') :
    t < c'.next ∧ c'.threads t = none ∧ ((t, o) ∈ c'.shared.trace → (t, o) ∈ c.shared.trace) := by
  induction h' with
  | init => exact ⟨hlt, ht, id⟩
  | @step d d' m _ _ hs ih =>
    obtain ⟨hlt, ht, htold⟩ := ih
    have hm : m.thread? ≠ some t := by
      intro hm
      cases hs with
      | run hu _ | exit hu _ | kill hu =>
        cases hm
        cases ht.symm.trans hu
      | start =>
        cases hm
        exact absurd hlt (Nat.lt_irrefl _)
      | env => cases hm
    have hnext : t < d'.next := by
      cases hs <;> first | exact hlt | exact Nat.lt_succ_of_lt hlt
    exact ⟨hnext, (hs.other hm).trans ht, fun ho => htold (told_other hs hm ho)⟩

/-- How a call starts in a run, and the rest of the run. -/
theorem Called.start (h : Called key ds t) (hc : Reachable lim c) (h' : (service lim).Path c ds c') :
    ∃ command ds₁ e e', command.key = key ∧ Reachable lim e ∧
      (service lim).Step e (.start t (.create command)) e' ∧ (service lim).Path e' ds₁ c' ∧
      (∀ d ∈ ds₁, d ∈ ds) ∧ ∃ d ∈ ds, d.2 = .start t (.create command) := by
  obtain ⟨command, d, hd, hstart, hk⟩ := h
  obtain ⟨ds₁, ds₂, e', rfl, h₂, hs, h₁⟩ := h'.split hd
  refine ⟨command, ds₁, d.1, e', hk, hc.trans (h₂.reach (fun _ _ => trivial)), hstart ▸ hs, h₁, ?_,
    d, hd, hstart⟩
  exact fun d hd => List.mem_append_left _ hd

theorem reach_drawn (h : (service lim).Reach (fun _ _ => True) c c') {a : UUID} {u : Tid}
    (ha : c.shared.drawn a = some u) : c'.shared.drawn a = some u := by
  induction h with
  | init => exact ha
  | step _ _ hs ih => exact step_drawn hs ih

variable {command : CreatePaymentCommand} {x : Except Exc Reply}
  {e e' : Config World Op Op.Res Exc Reply}

/-- A call that meets no rival at its insert creates the payment and responds, or is rejected. -/
theorem call_ends {parts : PaymentParts} (h : Reachable lim e) (hc : command.Storable parts)
    (hs : (service lim).Step e (.start t (.create command)) e') (h' : (service lim).Path e' ds c')
    (hw : ∀ d ∈ ds, works d.2 = true) (hfree : ∀ d ∈ ds, RivalFree command.key d.1.shared d.2)
    (hx : .ended x ∈ c'.shared.story t) :
    (∃ response, x = .ok (.created response)) ∧ Winner command.key t c'.shared ∨
      ∃ e, x = .error e ∧ Rejected command.key t e c'.shared := by
  obtain ⟨p, ⟨w, hp⟩, hlt, ht, hstory, hpend, htrace⟩ := started_fresh h hs (by simp)
  obtain ⟨rfl, _⟩ := Prod.mk.inj (Option.some.inj hp)
  have hr' : Reachable lim e' := h.step trivial hs
  have hreach : (service lim).Reach (Unopposed command.key) e' c' :=
    h'.reach (fun d hd => ⟨hw d hd, (reachable_holds (hr'.trans (h'.reach_mem
      (fun _ _ => trivial) hd))).inv.sound, hfree d hd⟩)
  have hall : ∀ {d}, (service lim).Reach (Unopposed command.key) e' d → Reachable lim d :=
    fun hd => hr'.trans (hd.mono (fun _ _ _ => trivial))
  let Q : Except Exc Reply → World → Prop := fun x w =>
    (∃ response, x = .ok (.created response)) ∧ Winner command.key t w ∨
      ∃ e, x = .error e ∧ Rejected command.key t e w
  have hwp : ∀ p, e'.threads t = some p → wp (service lim) (Unopposed command.key)
      (.relying Rivals) t p Q e'.shared := by
    intro p hp
    cases ht.symm.trans hp
    have hbefore : Before t [] (fun _ => True) e'.shared := ⟨⟨hpend, trivial⟩, htrace⟩
    exact wp_seq _ (contend_create_payment hc rfl hbefore) (fun r _ hw => .inl ⟨⟨r, rfl⟩, hw⟩)
      (fun e _ hw => .inr ⟨e, rfl, hw⟩)
  obtain ⟨d, d', hd, hexit, hthen, hq⟩ := ended_meets (C := .relying Rivals) hlt
    (by rw [hstory]; exact List.not_mem_nil) hwp (fun w => ⟨World.Rely.refl t w, fun _ => id⟩)
    (fun _ _ _ hr hr' => Rivals.trans hr hr')
    (fun _ _ _ hq hr => hq.imp (And.imp_right (Winner.stable · hr))
      (fun ⟨e, he, hw⟩ => ⟨e, he, Rejected.stable hw hr⟩)) (fun _ _ => trivial)
    (fun d _ _ hd _ hs hm => ⟨contract_valid.rely_step (reachable_holds (hall hd)) trivial hs hm,
      fun _ => told_other hs hm⟩) hreach hx
  have hthen' : (service lim).Reach (fun _ _ => True) d' c' := hthen.mono (fun _ _ _ => trivial)
  have hafter : (service lim).Reach (fun _ _ => True) d c' :=
    (Sys.Reach.init.step trivial hexit).trans hthen'
  rcases hq with ⟨hx, hwin⟩ | ⟨e, he, hrej⟩
  · exact .inl ⟨hx, hwin.grows (reach_grows (hall hd) hafter) (fun _ => reach_drawn hafter)⟩
  · refine .inr ⟨e, he, hrej.exists_, hrej.taken.grows (reach_grows (hall hd) hafter),
      fun ws hws => ?_⟩
    have hnone : d'.threads t = none ∧ t < d'.next ∧
        ((t, .committed ws) ∈ d'.shared.trace → (t, .committed ws) ∈ d.shared.trace) := by
      cases hexit with
      | exit hu _ =>
        refine ⟨Function.update_self _ _ _, ((reachable_holds (hall hd)).running _ _ hu).1,
          fun hm => ?_⟩
        rcases List.mem_cons.mp hm with he | hm
        · cases he
        · exact hm
    exact hrej.untold ws (hnone.2.2 ((idle_told hnone.1 hnone.2.1 hthen').2.2 hws))

omit [Externals] in
/-- The tables refuse an insert under the key of a committed payment, and not as a duplicate of it. -/
theorem insert_taken {values : PaymentValues} (h : w.db.Taken values.idempotencyKey) :
    ∃ e, (∀ message, e ≠ .exists_ message) ∧ ∀ r w',
      w.exec lim t (.insertPayment values) .ok = some (r, w') → r = .error e := by
  cases hv : values.toRow with
  | error e =>
    refine ⟨e, fun message he => ?_, fun r w' hexec => ?_⟩
    · rcases World.toRow_error hv with ⟨_, rfl⟩ | rfl <;> cases he
    · cases World.exec_does hexec with
      | refusePayment hv' =>
        cases hv.symm.trans hv'
        rfl
      | conflict hv' | insertPayment hv' => cases hv.symm.trans hv'
  | ok row =>
    refine ⟨.integrity, (fun _ he => by cases he), fun r w' hexec => ?_⟩
    cases World.exec_does hexec with
    | refusePayment hv' => cases hv.symm.trans hv'
    | conflict => rfl
    | insertPayment hv' hn =>
      cases hv.symm.trans hv'
      obtain ⟨r, hr, hk⟩ : (w.view t).Taken values.idempotencyKey := Db.key_applyAll h
      exact absurd (hk.trans (World.toRow_id hv).2.symm) (hn r hr).2

/-- The calls under a key have created one payment with one created event: one of them has responded,
and the others have been told that the payment exists and have committed nothing. -/
structure CreatedOnce (key : UUID)
    (ds : List (Config World Op Op.Res Exc Reply × Move Op Choice Req Env)) (w : World) : Prop where
  row : ∃ r ∈ w.db.payments.rows, r.idempotencyKey = key ∧
    (∀ r' ∈ w.db.payments.rows, r'.idempotencyKey = key → r' = r) ∧
    ∃ o ∈ w.db.outbox.rows, r.Created o ∧ ∀ o' ∈ w.db.outbox.rows, r.Created o' → o' = o
  calls : ∃ t response, Called key ds t ∧ .ended (.ok (.created response)) ∈ w.story t ∧
    ∀ u, Called key ds u → u ≠ t →
      (∃ message, .ended (.error (.exists_ message)) ∈ w.story u) ∧ ∀ ws, (u, .committed ws) ∉ w.trace

/-- In a run in which nothing fails and all calls under a new key end, they create one payment exactly
where no insert under the key meets a committed payment with it. -/
theorem created_once (h : Reachable lim c) (hq : ∀ u, c.threads u = none)
    (hnew : ¬ c.shared.db.Taken key) (h' : (service lim).Path c ds c')
    (hw : ∀ d ∈ ds, works d.2 = true) (hcalled : ∃ t, Called key ds t)
    (hstorable : ∀ d ∈ ds, ∀ t command, d.2 = .start t (.create command) → command.key = key →
      ∃ parts, command.Storable parts)
    (hended : ∀ t, Called key ds t → ∃ x, .ended x ∈ c'.shared.story t) :
    CreatedOnce key ds c'.shared ↔ ∀ d ∈ ds, RivalFree key d.1.shared d.2 := by
  have hnone : ∀ r ∈ c.shared.db.payments.rows, r.idempotencyKey ≠ key :=
    fun r hr hk => hnew ⟨r, hr, hk⟩
  have hi := (reachable_holds (h.trans (h'.reach (fun _ _ => trivial)))).inv
  constructor
  · rintro ⟨_, t₀, response, _, hresponse, hothers⟩ d hd t values hm hk htaken
    -- the thread of the insert is one of the calls
    obtain ⟨ds₁, ds₂, c₁, rfl, h₂, hs, h₁⟩ := h'.split hd
    have hcalls : Called key ds₂ t := by
      have hcontest := contest_path h hq hnone h₂
      rw [hm] at hs
      cases hs with
      | run hu _ => exact (hcontest.programs t _ hu).resolve_right (fun hp => hp.1 _ rfl hk)
    obtain ⟨command, ds₃, e, e', hkey, he, hstart, h₃, hsub, d', hd', hmove⟩ := hcalls.start h h₂
    have hall : ∀ d' ∈ ds₁ ++ d :: ds₃, d' ∈ ds₁ ++ d :: ds₂ := by
      intro d' hd'
      rcases List.mem_append.mp hd' with hd' | hd'
      · exact List.mem_append_left _ hd'
      · rcases List.mem_cons.mp hd' with rfl | hd'
        · exact hd
        · exact List.mem_append_right _ (List.mem_cons_of_mem _ (hsub d' hd'))
    have hpath : (service lim).Path e' (ds₁ ++ d :: ds₃) c' := (h₃.step hs).trans h₁
    have ht : Called key (ds₁ ++ d :: ds₂) t := by
      obtain ⟨command, d', hd', hc⟩ := hcalls
      exact ⟨command, d', List.mem_append_right _ (List.mem_cons_of_mem _ hd'), hc⟩
    obtain ⟨parts, hparts⟩ := hstorable d' (List.mem_append_right _ (List.mem_cons_of_mem _ hd')) t
      command hmove hkey
    obtain ⟨p, ⟨w, hp⟩, hlt, hthread, hstory, _, _⟩ := started_fresh he hstart (by simp)
    obtain ⟨rfl, _⟩ := Prod.mk.inj (Option.some.inj hp)
    obtain ⟨x, hne, hexec⟩ := @insert_taken lim t d.1.shared values (hk ▸ htaken)
    have hraises : ∀ y, .ended y ∈ c'.shared.story t → y = .error x := by
      intro y hy
      obtain ⟨z, hz, rfl⟩ := (ended_course hpath hlt hthread (by rw [hstory]; exact List.not_mem_nil)
        hy).of_map
      rw [create_fails hz hparts.valid (Sys.mem_own.mpr ⟨d, by simp, rfl, hm⟩) rfl (by simp) hexec
        (fun m hm => ?_)]
      · rfl
      · obtain ⟨s, op, ch⟩ := m
        obtain ⟨d', hd', _, hmove⟩ := Sys.mem_own.mp hm
        exact hmove ▸ hw d' (hall d' hd')
    by_cases htt : t = t₀
    · subst htt
      cases hraises _ hresponse
    · obtain ⟨⟨message, hmessage⟩, _⟩ := hothers t ht htt
      exact hne message (Except.error.inj (hraises _ hmessage)).symm
  · intro hfree
    have hends : ∀ t, Called key ds t → ∃ x, .ended x ∈ c'.shared.story t ∧
        ((∃ response, x = .ok (.created response)) ∧ Winner key t c'.shared ∨
          ∃ e, x = .error e ∧ Rejected key t e c'.shared) := by
      intro t ht
      obtain ⟨x, hx⟩ := hended t ht
      obtain ⟨command, ds₁, e, e', rfl, he, hstart, h₁, hsub, d, hd, hmove⟩ := ht.start h h'
      obtain ⟨parts, hparts⟩ := hstorable d hd t command hmove rfl
      exact ⟨x, hx, call_ends he hparts hstart h₁ (fun d hd => hw d (hsub d hd))
        (fun d hd => hfree d (hsub d hd)) hx⟩
    obtain ⟨r, hr, hk⟩ : c'.shared.db.Taken key := by
      obtain ⟨t, ht⟩ := hcalled
      obtain ⟨x, _, ⟨_, r, hr, hk, _⟩ | ⟨_, _, hrej⟩⟩ := hends t ht
      · exact ⟨r, hr, hk⟩
      · exact hrej.taken
    -- whoever has committed that payment has not been rejected
    obtain ⟨t, ws, ht, hdrawn, htold⟩ := (contest_path h hq hnone h').rows r hr hk
    obtain ⟨x, hx, ⟨⟨response, rfl⟩, _⟩ | ⟨_, _, hrej⟩⟩ := hends t ht
    swap
    · exact absurd htold (hrej.untold ws)
    refine ⟨⟨r, hr, hk, fun r' hr' hk' => hi.agree.keys r' hr' r hr (hk'.trans hk.symm),
      hi.agree.created r hr⟩, t, response, ht, hx, fun u hu hne => ?_⟩
    obtain ⟨y, hy, ⟨_, r', hr', hk', hdrawn'⟩ | ⟨e, rfl, hrej⟩⟩ := hends u hu
    · obtain rfl := hi.agree.keys r' hr' r hr (hk'.trans hk.symm)
      exact absurd (Option.some.inj (hdrawn'.symm.trans hdrawn)) hne
    · obtain ⟨message, rfl⟩ := hrej.exists_
      exact ⟨⟨message, hy⟩, hrej.untold⟩

end

/-- The call of a creation that a step starts. -/
def callOf : Move Op Choice Req Env → Option (Tid × CreatePaymentCommand)
  | .start t (.create command) => some (t, command)
  | _ => none

def storable [Externals] (command : CreatePaymentCommand) : Bool :=
  match command.parts with
  | .ok parts => (storeNumeric parts.amount.value).isSome && (storeJson parts.metadata.asDict).isOk
  | .error _ => false

theorem storable_sound [Externals] {command : CreatePaymentCommand} (h : storable command = true) :
    ∃ parts, command.Storable parts := by
  unfold storable at h
  split at h
  · rename_i parts hp
    obtain ⟨ha, hm⟩ := Bool.and_eq_true_iff.mp h
    refine ⟨parts, hp, Option.isSome_iff_ne_none.mp ha, ?_⟩
    cases hj : storeJson parts.metadata.asDict with
    | ok json => exact ⟨json, rfl⟩
    | error e =>
      rw [hj] at hm
      cases hm
  · cases h

def rivalFree (key : UUID) (w : World) : Move Op Choice Req Env → Bool
  | .run _ (.insertPayment values) _ =>
    values.idempotencyKey ≠ key || w.db.payments.rows.all (fun r => r.idempotencyKey ≠ key)
  | _ => true

theorem rivalFree_sound {key : UUID} {w : World} {m : Move Op Choice Req Env}
    (h : rivalFree key w m = true) : RivalFree key w m := by
  rintro t values rfl hk ⟨r, hr, hkey⟩
  simp only [rivalFree, hk, ne_eq, not_true_eq_false, decide_false, Bool.false_or,
    List.all_eq_true, decide_eq_true_eq] at h
  exact h r hr hkey

/-- A run in which nothing fails and each call of a creation is valid and ends. -/
def complete (key : UUID) (y : List (Config World Op Op.Res Exc Reply × Move Op Choice Req Env) ×
    Config World Op Op.Res Exc Reply) : Bool :=
  y.1.all (fun d => works d.2 && (callOf d.2).all (fun x =>
    @storable sample x.2 && ends x.1 y.2.shared.trace)) &&
    y.1.any (fun d => (callOf d.2).any (fun x => x.2.key = key))

def keyedRun (as : Schedule) : Option (List (Config World Op Op.Res Exc Reply ×
    Move Op Choice Req Env) × Config World Op Op.Res Exc Reply) :=
  (sampleService {}).record as (Config.initial {})

theorem callOf_create {m : Move Op Choice Req Env} {t : Tid} {command : CreatePaymentCommand}
    (h : callOf m = some (t, command)) : m = .start t (.create command) := by
  unfold callOf at h
  split at h
  · cases h
    rfl
  · cases h

/-- What a complete run is: the hypotheses of the theorem above. -/
theorem rivals_of_complete {key : UUID} {as : Schedule}
    {y : List (Config World Op Op.Res Exc Reply × Move Op Choice Req Env) ×
      Config World Op Op.Res Exc Reply} (h : keyedRun as = some y) (hy : complete key y = true) :
    (sampleService {}).Path (Config.initial {}) y.1 y.2 ∧ (∀ d ∈ y.1, works d.2 = true) ∧
      (∃ t, Called key y.1 t) ∧ (∀ d ∈ y.1, ∀ t command, d.2 = .start t (.create command) →
        command.key = key → ∃ parts, @CreatePaymentCommand.Storable sample command parts) ∧
      ∀ t, Called key y.1 t → ∃ x, .ended x ∈ y.2.shared.story t := by
  simp only [complete, Bool.and_eq_true, List.all_eq_true, List.any_eq_true] at hy
  obtain ⟨hall, d, hd, hcall⟩ := hy
  have hcalls : ∀ d ∈ y.1, ∀ t command, d.2 = .start t (.create command) →
      @storable sample command = true ∧ ends t y.2.shared.trace = true := by
    intro d hd t command hm
    have hx := (hall d hd).2
    rw [hm] at hx
    exact Bool.and_eq_true_iff.mp hx
  refine ⟨Sys.path_of_record h, fun d hd => (hall d hd).1, ?_,
    fun d hd t command hm _ => @storable_sound sample _ (hcalls d hd t command hm).1, ?_⟩
  · obtain ⟨⟨t, command⟩, hx, hk⟩ := (Option.any_eq_true _ _).mp hcall
    exact ⟨t, command, d, hd, callOf_create hx, of_decide_eq_true hk⟩
  · rintro t ⟨command, d, hd, hm, _⟩
    obtain ⟨x, hx⟩ := mem_of_ends (hcalls d hd t command hm).2
    exact ⟨x, World.mem_story.mpr ⟨hx, rfl⟩⟩

/-- A creation, a delivery that has the row of its payment locked, and the same creation again: the
first check overlooks the payment, and the second one sees it. -/
def secondRun : Schedule :=
  createRun 0 (uid 1) (uid 10) (uid 11) ++ [.start (.deliver 0), .run 1 .ok] ++ claimRun 1 ++
    oks 1 2 ++ [.start (.create (sampleCommand (uid 1))), .run 2 .ok, .run 2 (.uuid (uid 20))] ++
    stamps 2 (uid 21) ++ oks 2 3 ++ [.exit 2]

set_option maxRecDepth 20000 in
theorem secondRun_complete : (keyedRun secondRun).any (fun y => complete (uid 1) y &&
    y.1.all (fun d => rivalFree (uid 1) d.1.shared d.2)) = true := by decide +kernel

theorem empty_free (key : UUID) :
    ¬ (Config.initial {} : Config World Op Op.Res Exc Reply).shared.db.Taken key := by
  rintro ⟨_, hr, _⟩
  cases hr

theorem created_once_second : ∃ (ds : List (Config World Op Op.Res Exc Reply ×
    Move Op Choice Req Env)) (c : Config World Op Op.Res Exc Reply),
    (sampleService {}).Path (Config.initial {}) ds c ∧ CreatedOnce (uid 1) ds c.shared := by
  obtain ⟨y, hrun, hy⟩ := (Option.any_eq_true _ _).mp secondRun_complete
  obtain ⟨hcomplete, hfree⟩ := Bool.and_eq_true_iff.mp hy
  obtain ⟨hpath, hw, hcalled, hstorable, hended⟩ := rivals_of_complete hrun hcomplete
  exact ⟨y.1, y.2, hpath, (@created_once sample {} (uid 1) (Config.initial {}) y.2 y.1 .init
    (fun _ => rfl) (empty_free _) hpath hw hcalled hstorable hended).mpr
      (fun d hd => rivalFree_sound (List.all_eq_true.mp hfree d hd))⟩

/-- Two creations make both checks before either inserts. -/
def concurrentRun : Schedule :=
  [.start (.create (sampleCommand (uid 1))), .run 0 .ok, .run 0 (.uuid (uid 10))] ++
    stamps 0 (uid 11) ++ oks 0 1 ++
    [.start (.create (sampleCommand (uid 1))), .run 1 .ok, .run 1 (.uuid (uid 20))] ++
    stamps 1 (uid 21) ++ oks 1 1 ++ oks 0 7 ++ [.exit 0] ++ oks 1 3 ++ [.exit 1]

/-- The thread can only have ended with the exception of the driver. -/
def onlyIntegrity (t : Tid) (trace : List (Tid × Obs)) : Bool :=
  trace.all (fun d => d.1 ≠ t || match d.2 with
    | .ended (.error .integrity) => true
    | .ended _ => false
    | _ => true)

theorem integrity_of_only {t : Tid} {trace : List (Tid × Obs)} {x : Except Exc Reply}
    (h : onlyIntegrity t trace = true) (hx : (t, .ended x) ∈ trace) : x = .error .integrity := by
  have hd := List.all_eq_true.mp h _ hx
  simp only [ne_eq, not_true_eq_false, decide_false, Bool.false_or] at hd
  split at hd
  · rename_i he
    exact Obs.ended.inj he
  · cases hd
  · rename_i _ hne
    exact absurd rfl (hne x)

set_option maxRecDepth 20000 in
theorem concurrentRun_complete : (keyedRun concurrentRun).any (fun y => complete (uid 1) y &&
    y.1.any (fun d => (callOf d.2).any (fun x => x.1 = 1 && x.2.key = uid 1)) &&
    onlyIntegrity 1 y.2.shared.trace) = true := by decide +kernel

/-- The second of two concurrent creations ends with the exception of the driver. -/
theorem created_raises_integrity : ∃ (ds : List (Config World Op Op.Res Exc Reply ×
    Move Op Choice Req Env)) (c : Config World Op Op.Res Exc Reply),
    (sampleService {}).Path (Config.initial {}) ds c ∧ (∀ d ∈ ds, works d.2 = true) ∧
    (∃ t, Called (uid 1) ds t) ∧ (∀ d ∈ ds, ∀ t command, d.2 = .start t (.create command) →
      command.key = uid 1 → ∃ parts, @CreatePaymentCommand.Storable sample command parts) ∧
    (∀ t, Called (uid 1) ds t → ∃ x, .ended x ∈ c.shared.story t) ∧
    ¬ CreatedOnce (uid 1) ds c.shared := by
  obtain ⟨y, hrun, hy⟩ := (Option.any_eq_true _ _).mp concurrentRun_complete
  simp only [Bool.and_eq_true, List.any_eq_true] at hy
  obtain ⟨⟨hcomplete, d, hd, hcall⟩, honly⟩ := hy
  obtain ⟨hpath, hw, hcalled, hstorable, hended⟩ := rivals_of_complete hrun hcomplete
  have hone : Called (uid 1) y.1 1 := by
    obtain ⟨⟨t, command⟩, hx, hk⟩ := (Option.any_eq_true _ _).mp hcall
    simp only [Bool.and_eq_true, decide_eq_true_eq] at hk
    obtain ⟨rfl, hk⟩ := hk
    exact ⟨command, d, hd, callOf_create hx, hk⟩
  have hends : ∀ x, .ended x ∈ y.2.shared.story 1 → x = .error .integrity :=
    fun x hx => integrity_of_only honly (World.mem_story.mp hx).1
  refine ⟨y.1, y.2, hpath, hw, hcalled, hstorable, hended, fun honce => ?_⟩
  obtain ⟨t, response, _, hresponse, hothers⟩ := honce.calls
  by_cases ht : 1 = t
  · subst ht
    cases hends _ hresponse
  · obtain ⟨⟨message, hmessage⟩, _⟩ := hothers 1 hone ht
    cases hends _ hmessage

end Payments
