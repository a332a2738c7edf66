import Payments.Proofs.Alone
import Payments.Proofs.Scenarios

namespace Payments

open Lib

/-- The changes of the session are committed, with the stored event. -/
def Stored (t : Tid) (w₀ : World) (C : List Write → OutboxRow → Prop) (o : OutboxRow)
    (w : World) : Prop :=
  ∃ w₁ ws, Draft t w₀ ws w₁ ∧ C ws o ∧ w = w₁.commit t

/-- How the body of a unit of work that commits once can fail: nothing is committed, or its
commit took effect although it raised. A business rule is broken only where `S` holds. -/
structure Fails (t : Tid) (w₀ : World) (S : Prop) (C : List Write → OutboxRow → Prop) (e : Exc)
    (w : World) : Prop where
  rule : e.isBusinessRule = true → S
  left : Draft t w₀ [] (w.drop t) ∨ ∃ o, Stored t w₀ C o (w.drop t)

/-- The body has committed and returns the event that it stored. -/
def Commits {α : Type} (t : Tid) (w₀ : World) (C : List Write → OutboxRow → Prop)
    (events : α → List PaymentEvent) (a : α) (w : World) : Prop :=
  ∃ o e, Stored t w₀ C o (w.drop t) ∧ events a = [e] ∧ parseEventToMessage e = .ok o.body

/-- What a call with one unit of work leaves behind: nothing, or what it has committed, and
then perhaps the message of the stored event. -/
inductive Leaves {α : Type} (lim : Limits) (t : Tid) (w₀ : World) (S : Prop)
    (C : List Write → OutboxRow → Prop) : Except Exc α → World → Prop
  | nothing {e : Exc} {w : World} (hr : e.isBusinessRule = true → S) (hd : w.drop t = w)
      (h : Draft t w₀ [] w) : Leaves lim t w₀ S C (.error e) w
  | stored {r : Except Exc α} {o : OutboxRow} {w : World}
      (hr : ∀ e, r = .error e → e.isBusinessRule = true → S) (h : Stored t w₀ C o w) :
      Leaves lim t w₀ S C r w
  | published {r : Except Exc α} {o : OutboxRow} {w : World} {x k : String} {m : Message}
      (hr : ∀ e, r = .error e → e.isBusinessRule = true → S) (h : Stored t w₀ C o w)
      (hb : m.body = o.body) : Leaves lim t w₀ S C r (w.accept t lim x k m)

/-- What is left behind depends on the exception only. -/
theorem Leaves.result {α β : Type} {lim : Limits} {t : Tid} {w₀ w : World} {S : Prop}
    {C : List Write → OutboxRow → Prop} {r : Except Exc α} {r' : Except Exc β}
    (h : Leaves lim t w₀ S C r w) (hr : ∀ e, r' = .error e ↔ r = .error e) :
    Leaves lim t w₀ S C r' w := by
  cases h with
  | @nothing e _ he hd h =>
    rw [(hr e).mpr rfl]
    exact .nothing he hd h
  | stored he h => exact .stored (fun e hx => he e ((hr e).mp hx)) h
  | published he h hb => exact .published (fun e hx => he e ((hr e).mp hx)) h hb

theorem not_rule_of_raises {op : Op} {e : Exc} (h : op.Raises e = true) :
    e.isBusinessRule = false := by
  cases e with
  | domain d => cases op <;> simp [Op.Raises, Exc.isBroker, Exc.isWebhook, Exc.isDatabase] at h
  | _ => rfl

section

variable [Externals] {lim : Limits} {allow : World → Move Op Choice Req Env → Prop} {t : Tid}
  {w w₀ : World} {ws : List Write} {S : Prop} {C : List Write → OutboxRow → Prop} {α β : Type}

theorem solo_then {p : Service α} {f : α → Service β} {P : α → World → Prop}
    {P' : β → World → Prop} {E : Exc → World → Prop} (hp : Solo lim allow t p (Ends P E) w)
    (hf : ∀ a w, P a w → Solo lim allow t (f a) (Ends P' E) w) :
    Solo lim allow t (p.bind f) (Ends P' E) w :=
  solo_bind _ hp hf (fun _ _ h => h)

omit [Externals] in
theorem Fails.draft {e : Exc} (he : e.isBusinessRule = false) (h : Draft t w₀ ws w) :
    Fails t w₀ S C e w :=
  ⟨fun hb => Bool.noConfusion (he.symm.trans hb), .inl h.drop⟩

/-- A quiet effect works and leaves the session as it is, or it fails. -/
theorem solo_read {op : Op} (ho : op.Quiet) (h : Draft t w₀ ws w) :
    Solo lim allow t (perform op) (Ends (fun _ => Draft t w₀ ws) (Fails t w₀ S C)) w := by
  refine solo_op (fun ch r w' _ hd => ?_)
  have h' := h.quiet ho hd
  cases r with
  | ok a => exact h'
  | error e =>
    refine Fails.draft ?_ h'
    cases hd with
    | fault he => exact not_rule_of_raises he
    | _ => exact ho.elim

theorem solo_uuid4 (h : Draft t w₀ ws w) :
    Solo lim allow t (perform .uuid4) (Ends (fun u w => Draft t w₀ ws w ∧
      w₀.db.payments.find? u = none ∧ w₀.db.outbox.find? u = none) (Fails t w₀ S C)) w := by
  refine solo_op (fun ch r w' _ hd => ?_)
  have h' : Draft t w₀ ws w' := @Draft.quiet _ _ _ _ h lim .uuid4 trivial _ _ _ hd
  cases hd with
  | fault he => exact Fails.draft (not_rule_of_raises he) h'
  | uuid4 hu => exact ⟨h', h.db ▸ hu.2.2.1, h.db ▸ hu.2.2.2⟩

/-- Storing one event adds its row to the open transaction. -/
theorem solo_add_event {e : PaymentEvent} {o : OutboxRow} (hst : e.StoredAs o)
    (hw : ∀ db : Db, (db.applyAll ws).outbox = db.outbox)
    (hn : w₀.db.outbox.find? o.id = none) (h : Draft t w₀ ws w) :
    Solo lim allow t (OutboxRepository.add [e])
      (Ends (fun _ => Draft t w₀ (ws ++ [.insertOutbox o])) (Fails t w₀ S C)) w := by
  obtain ⟨s, hr, heq⟩ := add_event_eq hst
  rw [heq]
  refine solo_then (P := fun _ => Draft t w₀ (ws ++ [.insertOutbox o]))
    (solo_op (fun ch r w' _ hd => ?_)) (fun _ _ hw => solo_read trivial hw)
  have hview : (w.view t).outbox.find? o.id = none := by
    rw [World.view, h.pend, hw, h.db, hn]
  rcases insert_one hd hr hview with ⟨_, _, he, rfl, rfl⟩ | ⟨rfl, rfl, _⟩
  · exact Fails.draft (not_rule_of_raises he) h
  · exact h.write [.insertOutbox o]

/-- The commit of what the session has made. -/
theorem solo_commit {o : OutboxRow} (hc : C ws o) (h : Draft t w₀ ws w) :
    Solo lim allow t Uow.commit
      (Ends (fun _ w => Stored t w₀ C o (w.drop t)) (Fails t w₀ S C)) w := by
  refine solo_handle (Ends (fun _ v => v = w.commit t)
      (fun e v => e.isBusinessRule = false ∧ (v.drop t = w.drop t ∨ v.drop t = w.commit t)))
    (solo_op (fun ch r v _ hd => ?_)) ?_ ?_
  · cases hd with
    | fault he => exact ⟨not_rule_of_raises he, .inl rfl⟩
    | lostCommit he => exact ⟨not_rule_of_raises he, .inr (w.commit_drop t)⟩
    | commit => rfl
  · rintro _ v rfl
    exact ⟨w, ws, h, hc, w.commit_drop t⟩
  · rintro e v ⟨he, hv⟩
    have hfail : ∀ {e' : Exc} {v' : World}, e'.isBusinessRule = false → v'.drop t = v.drop t →
        Fails t w₀ S C e' v' := by
      intro e' v' he' hv'
      refine ⟨fun hb => Bool.noConfusion (he'.symm.trans hb), ?_⟩
      rw [hv']
      rcases hv with hv | hv <;> rw [hv]
      · exact .inl h.drop
      · exact .inr ⟨o, w, ws, h, hc, rfl⟩
    have hroll : ∀ e' : Exc, e'.isBusinessRule = false → Solo lim allow t
        ((perform .rollback).bind (fun _ => (Prog.raise e' : Service Unit)))
        (Ends (fun _ w => Stored t w₀ C o (w.drop t)) (Fails t w₀ S C)) v := by
      intro e' he'
      refine solo_bind (fun r v' => v'.drop t = v.drop t ∧
          ∀ e, r = .error e → e.isBusinessRule = false) (solo_op (fun ch r v' _ hd => ?_))
        (fun _ v' hv' => hfail he' hv'.1) (fun e v' hv' => hfail (hv'.2 e rfl) hv'.1)
      cases hd with
      | fault he => exact ⟨rfl, fun e h => by cases h; exact not_rule_of_raises he⟩
      | rollback => exact ⟨v.drop_drop t, fun e h => by cases h⟩
    split
    · exact hroll _ rfl
    · exact hroll _ rfl
    · exact hfail he rfl

omit [Externals] in
theorem not_rule {e : Exc} (h : e.isBusinessRule = false) : e.isBusinessRule = true → S :=
  fun hb => Bool.noConfusion (h.symm.trans hb)

/-- The publish of the stored event, after the unit of work has ended. -/
theorem solo_publish {e : PaymentEvent} {o : OutboxRow} (hp : parseEventToMessage e = .ok o.body)
    (h : Stored t w₀ C o w) :
    Solo lim allow t (EventBus.publishPaymentEvents [e]) (Leaves lim t w₀ S C) w := by
  refine solo_bind (Leaves lim t w₀ S C) ?_ (fun _ w hw => ?_) (fun _ _ hw => ?_)
  · unfold EventBus.publishPaymentEvent
    cases EventBus.queueRegistry e.cls with
    | none => exact .stored (fun _ he => by cases he; exact not_rule rfl) h
    | some q =>
      simp only [hp]
      have hun : ∀ x, (EventBus.unavailable e x).isBusinessRule = false := by
        intro x
        unfold EventBus.unavailable
        split <;> rfl
      refine solo_handle (fun r w => Leaves lim t w₀ S C (r : Except Exc Unit) w ∧
        ∀ x, Leaves lim t w₀ S C (Except.error (EventBus.unavailable e x) : Except Exc Unit) w)
        (solo_op (fun ch r w' _ hd => ?_)) (fun _ _ hw => hw.1) (fun x _ hw => hw.2 x)
      have hrule : ∀ r : Except Exc Unit, (∀ e, r = .error e → e.isBusinessRule = false) →
          ∀ e, r = .error e → e.isBusinessRule = true → S := fun r hr e he => not_rule (hr e he)
      cases hd with
      | fault he =>
        exact ⟨.stored (hrule _ fun _ h => by cases h; exact not_rule_of_raises he) h,
          fun x => .stored (hrule _ fun _ h => by cases h; exact hun x) h⟩
      | lostPublish he =>
        exact ⟨.published (hrule _ fun _ h => by cases h; exact not_rule_of_raises he) h rfl,
          fun x => .published (hrule _ fun _ h => by cases h; exact hun x) h rfl⟩
      | publish =>
        exact ⟨.published (hrule _ fun _ h => by cases h) h rfl,
          fun x => .published (hrule _ fun _ h => by cases h; exact hun x) h rfl⟩
  · exact hw
  · exact hw

/-- A unit of work that commits once, and what follows it. -/
theorem solo_unit {body : Service α} {f : α → Service β} {events : α → List PaymentEvent}
    (h : Solo lim allow t body (Ends (Commits t w₀ C events) (Fails t w₀ S C)) w)
    (hf : ∀ a w e o, events a = [e] → parseEventToMessage e = .ok o.body → Stored t w₀ C o w →
      Solo lim allow t (f a) (Leaves lim t w₀ S C) w) :
    Solo lim allow t ((Uow.within body).bind f) (Leaves lim t w₀ S C) w := by
  have hleft : ∀ (e : Exc) (w : World), (e.isBusinessRule = true → S) →
      (Draft t w₀ [] (w.drop t) ∨
        ∃ o, Stored t w₀ C o (w.drop t)) →
      Leaves lim t w₀ S C (Except.error e : Except Exc β) (w.drop t) := by
    rintro e w hr (hd | ⟨o, ho⟩)
    · exact .nothing hr (w.drop_drop t) hd
    · exact .stored (fun _ he => by cases he; exact hr) ho
  refine solo_bind (Ends (fun a w => ∃ o e, Stored t w₀ C o w ∧ events a = [e] ∧
      parseEventToMessage e = .ok o.body) (fun e w => Leaves lim t w₀ S C
      (Except.error e : Except Exc β) w)) (solo_within (wp_mono h ?_)) ?_ (fun _ _ hw => hw)
  · intro r w hr
    cases r with
    | ok a =>
      obtain ⟨o, e, hst, he, hp⟩ := hr
      refine ⟨⟨o, e, hst, he, hp⟩, fun e' he' => hleft e' w (not_rule ?_) (.inr ⟨o, hst⟩)⟩
      cases e' <;> first | rfl | cases he'
    | error e =>
      refine ⟨hleft e w hr.rule hr.left, fun e' he' => hleft e' w (not_rule ?_) hr.left⟩
      cases e' <;> first | rfl | cases he'
  · rintro a w ⟨o, e, hst, he, hp⟩
    exact hf a w e o he hp hst

end

/-- The changes of a creation: a pending payment under the key of the command, and the
pending event that reports it. -/
def Creates (db : Db) (command : CreatePaymentCommand) (ws : List Write) (o : OutboxRow) : Prop :=
  ∃ row : PaymentRow, ws = [.insertPayment row, .insertOutbox o] ∧ row.New ∧
    row.idempotencyKey = command.key ∧ row.Created o ∧ o.status = .pending ∧
    db.payments.find? row.id = none ∧
    (∀ r ∈ db.payments.rows, r.idempotencyKey ≠ command.key) ∧ db.outbox.find? o.id = none

/-- The changes of a processing: the outcome of the pending payment that the event names, and
the pending event that reports it. -/
def Settles (db : Db) (event : PaymentEvent) (ws : List Write) (o : OutboxRow) : Prop :=
  ∃ r ∈ db.payments.rows, ∃ status now,
    ws = [.updatePayment r.id status now, .insertOutbox o] ∧
    event.attr "payment_id" = .uuid r.id ∧ r.status = .pending ∧ status ≠ .pending ∧
    (Db.settleRow status now r).Processed o ∧ o.status = .pending ∧ db.outbox.find? o.id = none

/-- The event names a payment that is settled and can be loaded. -/
def AlreadySettled (db : Db) (event : PaymentEvent) : Prop :=
  ∃ r ∈ db.payments.rows, PaymentID.new (event.attr "payment_id") = .ok { value := r.id } ∧
    r.status ≠ .pending ∧ ∃ p, PaymentRepository.toDomain r = .ok p

section

variable [Externals] {lim : Limits} {allow : World → Move Op Choice Req Env → Prop} {t : Tid}
  {w w₀ : World} {S : Prop} {C : List Write → OutboxRow → Prop}

theorem solo_getByKey (key : IdempotencyKey) (h : Draft t w₀ [] w) :
    Solo lim allow t (PaymentRepository.getByKey key)
      (Ends (fun _ => Draft t w₀ []) (Fails t w₀ True C)) w := by
  refine solo_then (solo_read trivial h) (fun row w h => ?_)
  cases row with
  | none => exact h
  | some row =>
    refine solo_then (P := fun _ => Draft t w₀ []) ((wp_ofExcept _).mpr ?_) (fun _ _ h => h)
    cases PaymentRepository.toDomain row with
    | ok p => exact h
    | error e => exact ⟨fun _ => trivial, .inl h.drop⟩

theorem solo_add {p : Payment} (h : Draft t w₀ [] w) :
    Solo lim allow t (PaymentRepository.add p) (Ends (fun _ w => ∃ row,
      (PaymentRepository.values p).toRow = .ok row ∧ w₀.db.payments.find? row.id = none ∧
      (∀ r ∈ w₀.db.payments.rows, r.idempotencyKey ≠ row.idempotencyKey) ∧
      Draft t w₀ [.insertPayment row] w) (Fails t w₀ True C)) w := by
  have hfail : ∀ {e : Exc} {w : World}, Draft t w₀ [] w → Fails t w₀ True C e w :=
    fun h => ⟨fun _ => trivial, .inl h.drop⟩
  refine solo_then (solo_read trivial h) (fun existing w h => ?_)
  cases existing with
  | some _ => exact hfail h
  | none =>
    refine solo_then (P := fun _ w => ∃ row, (PaymentRepository.values p).toRow = .ok row ∧
      w₀.db.payments.find? row.id = none ∧
      (∀ r ∈ w₀.db.payments.rows, r.idempotencyKey ≠ row.idempotencyKey) ∧
      Draft t w₀ [.insertPayment row] w) (solo_op (fun ch r w' _ hd => ?_)) ?_
    · cases hd with
      | fault => exact hfail h
      | refusePayment => exact hfail h
      | conflict => exact hfail h
      | insertPayment hv hn hf =>
        rw [h.view] at hn
        exact ⟨_, hv, Table.find_none.mpr (fun r hr => (hn r hr).1), fun r hr => (hn r hr).2,
          h.write _⟩
    · rintro _ w ⟨row, hv, hn, hk, h⟩
      refine wp_mono (solo_read (S := True) (C := C) trivial h) (fun r w h => ?_)
      cases r with
      | ok _ => exact ⟨row, hv, hn, hk, h⟩
      | error e => exact h

theorem solo_service_create {amount : Amount} {currency : Currency} {description : Description}
    {metadata : Metadata} {key : IdempotencyKey} {webhookUrl : WebhookUrl}
    (ha : ∃ neg coeff exp, amount.value = .finite neg coeff exp) (h : Draft t w₀ [] w) :
    Solo lim allow t
      (PaymentService.create amount currency description metadata key webhookUrl)
      (Ends (fun p w => ∃ row eventId occurredAt, row.New ∧ row.idempotencyKey = key.value ∧
        p.events = [createdEvent row.id eventId occurredAt] ∧
        w₀.db.payments.find? row.id = none ∧
        (∀ r ∈ w₀.db.payments.rows, r.idempotencyKey ≠ key.value) ∧
        w₀.db.outbox.find? eventId = none ∧ Draft t w₀ [.insertPayment row] w)
        (Fails t w₀ True C)) w := by
  refine solo_then (solo_getByKey key h) (fun existing w h => ?_)
  cases existing with
  | some _ => exact ⟨fun _ => trivial, .inl h.drop⟩
  | none =>
    refine solo_then (solo_uuid4 h) (fun id w h => ?_)
    refine solo_then (solo_read trivial h.1) (fun createdAt w h => ?_)
    refine solo_then (solo_uuid4 h) (fun eventId w h => ?_)
    obtain ⟨h, _, hnew⟩ := h
    refine solo_then (solo_read trivial h) (fun occurredAt w h => ?_)
    simp only [Payment.postInit, Payment.recordEvent, Prog.ofExcept, Prog.bind_eq, Prog.bind,
      ne_eq, not_true_eq_false, false_and, Bool.false_eq_true, ↓reduceIte]
    refine solo_then (solo_add h) (fun _ w hw => ?_)
    obtain ⟨row, hv, hn, hk, h⟩ := hw
    obtain ⟨hid, hkey⟩ := World.toRow_id hv
    rw [hkey] at hk
    exact ⟨row, eventId, occurredAt, toRow_new hv rfl ha, hkey, by rw [hid]; rfl, hn, hk, hnew, h⟩

theorem solo_create_payment (command : CreatePaymentCommand) (hp : w.pend t = [])
    (hl : w.drop t = w) : Solo lim allow t (createPayment command)
      (Leaves lim t w True (Creates w.db command)) w := by
  simp only [createPayment, Prog.bind_eq, Prog.pure_eq]
  cases hc : command.parts with
  | error e => exact .nothing (fun _ => trivial) hl (.refl hp)
  | ok parts =>
    have ha := amount_new_finite (parts_ok hc).1
    have hk := idempotency_key_value (parts_ok hc).2.1
    rw [Prog.ofExcept_ok_bind]
    refine @solo_unit _ _ _ _ _ _ _ _ _ _ _ _ Prod.snd ?_ (fun a w e o he hp hst => ?_)
    · refine solo_then (solo_service_create ha (.refl hp)) (fun p w₁ hw => ?_)
      obtain ⟨row, eventId, occurredAt, hnew, hkey, hev, hn, hu, hout, h⟩ := hw
      obtain ⟨o, hst, rfl, hcr, hpend⟩ : ∃ o, (createdEvent row.id eventId occurredAt).StoredAs o ∧
          o.id = eventId ∧ row.Created o ∧ o.status = .pending :=
        ⟨_, created_stored row.id eventId occurredAt, rfl, ⟨rfl, rfl⟩, rfl⟩
      simp only [Payment.pullEvents, hev]
      refine solo_then (solo_add_event hst (fun _ => rfl) hout h) (fun _ w₁ h => ?_)
      have hC : Creates w.db command ([.insertPayment row] ++ [.insertOutbox o]) o :=
        ⟨row, rfl, hnew, hkey.trans hk, hcr, hpend, hn, hk ▸ hu, hout⟩
      refine solo_then (solo_commit hC h) (fun _ w₁ hw => ?_)
      exact ⟨_, _, hw, rfl, created_published _ _ _ hst⟩
    · rw [he]
      exact solo_bind _ (solo_publish hp hst) (fun _ w hw => hw.result (fun _ => by simp))
        (fun _ _ hw => hw.result (fun _ => by simp))

theorem solo_getById (id : PaymentID) (h : Draft t w₀ [] w) :
    Solo lim allow t (PaymentRepository.getById id) (Ends (fun p w => ∃ r ∈ w₀.db.payments.rows,
      r.id = id.value ∧ PaymentRepository.toDomain r = .ok p ∧ Draft t w₀ [] w)
      (Fails t w₀ S C)) w := by
  refine solo_then (P := fun row w => Draft t w₀ [] w ∧
      ∀ r, row = some r → r ∈ w₀.db.payments.rows ∧ r.id = id.value)
    (solo_op (fun ch x w' _ hd => ?_)) (fun row w h => ?_)
  · cases hd with
    | fault he => exact Fails.draft (not_rule_of_raises he) h
    | skipPayment => exact ⟨h, fun _ he => by cases he⟩
    | lockPayment hr hid =>
      rw [h.view] at hr
      exact ⟨h.hold _, fun _ he => by cases he; exact ⟨hr, hid⟩⟩
  · obtain ⟨h, hrow⟩ := h
    cases row with
    | none => exact Fails.draft rfl h
    | some r =>
      refine (wp_ofExcept _).mpr ?_
      cases hd : PaymentRepository.toDomain r with
      | ok p => exact ⟨r, (hrow r rfl).1, (hrow r rfl).2, hd, h⟩
      | error e =>
        refine Fails.draft ?_ h
        unfold PaymentRepository.toDomain at hd
        cases hm : Metadata.rebuild r.metadata.toPy with
        | ok m => simp [hm, bind, Except.bind] at hd
        | error e' =>
          simp only [hm, bind, Except.bind, Except.error.injEq] at hd
          unfold Metadata.rebuild at hm
          split at hm <;> cases hm
          exact hd ▸ rfl

theorem solo_emulate {row : PaymentRow} {p : Payment}
    (hd : PaymentRepository.toDomain row = .ok p) (hs : row.status ≠ .pending → S)
    (h : Draft t w₀ [] w) :
    Solo lim allow t (emulateProcessing p) (Ends (fun p' w => ∃ status now eventId occurredAt reason,
      Settled row p' status now eventId occurredAt reason ∧ w₀.db.outbox.find? eventId = none ∧
      Draft t w₀ [] w) (Fails t w₀ S C)) w := by
  refine solo_then (solo_read trivial h) (fun success w h => ?_)
  have hst := (toDomain_ok hd).2.2.2.2.1
  cases he : p.ensurePending with
  | error e =>
    refine ⟨fun _ => hs ?_, .inl h.drop⟩
    unfold Payment.ensurePending at he
    split at he
    · rename_i hp
      exact hst ▸ hp
    · cases he
  | ok _ =>
    simp only [Prog.bind_eq, Prog.ofExcept_ok_bind]
    refine solo_then (solo_read trivial h) (fun now w h => ?_)
    refine solo_then (solo_uuid4 h) (fun eventId w h => ?_)
    obtain ⟨h, _, hnew⟩ := h
    refine solo_then (solo_read trivial h) (fun occurredAt w h => ?_)
    have hend : ∀ (status : PaymentStatus) (reason : Option String), status ≠ .pending →
        Solo lim allow t (Prog.ofExcept (p.settle status (reasonPy reason)
          ⟨eventId, occurredAt, now⟩)) (Ends (fun p' w => ∃ status now eventId occurredAt reason,
          Settled row p' status now eventId occurredAt reason ∧
          w₀.db.outbox.find? eventId = none ∧ Draft t w₀ [] w) (Fails t w₀ S C)) w := by
      intro status reason hne
      refine (wp_ofExcept _).mpr ?_
      cases hp : p.settle status (reasonPy reason) ⟨eventId, occurredAt, now⟩ with
      | ok p' =>
        exact ⟨status, now, eventId, occurredAt, reason, settled_of_settle hd hne hp, hnew, h⟩
      | error e => exact ⟨fun _ => hs (hst ▸ (Payment.settle_error hp).1), .inl h.drop⟩
    cases success with
    | true => exact hend .confirmed none (by decide)
    | false => exact hend .failed (some "simulated error") (by decide)

theorem solo_update {row : PaymentRow} {p : Payment} {status : PaymentStatus} {now : DateTime}
    {eventId : UUID} {occurredAt : DateTime} {reason : Option String}
    (hs : Settled row p status now eventId occurredAt reason) (h : Draft t w₀ [] w) :
    Solo lim allow t (PaymentRepository.update p)
      (Ends (fun _ => Draft t w₀ [.updatePayment row.id status now]) (Fails t w₀ S C)) w := by
  simp only [PaymentRepository.update, hs.stamped, Timestamp.new]
  refine solo_then (P := fun (id : Option UUID) => Draft t w₀
      (if id.isSome then [.updatePayment row.id status now] else []))
    (solo_op (fun ch r w' _ hd => ?_)) (fun result w hw => ?_)
  · cases hd with
    | fault he => exact Fails.draft (not_rule_of_raises he) h
    | missPayment => exact h
    | updatePayment =>
      rw [hs.sameId, hs.newStatus]
      exact h.write _
  · cases result with
    | none => exact solo_then (solo_read trivial hw) (fun _ _ h => Fails.draft rfl h)
    | some id => exact solo_then (solo_read trivial hw) (fun _ _ h => h)

theorem solo_process_payment (event : PaymentEvent) (hp : w.pend t = []) :
    Solo lim allow t (processPayment event)
      (Leaves lim t w (AlreadySettled w.db event) (Settles w.db event)) w := by
  simp only [processPayment, Prog.bind_eq, Prog.pure_eq]
  refine @solo_unit _ _ _ _ _ _ _ _ _ _ _ _ id ?_ (fun a w e o he hp hst => ?_)
  · cases hid : PaymentID.new (event.attr "payment_id") with
    | error e =>
      refine Fails.draft ?_ (.refl hp)
      unfold PaymentID.new at hid
      split at hid
      · split at hid <;> cases hid
        rfl
      · cases hid
        rfl
    | ok id =>
      rw [Prog.ofExcept_ok_bind]
      refine solo_then (solo_getById id (.refl hp)) (fun p w₁ hw => ?_)
      obtain ⟨r, hr, hrid, hd, h⟩ := hw
      obtain ⟨hattr, hval⟩ : event.attr "payment_id" = .uuid r.id ∧ id = { value := r.id } := by
        unfold PaymentID.new at hid
        split at hid
        · split at hid <;> cases hid
          rename_i hu _
          exact ⟨hrid ▸ hu, by rw [hrid]⟩
        · cases hid
      have hS : r.status ≠ .pending → AlreadySettled w.db event := fun hs =>
        ⟨r, hr, hval ▸ hid, hs, p, hd⟩
      refine solo_then (solo_emulate hd hS h) (fun p' w₁ hw => ?_)
      obtain ⟨status, now, eventId, occurredAt, reason, hset, hnew, h⟩ := hw
      obtain ⟨o, hst, rfl, hpr, hpend⟩ : ∃ o, (processedEvent (Db.settleRow status now r) eventId
          occurredAt reason).StoredAs o ∧ o.id = eventId ∧
          (Db.settleRow status now r).Processed o ∧ o.status = .pending :=
        ⟨_, processed_stored _ eventId occurredAt reason, rfl, ⟨rfl, reason, rfl⟩, rfl⟩
      have hC : Settles w.db event ([.updatePayment r.id status now] ++ [.insertOutbox o]) o :=
        ⟨r, hr, status, now, rfl, hattr, hset.wasPending, hset.isSettled, hpr, hpend, hnew⟩
      refine solo_then (P := fun q w => q = p' ∧ Draft t _ [.updatePayment r.id status now] w)
        (solo_then (solo_update hset h) (fun _ _ h => ⟨rfl, h⟩)) (fun q w₁ hw => ?_)
      obtain ⟨rfl, h⟩ := hw
      simp only [Payment.pullEvents, hset.recorded]
      refine solo_then (solo_add_event hst (fun _ => rfl) hnew h) (fun _ w₁ h => ?_)
      refine solo_then (solo_commit hC h) (fun _ w₁ hw => ?_)
      exact ⟨o, _, hw, rfl, processed_published _ _ _ _ hst⟩
  · rw [show a = [e] from he]
    exact solo_publish hp hst

end

/-- A commit that raises has not been applied. -/
def HonestCommit (_ : World) (m : Move Op Choice Req Env) : Prop :=
  ∀ t e, m ≠ .run t .commit (.lost e)

/-- The messages that the broker has taken, oldest first. -/
def taken (new : List (Tid × Obs)) : List Message :=
  (new.filterMap (fun d => match d.2 with
    | .accepted _ _ m => some m
    | _ => none)).reverse

/-- The tables after a creation: a pending payment more, and the pending event of it. -/
def Db.AddsPayment (db : Db) (command : CreatePaymentCommand) (o : OutboxRow) (db' : Db) : Prop :=
  ∃ row : PaymentRow, row.New ∧ row.idempotencyKey = command.key ∧ row.Created o ∧
    o.status = .pending ∧ db'.payments.rows = db.payments.rows ++ [row] ∧
    db'.outbox.rows = db.outbox.rows ++ [o]

/-- The tables after a processing: the pending payment of the event has its outcome, and a
pending event more reports it. -/
def Db.SettlesPayment (db : Db) (event : PaymentEvent) (o : OutboxRow) (db' : Db) : Prop :=
  ∃ r ∈ db.payments.rows, ∃ status now, event.attr "payment_id" = .uuid r.id ∧
    r.status = .pending ∧ status ≠ .pending ∧ (settleRow status now r).Processed o ∧
    o.status = .pending ∧ db'.payments.rows = db.payments.rows.map (fun x =>
      if x.id = r.id then settleRow status now x else x) ∧
    db'.outbox.rows = db.outbox.rows ++ [o]

/-- What a call did between two states: nothing that stays and no message, or, if and only
if its commit returned, the changes `A` with their event and at most the message of it. No
lock of the session is left in either case. -/
structure AllOrNothing (t : Tid) (A : Db → OutboxRow → Db → Prop) (w w' : World) : Prop where
  lock : ∀ r, w'.lock r ≠ some t
  pend : w'.pend t = []
  outcome : ∃ new, w'.trace = new ++ w.trace ∧
    ((w'.db = w.db ∧ taken new = [] ∧ w'.ready = w.ready ∧ ¬ ∃ ws, (t, .committed ws) ∈ new) ∨
      ∃ o, A w.db o w'.db ∧ (∃ ws, (t, .committed ws) ∈ new) ∧
        (taken new).map Message.body <+: [o.body])

theorem Creates.adds {db : Db} {command : CreatePaymentCommand} {ws : List Write} {o : OutboxRow}
    (h : Creates db command ws o) : db.AddsPayment command o (db.applyAll ws) := by
  obtain ⟨row, rfl, hnew, hkey, hc, hp, hid, _, ho⟩ := h
  exact ⟨row, hnew, hkey, hc, hp, Table.rows_insert hid, Table.rows_insert ho⟩

theorem Settles.settles {db : Db} {event : PaymentEvent} {ws : List Write} {o : OutboxRow}
    (h : Settles db event ws o) : db.SettlesPayment event o (db.applyAll ws) := by
  obtain ⟨r, hr, status, now, rfl, ha, hp, hs, hpr, hpend, ho⟩ := h
  exact ⟨r, hr, status, now, ha, hp, hs, hpr, hpend, rfl, Table.rows_insert ho⟩

theorem Leaves.whole {α : Type} {lim : Limits} {t : Tid} {w w' : World} {S : Prop}
    {C : List Write → OutboxRow → Prop} {A : Db → OutboxRow → Db → Prop} {r : Except Exc α}
    (h : Leaves lim t w S C r w') (hC : ∀ ws o, C ws o → A w.db o (w.db.applyAll ws)) :
    AllOrNothing t A w w' := by
  have hlock : ∀ (v : World) (r : Resource), (v.drop t).lock r ≠ some t := by
    intro v r
    simp only [World.drop_lock]
    split
    · exact fun he => by cases he
    · assumption
  cases h with
  | nothing _ hd h =>
    exact ⟨hd ▸ hlock w', h.pend, [], h.trace, .inl ⟨h.db, rfl, h.ready, by simp⟩⟩
  | @stored _ o _ _ h =>
    obtain ⟨w₁, ws, hd, hc, rfl⟩ := h
    refine ⟨hlock w₁, by simp, [(t, .committed ws)], ?_, .inr ⟨o, ?_, ⟨ws, by simp⟩, by simp [taken]⟩⟩
    · simp [hd.pend, hd.trace]
    · simpa [World.view, hd.pend, hd.db] using hC ws o hc
  | @published _ o v x k m _ h hb =>
    obtain ⟨w₁, ws, hd, hc, rfl⟩ := h
    refine ⟨hlock w₁, by simp, [(t, .accepted x k m), (t, .committed ws)], ?_,
      .inr ⟨o, ?_, ⟨ws, by simp⟩, by simp [taken, hb]⟩⟩
    · simp [hd.pend, hd.trace]
    · simpa [World.view, hd.pend, hd.db] using hC ws o hc

/-- Whichever steps of a creation or of a processing raise, it is all or nothing. -/
theorem all_or_nothing [Externals] {lim : Limits} {t : Tid} {w : World} (hp : w.pend t = [])
    (hl : ∀ r, w.lock r ≠ some t) :
    (∀ command r w', (service lim).Runs HonestCommit t (createPayment command) w r w' →
      AllOrNothing t (fun db o db' => db.AddsPayment command o db') w w') ∧
    ∀ event r w', (service lim).Runs HonestCommit t (processPayment event) w r w' →
      AllOrNothing t (fun db o db' => db.SettlesPayment event o db') w w' := by
  have hd : w.drop t = w := by
    simp [World.drop, hl, hp.symm]
  refine ⟨fun command r w' h => ?_, fun event r w' h => ?_⟩
  · exact (Runs.alone h (solo_create_payment command hp hd)).whole (fun _ _ => Creates.adds)
  · exact (Runs.alone h (solo_process_payment event hp)).whole (fun _ _ => Settles.settles)

/-- Whether a step is not a commit that raises although it was applied. -/
def honest (_ : World) : Move Op Choice Req Env → Bool
  | .run _ .commit (.lost _) => false
  | _ => true

theorem honest_commit (w : World) (m : Move Op Choice Req Env) (h : honest w m = true) :
    HonestCommit w m := by
  rintro t e rfl
  cases h

/-- A creation that works. -/
def creation : Option (Except Exc CreatePaymentResponse × World) :=
  (sampleService {}).alone? honest 0 ([.ok, .uuid (uid 10), .time sampleTime, .uuid (uid 11),
    .time sampleTime] ++ List.replicate 8 .ok) (@createPayment sample (sampleCommand (uid 1))) {}

set_option maxRecDepth 20000 in
theorem creation_some : creation.isSome = true := by decide +kernel

/-- The processing of the payment, whose publish fails. -/
def processing : Option (Except Exc Unit × World) :=
  (sampleService {}).alone? honest 0 ([.ok, .coin true, .time sampleTime, .uuid (uid 12),
    .time sampleTime] ++ List.replicate 6 .ok ++ [.fault .amqp])
    (processPayment (createdEvent (uid 10) (uid 11) sampleTime)) (creation.get creation_some).2

set_option maxRecDepth 20000 in
theorem processing_some : processing.isSome = true := by decide +kernel

set_option maxRecDepth 20000 in
theorem all_or_nothing_unpublished : ∃ w₁ w₂ : World,
    AllOrNothing 0 (fun db o db' => db.AddsPayment (sampleCommand (uid 1)) o db') {} w₁ ∧
    AllOrNothing 0 (fun db o db' =>
      db.SettlesPayment (createdEvent (uid 10) (uid 11) sampleTime) o db') w₁ w₂ ∧
    w₁.ready.length = 1 ∧ w₂.ready.length = 1 ∧ w₂.db.outbox.rows.length = 2 := by
  let w₁ := (creation.get creation_some).2
  have h₁ : (sampleService {}).Runs HonestCommit 0
      (@createPayment sample (sampleCommand (uid 1))) {} (creation.get creation_some).1 w₁ :=
    Sys.runs_of_alone honest_commit (Option.some_get creation_some).symm
  have h₂ : (sampleService {}).Runs HonestCommit 0
      (processPayment (createdEvent (uid 10) (uid 11) sampleTime)) w₁
      (processing.get processing_some).1 (processing.get processing_some).2 :=
    Sys.runs_of_alone honest_commit (Option.some_get processing_some).symm
  have ha := (@all_or_nothing sample {} 0 {} rfl (fun _ h => by cases h)).1 _ _ _ h₁
  have hb := (@all_or_nothing sample {} 0 w₁ ha.pend ha.lock).2 _ _ _ h₂
  exact ⟨w₁, (processing.get processing_some).2, ha, hb, by decide +kernel, by decide +kernel,
    by decide +kernel⟩

end Payments
