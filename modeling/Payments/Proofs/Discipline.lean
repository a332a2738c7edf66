import Payments.Lib.Discipline
import Payments.Proofs.Finality
import Payments.Proofs.Recovery
import Payments.Proofs.Republication

namespace Payments

open Lib

namespace World

/-- The thread is outside of any transaction: it holds no lock and has changed nothing. -/
structure Outside (w : World) (t : Tid) : Prop where
  unlocked : ∀ x, w.lock x ≠ some t
  pend : w.pend t = []

/-- What a thread relies on: its contract, that no other thread takes a lock in its name, and
that what was seen stays so. -/
structure Aloof (t : Tid) (w w' : World) : Prop extends Rely t w w' where
  taken : ∀ x, w'.lock x = some t → w.lock x = some t
  seen : ∀ d ∈ w.trace, d ∈ w'.trace

/-- The thread handles a delivery of the event and has called the use case for it. -/
structure Serves (w : World) (t : Tid) (q : RabbitQueue) (m : Message) (event : PaymentEvent) :
    Prop where
  delivered : (t, .delivered q m) ∈ w.trace
  decoded : eventOf q m = .ok event
  entered : (t, .entered event.id) ∈ w.trace

/-- The thread has committed the settlement of the payment that the event names. -/
def Processes (w : World) (t : Tid) (event : PaymentEvent) : Prop :=
  ∃ id status now o, PaymentID.new (event.attr "payment_id") = .ok id ∧
    (t, .committed [.updatePayment id.value status now, .insertOutbox o]) ∈ w.trace

/-- The transactions that a thread may commit for what started it: a creation registers its
payment, the handler of a created event settles the payment that the event names, and a handler
confirms its event, a created one after it has settled the payment, or gives it up in its last
attempt. -/
inductive Entitled (lim : Limits) (w : World) (t : Tid) : List Write → Prop
  | register {command : CreatePaymentCommand} {row : PaymentRow} {o : OutboxRow}
      (hreq : (t, .created command) ∈ w.trace) (hkey : row.idempotencyKey = command.key)
      (hnew : row.New) (hc : row.Created o) (ho : o.status = .pending) :
      Entitled lim w t [.insertPayment row, .insertOutbox o]
  | settle {m : Message} {event : PaymentEvent} {id : PaymentID} {r : PaymentRow}
      {status : PaymentStatus} {now : DateTime} {o : OutboxRow}
      (hs : w.Serves t newPaymentsQ m event)
      (hid : PaymentID.new (event.attr "payment_id") = .ok id) (hrow : r.id = id.value)
      (hr : r ∈ w.db.payments.rows) (hl : w.lock (.payment r.id) = some t)
      (hp : r.status = .pending) (hst : status ≠ .pending)
      (hc : (Db.settleRow status now r).Processed o) (ho : o.status = .pending) :
      Entitled lim w t [.updatePayment r.id status now, .insertOutbox o]
  | confirm {q : RabbitQueue} {m : Message} {event : PaymentEvent} (hs : w.Serves t q m event)
      (hdone : q = newPaymentsQ → w.Processes t event) :
      Entitled lim w t [.updateOutbox event.id .confirmed none]
  | bury {q : RabbitQueue} {m : Message} {event : PaymentEvent} (hs : w.Serves t q m event)
      (ha : lim.attempts q ≤ m.attempt) :
      Entitled lim w t [.updateOutbox event.id .failed none]

/-- What a thread may publish. Only a poll publishes with a transaction open, which holds the row
of the event: the row is committed, pending and locked. A handler copies its message into the
next retry queue, or into the dead letters after it has committed that the event has failed. -/
inductive MayPublish (lim : Limits) (w : World) (t : Tid) : String → String → Message → Prop
  | announce {k : String} {body : Json} (hout : w.Outside t) :
      MayPublish lim w t paymentsExchange k { body := body }
  | relay {k : String} {o : OutboxRow} (hpoll : (t, .polled) ∈ w.trace) (hp : w.pend t = [])
      (ho : o ∈ w.db.outbox.rows) (hs : o.status = .pending) (hl : w.lock (.outbox o.id) = some t) :
      MayPublish lim w t paymentsExchange k { body := o.body }
  | retry {q queue : RabbitQueue} {m : Message} {event : PaymentEvent} (hout : w.Outside t)
      (hs : w.Serves t q m event) (ha : m.attempt < lim.attempts q)
      (hq : (retryRoutingQueues q (lim.attempts q))[m.attempt]? = some queue) :
      MayPublish lim w t paymentsDlx queue.routingKey
        { body := m.body, headers := some (m.attempt + 1) }
  | bury {q : RabbitQueue} {m : Message} {event : PaymentEvent} {k : String}
      {headers : Option Nat} (hout : w.Outside t) (hs : w.Serves t q m event)
      (ha : lim.attempts q ≤ m.attempt) (hh : headers.getD 0 ≤ m.attempt)
      (hc : (t, .committed [.updateOutbox event.id .failed none]) ∈ w.trace) :
      MayPublish lim w t paymentsDlx k { body := m.body, headers := headers }

/-- What a thread has seen to when it comes to an effect. -/
def Due (lim : Limits) (t : Tid) (w : World) : Op → Prop
  | .insertPayment values =>
    w.drawn values.id = some t ∧ ∀ key, w.lock (.paymentKey key) ≠ some t
  | .insertOutbox events => ∀ e ∈ events, ∀ o, e.toRow = .ok o → w.drawn o.id = some t
  | .updatePayment id _ _ => w.lock (.payment id) = some t
  | .updateOutbox id _ _ => w.lock (.outbox id) = some t
  | .commit => w.Entitled lim t (w.pend t)
  | .publish x k m => w.MayPublish lim t x k m
  | .send _ _ _ => w.Outside t ∧ ∃ m event, w.Serves t notifyPaymentsQ m event
  | .enter _ | .connect | .ack => w.Outside t
  | _ => True

end World

/-- The discipline of the service. -/
def discipline (lim : Limits) : Discipline World Op where
  inv := World.Inv
  rely := World.Aloof
  due := World.Due lim

/-- The steps of the others do not break the assertion. -/
def Lasting (t : Tid) (P : World → Prop) : Prop := ∀ w w', P w → World.Aloof t w w' → P w'

/-- The assertion is about what was seen. -/
def Recorded (P : World → Prop) : Prop :=
  ∀ w w', P w → (∀ d ∈ w.trace, d ∈ w'.trace) → P w'

/-- The effects that may be performed anywhere. -/
def Op.Free : Op → Prop
  | .insertPayment _ | .insertOutbox _ | .updatePayment _ _ _ | .updateOutbox _ _ _ | .commit
  | .publish _ _ _ | .send _ _ _ | .enter _ | .connect | .ack => False
  | _ => True

section Lasting

variable {t : Tid} {P P' : World → Prop} {ws : List Write}

theorem Stable.lasting (h : Stable t P) : Lasting t P := fun w w' hp hr => h w w' hp hr.toRely

theorem Lasting.and (h : Lasting t P) (h' : Lasting t P') : Lasting t (fun w => P w ∧ P' w) :=
  fun w w' hp hr => ⟨h w w' hp.1 hr, h' w w' hp.2 hr⟩

theorem lasting_true : Lasting t (fun _ => True) := fun _ _ _ _ => trivial

theorem Recorded.lasting (h : Recorded P) : Lasting t P := fun w w' hp hr => h w w' hp hr.seen

theorem recorded_told {d : Tid × Obs} : Recorded (fun w => d ∈ w.trace) :=
  fun _ _ hd hs => hs _ hd

theorem recorded_serves {q : RabbitQueue} {m : Message} {event : PaymentEvent} :
    Recorded (fun w => w.Serves t q m event) :=
  fun _ _ h hs => ⟨hs _ h.delivered, h.decoded, hs _ h.entered⟩

theorem recorded_processes {p : Prop} {event : PaymentEvent} :
    Recorded (fun w => p → w.Processes t event) := by
  intro w w' h hs hp
  obtain ⟨id, status, now, o, hid, hm⟩ := h hp
  exact ⟨id, status, now, o, hid, hs _ hm⟩

theorem lasting_told {d : Tid × Obs} : Lasting t (fun w => d ∈ w.trace) := recorded_told.lasting

theorem lasting_outside : Lasting t (fun w => w.Outside t) :=
  fun _ _ ho hr => ⟨fun x hx => ho.unlocked x (hr.taken x hx), hr.pend.trans ho.pend⟩

theorem lasting_held {x : Resource} : Lasting t (fun w => w.lock x = some t) :=
  fun _ _ hl hr => hr.lock x hl

/-- The thread holds the lock on no idempotency key. -/
def Keyless (t : Tid) (w : World) : Prop := ∀ key, w.lock (.paymentKey key) ≠ some t

theorem lasting_keyless : Lasting t (Keyless t) :=
  fun _ _ hk hr key hl => hk key (hr.taken _ hl)

theorem World.Outside.keyless {w : World} (h : w.Outside t) : Keyless t w :=
  fun key => h.unlocked (.paymentKey key)

theorem lasting_serves {q : RabbitQueue} {m : Message} {event : PaymentEvent} :
    Lasting t (fun w => w.Serves t q m event) := recorded_serves.lasting

end Lasting

namespace World

variable {lim : Limits} {w w' : World} {t : Tid} {op : Op} {ch : Choice} {r : Except Exc op.Res}

/-- A transaction that is closed holds nothing. -/
theorem outside_drop (w : World) (t : Tid) : (w.drop t).Outside t :=
  ⟨fun _ => drop_unlocks, by simp⟩

/-- Which effects leave a thread outside of a transaction. -/
theorem does_outside (h : Does lim t w op ch r w')
    (ho : op.Emits ∨ op.Sends ∨ op = .connect ∨ op = .ack ∨ ∃ e, op = .enter e)
    (hout : w.Outside t) : w'.Outside t := by
  have hsame : w'.lock = w.lock → w'.pend = w.pend → w'.Outside t :=
    fun hl hp => ⟨fun x => hl ▸ hout.unlocked x, hp ▸ hout.pend⟩
  rcases ho with ⟨_, _, rfl⟩ | ⟨_, _, _, rfl⟩ | rfl | rfl | ⟨_, rfl⟩ <;> cases h <;>
    exact hsame rfl rfl

/-- A thread takes the lock on a key with the `INSERT` of a payment only. -/
theorem does_keyless (h : Does lim t w op ch r w') (ho : ∀ values, op ≠ .insertPayment values)
    (hk : Keyless t w) : Keyless t w' := by
  intro key hl
  have hdrop : (w.drop t).lock (.paymentKey key) ≠ some t := drop_unlocks
  have hhold : ∀ rs, .paymentKey key ∉ rs → (w.hold t rs).lock (.paymentKey key) ≠ some t := by
    intro rs hn
    simpa only [hold_lock, if_neg hn] using hk key
  cases h with
  | fault =>
    cases op <;> first
      | exact hk key hl
      | exact hdrop hl
  | insertPayment => exact ho _ rfl
  | lockPayment | lockKey | lockEvent => exact hhold _ (by simp) hl
  | @claim id => exact hhold [.outbox id] (by simp) hl
  | pendings =>
    refine hhold _ (fun hm => ?_) hl
    obtain ⟨_, _, he⟩ := List.mem_map.mp hm
    cases he
  | insertOutbox =>
    rw [write_lock] at hl
    refine hhold _ (fun hm => ?_) hl
    obtain ⟨x, hx, hm⟩ := List.mem_flatMap.mp hm
    obtain ⟨o, _, rfl⟩ := List.mem_map.mp hx
    simp [Write.resources] at hm
  | updatePayment | updateOutbox =>
    rw [write_lock] at hl
    exact hhold _ (by simp [Write.resources]) hl
  | commit | lostCommit | rollback | close => exact hdrop hl
  | _ => exact hk key hl

end World

section Rules

variable [Externals] {lim : Limits} {t : Tid} {w : World} {α β : Type}

/-- Under the discipline of the service a program ends in `Q`. -/
abbrev Abides (lim : Limits) (t : Tid) (p : Service α) (Q : Except Exc α → World → Prop)
    (w : World) : Prop :=
  abides (service lim) (discipline lim) t p Q w

/-- One effect, from an assertion that lasts. -/
theorem abides_op {op : Op} {Q : Except Exc op.Res → World → Prop} (P : World → Prop) (hP : P w)
    (hl : Lasting t P) (h : ∀ w₁, P w₁ → w₁.Inv → World.Due lim t w₁ op ∧
      ∀ ch r w₂, World.Does lim t w₁ op ch r w₂ → Q r w₂) :
    Abides lim t (perform op) Q w := by
  refine abides_perform hP hl (fun w₁ hp hi => ?_)
  obtain ⟨hd, hq⟩ := h w₁ hp hi
  exact ⟨hd, fun ch r w₂ he => hq ch r w₂ (World.exec_does he)⟩

omit [Externals] in
theorem due_free {op : Op} (h : op.Free) : World.Due lim t w op := by
  cases op <;> first
    | exact h.elim
    | trivial

/-- A program of free effects keeps what each of them keeps. -/
theorem abides_free {p : Service α} {P : Op → Prop} {A : World → Prop} (hp : p.Only P)
    (hfree : ∀ op, P op → op.Free) (hA : A w) (hl : Lasting t A)
    (h : ∀ op, P op → ∀ w₁ ch r w₂, A w₁ → World.Does lim t w₁ op ch r w₂ → A w₂) :
    Abides lim t p (fun _ => A) w := by
  refine abides_only hp hA hl (fun op ho w₁ hA₁ _ => ?_)
  exact ⟨due_free (hfree op ho), fun ch r w₂ he => h op ho w₁ ch r w₂ hA₁ (World.exec_does he)⟩

/-- What the contract of the service tells of a program. -/
theorem abides_meets {p : Service α} {Q Q' : Except Exc α → World → Prop}
    (h : Abides lim t p Q w) (h' : Meets lim t p Q' w) :
    Abides lim t p (fun r w => Q r w ∧ Q' r w) w :=
  abides_with (fun _ hi => hi) (fun _ _ hr => hr.toRely) h h'

/-- What was seen before a program is seen after it. -/
theorem abides_recorded {p : Service α} {Q : Except Exc α → World → Prop} {P : World → Prop}
    (hP : Recorded P) (h : Abides lim t p Q w) (hw : P w) :
    Abides lim t p (fun r w => Q r w ∧ P w) w :=
  abides_frame hP.lasting
    (fun _ _ _ _ _ hs he => hP _ _ hs (World.does_seen (World.exec_does he))) h hw

theorem abides_seen {p : Service α} {Q : Except Exc α → World → Prop} {d : Tid × Obs}
    (h : Abides lim t p Q w) (hd : d ∈ w.trace) :
    Abides lim t p (fun r w => Q r w ∧ d ∈ w.trace) w :=
  abides_recorded recorded_told h hd

theorem abides_serving {p : Service α} {Q : Except Exc α → World → Prop} {q : RabbitQueue}
    {m : Message} {event : PaymentEvent} (h : Abides lim t p Q w) (hs : w.Serves t q m event) :
    Abides lim t p (fun r w => Q r w ∧ w.Serves t q m event) w :=
  abides_recorded recorded_serves h hs

/-- A unit of work leaves its thread outside of a transaction, whatever it ends in. -/
theorem abides_within {body : Service α} {R : Except Exc α → World → Prop}
    (hl : ∀ r, Lasting t (R r)) (hdrop : ∀ r w, R r w → R r (w.drop t))
    (herr : ∀ r e w, R r w → R (.error e) w) (h : Abides lim t body R w) :
    Abides lim t (Uow.within body) (fun r w => R r w ∧ w.Outside t) w := by
  have hroll : ∀ e w, R (.error e) w →
      Abides lim t (perform .rollback) (fun _ => R (.error e)) w := by
    intro e w hR
    refine abides_op (R (.error e)) hR (hl _) (fun w₁ hR₁ _ => ?_)
    refine ⟨trivial, fun ch r w₂ hd => ?_⟩
    cases hd with
    | fault => exact hR₁
    | rollback => exact hdrop _ _ hR₁
  refine abides_seq (fun x w => ∃ r, x = .ok r ∧ R r w)
    (abides_outcome (abides_mono h (fun r w hr => ⟨r, rfl, hr⟩))) ?_ ?_
  · rintro r w ⟨_, he, hr⟩
    cases he
    refine abides_seq (fun x w => (∃ u, x = .ok u) ∧ R r w) ?_ ?_ ?_
    · cases r with
      | ok a => exact ⟨⟨(), rfl⟩, hr⟩
      | error e =>
        -- the failure of a rollback is swallowed
        exact abides_catch (fun _ => R (.error e)) (hroll e w hr) (fun u _ hw => ⟨⟨u, rfl⟩, hw⟩)
          (fun _ _ hw => ⟨⟨(), rfl⟩, hw⟩)
    · rintro _ w ⟨_, hr⟩
      refine abides_seq (fun x w => (∀ e, x = .error e → R (.error e) w) ∧
        R r w ∧ w.Outside t) (abides_op (R r) hr (hl r) ?_) ?_ ?_
      · intro w₁ hR₁ _
        have hout := World.outside_drop w₁ t
        refine ⟨trivial, fun ch r' w₂ hd => ?_⟩
        cases hd with
        | fault => exact ⟨fun e _ => herr _ e _ (hdrop _ _ hR₁), hdrop _ _ hR₁, hout⟩
        | close => exact ⟨fun _ he => (by cases he), hdrop _ _ hR₁, hout⟩
      · intro _ w hw
        exact (abides_ofExcept r).mpr hw.2
      · intro e w hw
        exact ⟨hw.1 e rfl, hw.2.2⟩
    · rintro _ _ ⟨⟨_, he⟩, _⟩
      cases he
  · rintro _ _ ⟨_, he, _⟩
    cases he

/-- A commit that returns is seen. -/
theorem abides_commit {ws : List Write} {F P : World → Prop} (hF : Firm t F) (hl : Lasting t P)
    (hd : During t ws F w) (hP : P w) (h : ∀ w₁, F w₁ → P w₁ → w₁.Entitled lim t ws) :
    Abides lim t Uow.commit (fun r w => r = .ok () → (t, .committed ws) ∈ w.trace) w := by
  have hroll : ∀ (e : Exc) (w : World),
      Abides lim t ((perform .rollback).bind (fun _ => Prog.raise e))
        (fun r w => r = .ok () → (t, Obs.committed ws) ∈ w.trace) w := by
    intro e w
    refine abides_seq (fun _ _ => True) (abides_op (fun _ => True) trivial lasting_true
      (fun _ _ _ => ⟨trivial, fun _ _ _ _ => trivial⟩)) ?_ ?_
    · intro _ _ _ he
      cases he
    · intro _ _ _ he
      cases he
  refine abides_catch (fun r w => r = .ok () → (t, .committed ws) ∈ w.trace)
    (abides_op _ ⟨hd, hP⟩ ((hF.during ws).lasting.and hl) ?_) (fun _ _ hw => hw) ?_
  · rintro w₁ ⟨⟨hpend, hF₁⟩, hP₁⟩ _
    have hdue : World.Due lim t w₁ .commit := by
      change w₁.Entitled lim t (w₁.pend t)
      rw [hpend]
      exact h w₁ hF₁ hP₁
    refine ⟨hdue, fun ch r w₂ hd he => ?_⟩
    cases hd with
    | fault | lostCommit => cases he
    | commit =>
      rw [← hpend]
      exact List.mem_cons_self
  · intro e w _
    split
    · exact hroll _ w
    · exact hroll _ w
    · intro he
      cases he

/-- A thread publishes its events outside of a transaction. -/
theorem abides_publish {events : List PaymentEvent} (h : w.Outside t) :
    Abides lim t (EventBus.publishPaymentEvents events) (fun _ w => w.Outside t) w := by
  refine abides_only (only_publish events) h lasting_outside (fun op ho w₁ hout _ => ?_)
  have hdue : World.Due lim t w₁ op := by
    obtain ⟨k, body, rfl⟩ := ho
    exact .announce hout
  exact ⟨hdue, fun ch r w₂ he => World.does_outside (World.exec_does he) (.inl ho) hout⟩

/-- One effect that a thread comes to outside of a transaction, and that leaves it there. -/
theorem abides_outside {op : Op} (h : w.Outside t) (hd : ∀ w₁ : World, w₁.Outside t →
    World.Due lim t w₁ op) (ho : op.Emits ∨ op.Sends ∨ op = .connect ∨ op = .ack ∨
      ∃ e, op = .enter e) : Abides lim t (perform op) (fun _ w => w.Outside t) w := by
  refine abides_op _ h lasting_outside (fun w₁ hout _ => ?_)
  exact ⟨hd w₁ hout, fun ch r w₂ hdoes => World.does_outside hdoes ho hout⟩

end Rules

end Payments
