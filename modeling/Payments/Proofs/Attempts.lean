import Payments.Proofs.Chains
import Payments.Proofs.Orphans

namespace Payments

open Lib

/-- The message waits in the queue, or it did when it was delivered. -/
def World.Queued (w : World) (q : RabbitQueue) (m : Message) : Prop :=
  (q, m) ∈ w.ready ∨ (∃ t, (t, q, m) ∈ w.unacked) ∨ ∃ t, (t, .delivered q m) ∈ w.trace

/-- The use case has been called for the event of the message in each attempt before. -/
def World.Tried (w : World) (m : Message) : Prop :=
  ∀ j < m.attempt, ∃ t q m' event, w.Serves t q m' event ∧ m'.body = m.body ∧ m'.attempt = j

/-- A handler has given up the event of the message on its last attempt. -/
def World.GivenUp (lim : Limits) (w : World) (m : Message) : Prop :=
  ∃ t q m' event, w.Serves t q m' event ∧ m'.body = m.body ∧ lim.attempts q ≤ m'.attempt ∧
    (t, .committed [.updateOutbox event.id .failed none]) ∈ w.trace

/-- What the place and the header of a message tell is so. -/
structure World.Accounted (lim : Limits) (w : World) (q : RabbitQueue) (m : Message) : Prop where
  tried : w.Tried m
  dead : q = dlq → w.GivenUp lim m

theorem recorded_tried {m : Message} : Recorded (fun w => w.Tried m) := by
  intro w w' h hs j hj
  obtain ⟨t, q, m', event, hv, hm⟩ := h j hj
  exact ⟨t, q, m', event, recorded_serves _ _ hv hs, hm⟩

theorem recorded_given_up {lim : Limits} {m : Message} : Recorded (fun w => w.GivenUp lim m) := by
  intro w w' h hs
  obtain ⟨t, q, m', event, hv, hb, ha, hc⟩ := h
  exact ⟨t, q, m', event, recorded_serves _ _ hv hs, hb, ha, hs _ hc⟩

theorem recorded_accounted {lim : Limits} {q : RabbitQueue} {m : Message} :
    Recorded (fun w => w.Accounted lim q m) :=
  fun _ _ h hs => ⟨recorded_tried _ _ h.tried hs, fun hq => recorded_given_up _ _ (h.dead hq) hs⟩

/-- A first copy has not been tried before. -/
theorem World.tried_first {w : World} {m : Message} (h : m.attempt = 0) : w.Tried m := by
  intro j hj
  omega

theorem World.Inv.carries {w : World} {q : RabbitQueue} {m : Message} (h : w.Inv)
    (hq : w.Queued q m) : Carries w.db q m := by
  rcases hq with hm | ⟨t, hm⟩ | ⟨t, hm⟩
  · exact h.ready _ hm
  · exact h.unacked _ hm
  · exact h.delivered t q m hm

section

variable [Externals] {lim : Limits} {c c' : Config World Op Op.Res Exc Reply}
  {mv : Move Op Choice Req Env} {t : Tid} {q : RabbitQueue} {m : Message}

/-- What was seen stays so. -/
theorem reach_seen {allow : World → Move Op Choice Req Env → Prop}
    (h : (service lim).Reach allow c c') : ∀ d ∈ c.shared.trace, d ∈ c'.shared.trace := by
  induction h with
  | init => exact fun _ hd => hd
  | step _ _ hs ih => exact fun d hd => step_seen hs d (ih d hd)

/-- Only a delivery to its handler tells of a delivered message. -/
theorem step_delivered (hs : (service lim).Step c mv c')
    (hm : (t, .delivered q m) ∈ c'.shared.trace) :
    (t, .delivered q m) ∈ c.shared.trace ∨ Subscribed q ∧ (q, m) ∈ c.shared.ready := by
  by_cases hold : (t, Obs.delivered q m) ∈ c.shared.trace
  · exact .inl hold
  have hr := revealed hs hold hm
  cases mv with
  | run _ op _ =>
    obtain ⟨_, hshow⟩ := hr
    cases op <;> exact hshow.elim
  | start _ req =>
    cases req with
    | create | poll => cases hr.2
    | get => exact hr.elim
    | deliver i =>
      obtain ⟨_, q', m', p, hi, hp, he⟩ := hr
      cases he
      exact .inr ⟨(subscriber_copies hp).1, List.mem_of_getElem? hi⟩
  | exit =>
    obtain ⟨_, _, he⟩ := hr
    cases he
  | kill => cases hr.2
  | env => exact hr.elim

/-- Messages are delivered from the queues of the handlers only. -/
theorem delivered_subscribed (h : Reachable lim c) (hm : (t, .delivered q m) ∈ c.shared.trace) :
    Subscribed q := by
  induction h with
  | init => cases hm
  | step _ _ hs ih => exact (step_delivered hs hm).elim ih And.left

/-- Where a message comes from: it was there before, a thread publishes it, or it expires in
another queue. -/
theorem step_queued (hs : (service lim).Step c mv c') (hm : c'.shared.Queued q m) :
    c.shared.Queued q m ∨
      (∃ t x key k, c.threads t = some (.call (.publish x key m) k) ∧ q ∈ route lim x key) ∨
      ∃ p args, c.shared.Queued p m ∧ p.arguments = some args ∧
        q ∈ route lim args.deadLetterExchange args.deadLetterRoutingKey := by
  have htold : (∃ t, (t, .delivered q m) ∈ c'.shared.trace) → c.shared.Queued q m := by
    intro ⟨t, hm⟩
    rcases step_delivered hs hm with hm | ⟨_, hm⟩
    · exact .inr (.inr ⟨t, hm⟩)
    · exact .inl hm
  have hsame : c'.shared.ready = c.shared.ready → c'.shared.unacked = c.shared.unacked →
      c.shared.Queued q m := by
    intro hr hu
    rcases hm with hm | ⟨t, hm⟩ | hm
    · exact .inl (hr ▸ hm)
    · exact .inr (.inl ⟨t, hu ▸ hm⟩)
    · exact htold hm
  cases hs with
  | @run t op k ch r w ht he =>
    cases World.exec_does he with
    | publish | lostPublish =>
      rcases hm with hm | ⟨u, hm⟩ | hm
      · rcases List.mem_append.mp hm with hm | hm
        · exact .inl (.inl hm)
        · obtain ⟨q', hq, heq⟩ := List.mem_map.mp hm
          cases heq
          exact .inr (.inl ⟨t, _, _, k, ht, hq⟩)
      · exact .inl (.inr (.inl ⟨u, hm⟩))
      · exact .inl (htold hm)
    | ack =>
      rcases hm with hm | ⟨u, hm⟩ | hm
      · exact .inl (.inl hm)
      · exact .inl (.inr (.inl ⟨u, (List.mem_filter.mp hm).1⟩))
      · exact .inl (htold hm)
    | fault => cases op <;> exact .inl (hsame rfl rfl)
    | _ => exact .inl (hsame rfl rfl)
  | exit | kill => exact .inl (hsame rfl rfl)
  | @start req p w he =>
    cases req with
    | create | get | poll =>
      cases he
      exact .inl (hsame rfl rfl)
    | deliver i =>
      obtain ⟨⟨q', m'⟩, hi, hb⟩ := Option.bind_eq_some_iff.mp he
      obtain ⟨p', _, heq⟩ := Option.map_eq_some_iff.mp hb
      cases heq
      rcases hm with hm | ⟨u, hm⟩ | hm
      · exact .inl (.inl (List.mem_of_mem_eraseIdx hm))
      · rcases List.mem_cons.mp hm with heq | hm
        · cases heq
          exact .inl (.inl (List.mem_of_getElem? hi))
        · exact .inl (.inr (.inl ⟨u, hm⟩))
      · exact .inl (htold hm)
  | @env e w he =>
    cases e with
    | expire i =>
      obtain ⟨⟨p, m'⟩, hi, hb⟩ := Option.bind_eq_some_iff.mp he
      obtain ⟨args, ha, heq⟩ := Option.map_eq_some_iff.mp hb
      cases heq
      rcases hm with hm | hm | hm
      · rcases List.mem_append.mp hm with hm | hm
        · exact .inl (.inl (List.mem_of_mem_eraseIdx hm))
        · obtain ⟨q', hq, heq⟩ := List.mem_map.mp hm
          cases heq
          exact .inr (.inr ⟨p, args, .inl (List.mem_of_getElem? hi), ha, hq⟩)
      · exact .inl (.inr (.inl hm))
      · exact .inl (htold hm)
    | requeue u =>
      obtain ⟨⟨v, d⟩, hf, heq⟩ := Option.map_eq_some_iff.mp he
      cases heq
      rcases hm with hm | ⟨v', hm⟩ | hm
      · rcases List.mem_append.mp hm with hm | hm
        · exact .inl (.inl hm)
        · cases List.mem_singleton.mp hm
          exact .inl (.inr (.inl ⟨v, List.mem_of_find?_eq_some hf⟩))
      · exact .inl (.inr (.inl ⟨v', (List.mem_filter.mp hm).1⟩))
      · exact .inl (htold hm)
    | duplicate i =>
      simp only [service, World.environment, World.duplicate] at he
      split at he
      · rename_i v q' m' hi
        cases he
        rcases hm with hm | hm | hm
        · rcases List.mem_append.mp hm with hm | hm
          · exact .inl (.inl hm)
          · cases List.mem_singleton.mp hm
            exact .inl (.inr (.inr ⟨v, List.mem_of_getElem? hi⟩))
        · exact .inl (.inr (.inl hm))
        · exact .inl (htold hm)
      · cases he

/-- What a thread may publish is accounted for, in every queue that it reaches. -/
theorem publish_accounted {x key : String} (h : Reachable lim c)
    (hall : ∀ q m, c.shared.Queued q m → c.shared.Accounted lim q m)
    (hp : c.shared.MayPublish lim t x key m) (hq : q ∈ route lim x key) :
    c.shared.Accounted lim q m := by
  have hbase : q ∈ route lim paymentsExchange key → q ≠ dlq :=
    fun hq => Subscribed.ne_dlq (route_payments hq).1
  have hserved : ∀ {t q m event}, c.shared.Serves t q m event → c.shared.Tried m :=
    fun hs => (hall _ _ (.inr (.inr ⟨_, hs.delivered⟩))).tried
  cases hp with
  | announce | relay =>
    exact ⟨World.tried_first rfl, fun hd => absurd hd (hbase hq)⟩
  | @retry q' queue m' event _ hs _ hi =>
    have hretry : queue ∈ retryRoutingQueues newPaymentsQ lim.process ∨
        queue ∈ retryRoutingQueues notifyPaymentsQ lim.notify := by
      have hmem := List.mem_of_getElem? hi
      rcases delivered_subscribed h hs.delivered with rfl | rfl
      · exact .inl hmem
      · exact .inr hmem
    rw [route_retry_only hretry, List.mem_singleton] at hq
    subst hq
    refine ⟨?_, ?_⟩
    · intro j hj
      have hle : j < m'.attempt + 1 := hj
      rcases Nat.lt_succ_iff_lt_or_eq.mp hle with hj | rfl
      · exact hserved hs j hj
      · exact ⟨t, q', m', event, hs, rfl, rfl⟩
    · intro hd
      have harg : q.arguments ≠ none := hretry.elim (fun h => (retry_queue h).2.2.2)
        (fun h => (retry_queue h).2.2.2)
      exact absurd (by rw [hd]; rfl) harg
  | @bury q' m' event _ headers _ hs ha hh hc =>
    refine ⟨?_, fun _ => ⟨t, q', m', event, hs, rfl, ha, hc⟩⟩
    intro j hj
    have hlt : j < m'.attempt := Nat.lt_of_lt_of_le hj hh
    exact hserved hs j hlt

/-- Every message that the broker has or had is accounted for. -/
theorem accounted_reach (h : Reachable lim c) :
    ∀ q m, c.shared.Queued q m → c.shared.Accounted lim q m := by
  induction h with
  | init =>
    intro q m hm
    rcases hm with hm | ⟨_, hm⟩ | ⟨_, hm⟩ <;> cases hm
  | @step c c' mv hr _ hs ih =>
    intro q m hm
    have hold : c.shared.Accounted lim q m → c'.shared.Accounted lim q m :=
      fun h => recorded_accounted _ _ h (step_seen hs)
    rcases step_queued hs hm with hm | ⟨t, x, key, k, ht, hq⟩ | ⟨p, args, hp, ha, hq⟩
    · exact hold (ih q m hm)
    · exact hold (publish_accounted hr ih (due_reach hr ht) hq)
    · have hreturns := ((reachable_holds hr).inv.carries hp).1 args ha
      rw [hreturns] at hq
      exact hold ⟨(ih p m hp).tried, fun hd => absurd hd (Subscribed.ne_dlq (route_payments hq).1)⟩

omit [Externals] in
/-- The event of a message that is served is the one whose row has the body of the message. -/
theorem World.Serves.event {w : World} {event : PaymentEvent} {o : OutboxRow}
    (hs : w.Serves t q m event) (hi : w.Inv) (hb : m.body = o.body) : event.id = o.id := by
  obtain ⟨y, _, hy, hid⟩ := hs.stored hi
  have htext : some y.id.str = some o.id.str := by
    rw [← body_id, ← body_id, ← hy, hb]
  rw [← hid]
  exact UUID.str_inj (Option.some.inj htext)

omit [Externals] in
/-- A message for a handler carries an event of the kind that the handler expects. -/
theorem World.Inv.queue {w : World} {o : OutboxRow} (h : w.Inv) (hm : w.Queued q m)
    (hq : Subscribed q) (hb : m.body = o.body) : o.queue = "payments." ++ q.routingKey := by
  obtain ⟨_, y, _, hy, hk⟩ := h.carries hm
  rw [(base_topic hq).1] at hk
  rw [← (body_inj (hy.symm.trans hb)).1]
  rcases hk with hk | hk
  · rcases hq with rfl | rfl <;> exact absurd hk (by decide)
  · exact hk

theorem Serves.queue {event : PaymentEvent} {o : OutboxRow} (h : Reachable lim c)
    (hs : c.shared.Serves t q m event) (hb : m.body = o.body) :
    Subscribed q ∧ o.queue = "payments." ++ q.routingKey :=
  have hq := delivered_subscribed h hs.delivered
  ⟨hq, (reachable_holds h).inv.queue (.inr (.inr ⟨t, hs.delivered⟩)) hq hb⟩

/-- A delivery of a notification that the webhook refuses, and what follows in so many effects. -/
def refuseRun (t : Tid) (n : Nat) : Schedule :=
  [.start (.deliver 0)] ++ claimRun t ++
    [.run t .ok, .run t (.fault .webhookSenderUnavailable)] ++ oks t n ++ [.exit t]

/-- The webhook refuses the notification in each attempt, and the last one gives it up. -/
def refusedRun : Schedule :=
  settledRun ++ refuseRun 2 3 ++ [.env (.expire 0)] ++ refuseRun 3 3 ++ [.env (.expire 0)] ++
    refuseRun 4 3 ++ [.env (.expire 0)] ++ refuseRun 5 8

omit [Externals] in
set_option maxRecDepth 20000 in
theorem refusedRun_some : (after {} refusedRun).isSome = true := by decide +kernel

/-- The notification has failed and is among the dead letters. -/
def refused : Config World Op Op.Res Exc Reply := (after {} refusedRun).get refusedRun_some

omit [Externals] in
set_option maxRecDepth 20000 in
theorem refused_dead : refused.shared.ready.any (fun d => d.1 = dlq ∧ d.2.attempt = 3) = true ∧
    refused.shared.db.outbox.rows.any (fun o => o.status = .failed) = true := by decide +kernel

/-- The broker tells no lies about attempts. A message that waits with an `x-attempt` header has
seen the use case called for its event in each of the attempts before, and one that waits among
the dead letters has been given up on the last attempt, which committed that its event failed. -/
theorem waiting_accounted (h : Reachable lim c) (hm : (q, m) ∈ c.shared.ready) :
    c.shared.Tried m ∧ (q = dlq → c.shared.GivenUp lim m) :=
  have hacc := accounted_reach h q m (.inl hm)
  ⟨hacc.tried, hacc.dead⟩

omit [Externals] in
theorem waiting_accounted_dead : @Reachable sample {} refused ∧ ∃ m, (dlq, m) ∈ refused.shared.ready ∧
    m.attempt = 3 ∧ refused.shared.Tried m ∧ refused.shared.GivenUp {} m := by
  have hr : @Reachable sample {} refused := reachable_after refusedRun_some
  obtain ⟨⟨q, m⟩, hm, hd⟩ := List.any_eq_true.mp refused_dead.1
  obtain ⟨rfl, ha⟩ := of_decide_eq_true hd
  obtain ⟨htried, hgiven⟩ := @waiting_accounted sample _ _ _ _ hr hm
  exact ⟨hr, m, hm, ha, htried, hgiven rfl⟩

/-- An event is reported as failed only after its use case was called in every attempt that its
handler has, the first and each retry. -/
theorem failed_after_every_attempt {o : OutboxRow} (h : Reachable lim c)
    (ho : o ∈ c.shared.db.outbox.rows) (hs : o.status = .failed) :
    ∃ q, Subscribed q ∧ o.queue = "payments." ++ q.routingKey ∧ ∀ j ≤ lim.attempts q,
      ∃ t m event, c.shared.Serves t q m event ∧ event.id = o.id ∧ m.attempt = j := by
  have hinit : ¬ Db.Ended (Config.initial {} : Config World Op Op.Res Exc Reply).shared.db o.id
      .failed := by
    intro ⟨_, hx, _⟩
    cases hx
  obtain ⟨c₁, k, t, h₁, ht, he, h₂⟩ := ended_step .init (.inr rfl) h hinit ⟨o, ho, rfl, hs⟩
  have hi := (reachable_holds h).inv
  generalize hid : o.id = id at he
  cases he with
  | @bury q m event hserves ha =>
    have hserved : c.shared.Serves t q m event := recorded_serves _ _ hserves (reach_seen h₂)
    obtain ⟨y, hy, hbody, hyid⟩ := hserved.stored hi
    obtain rfl : y = o := Table.eq_of_key hy ho (hyid.trans hid.symm)
    obtain ⟨hq, hqueue⟩ := Serves.queue h hserved hbody
    refine ⟨q, hq, hqueue, ?_⟩
    intro j hj
    rcases Nat.lt_or_eq_of_le (hj.trans ha) with hlt | rfl
    · have htried := (accounted_reach h q m (.inr (.inr ⟨t, hserved.delivered⟩))).tried
      obtain ⟨u, q', m', e, hs', hb, hj'⟩ := htried j hlt
      obtain ⟨hq', hqueue'⟩ := Serves.queue h hs' (hb.trans hbody)
      have hsame : q'.routingKey = q.routingKey := by
        simpa using hqueue'.symm.trans hqueue
      have : q' = q := by
        rcases hq with rfl | rfl <;> rcases hq' with rfl | rfl <;> first
          | rfl
          | exact absurd hsame (by decide)
      subst this
      exact ⟨u, m', e, hs', (hs'.event hi (hb.trans hbody)).trans hid, hj'⟩
    · exact ⟨t, m, event, hserved, rfl, rfl⟩

omit [Externals] in
theorem failed_after_every_attempt_refused : @Reachable sample {} refused ∧
    ∃ o ∈ refused.shared.db.outbox.rows, o.status = .failed ∧ ∃ q, ∀ j ≤ 3, ∃ t m event,
      refused.shared.Serves t q m event ∧ event.id = o.id ∧ m.attempt = j := by
  have hr : @Reachable sample {} refused := reachable_after refusedRun_some
  obtain ⟨o, ho, hs⟩ := List.any_eq_true.mp refused_dead.2
  obtain ⟨q, hq, _, hall⟩ := @failed_after_every_attempt sample _ _ _ hr ho (of_decide_eq_true hs)
  have hthree : Limits.attempts {} q = 3 := by rcases hq with rfl | rfl <;> rfl
  exact ⟨hr, o, ho, of_decide_eq_true hs, q, hthree ▸ hall⟩

end

end Payments
