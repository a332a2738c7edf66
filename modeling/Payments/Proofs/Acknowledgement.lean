import Payments.Proofs.Atomicity

namespace Payments

open Lib

/-- The event is in an end state, or a copy of the message with the next attempt was
published to a retry queue of its handler. -/
def Resolved (lim : Limits) (base : RabbitQueue) (maxAttempts : Nat) (t : Tid) (m : Message)
    (id : UUID) (new : List (Tid × Obs)) (w : World) : Prop :=
  (∃ o ∈ w.db.outbox.rows, o.id = id ∧ o.status.Terminal) ∨
    ∃ retry ∈ retryRoutingQueues base maxAttempts, retry ∈ route lim paymentsDlx retry.routingKey ∧
      (t, .accepted paymentsDlx retry.routingKey { m with headers := some (m.attempt + 1) }) ∈ new

/-- The event has been resolved since `w₀`. -/
def Concluded (lim : Limits) (base : RabbitQueue) (maxAttempts : Nat) (t : Tid) (m : Message)
    (id : UUID) (w₀ w : World) : Prop :=
  ∃ new, w.trace = new ++ w₀.trace ∧ Resolved lim base maxAttempts t m id new w

/-- Since `w₀` the message of the thread has not been acknowledged, and no other transaction
is open. -/
structure Trails (t : Tid) (w₀ w : World) : Prop where
  free : ∀ r, w.Free t r
  trace : ∃ new, w.trace = new ++ w₀.trace ∧ (t, .acked) ∉ new

/-- A trail on which the session is closed and the event has a status. -/
structure Idle (t : Tid) (w₀ : World) (id : UUID) (s : TaskStatus) (w : World) : Prop
    extends Trails t w₀ w where
  pend : w.pend t = []
  row : ∃ o ∈ w.db.outbox.rows, o.id = id ∧ o.status = s

section

variable {t : Tid} {w₀ w w' : World} {lim : Limits}

theorem Trails.noted (h : Trails t w₀ w) (hf : ∀ r, w.Free t r → w'.Free t r)
    {new : List (Tid × Obs)} (ht : w'.trace = new ++ w.trace) (ha : (t, .acked) ∉ new) :
    Trails t w₀ w' := by
  obtain ⟨old, ho, hn⟩ := h.trace
  refine ⟨fun r => hf r (h.free r), new ++ old, by rw [ht, ho, List.append_assoc], ?_⟩
  intro hm
  rcases List.mem_append.mp hm with hm | hm
  · exact ha hm
  · exact hn hm

/-- Only the acknowledgement leaves the trail. -/
theorem Trails.does (h : Trails t w₀ w) {op : Op} (ho : op ≠ .ack) {ch : Choice}
    {r : Except Exc op.Res} (hd : World.Does lim t w op ch r w') : Trails t w₀ w' := by
  have hf : ∀ r, w.Free t r → w'.Free t r := fun r => World.does_free hd
  rcases World.does_trace hd with ht | ⟨o, hs, ht⟩
  · have hn : (t, Obs.acked) ∉ ([] : List (Tid × Obs)) := List.not_mem_nil
    exact h.noted hf (ht.trans (List.nil_append _).symm) hn
  · have hn : (t, Obs.acked) ∉ [(t, o)] := by
      intro hm
      cases List.mem_singleton.mp hm
      cases op <;> first
        | exact ho rfl
        | exact hs
    exact h.noted hf ht hn

theorem Trails.stored {C : List Write → OutboxRow → Prop} {o : OutboxRow} (h : Trails t w₀ w)
    (hst : Stored t w C o w') : Trails t w₀ w' := by
  obtain ⟨w₁, ws, hd, _, rfl⟩ := hst
  have hn : (t, Obs.acked) ∉ [(t, Obs.committed (w₁.pend t))] := by simp
  exact h.noted (fun r hr => World.free_drop (hd.free r hr)) (by simp [hd.trace]) hn

theorem Trails.drop (h : Trails t w₀ w) : Trails t w₀ (w.drop t) :=
  ⟨fun r => World.free_drop (h.free r), h.trace⟩

end

section

variable [Externals] {lim : Limits} {t : Tid} {w w₀ : World} {id : UUID} {s : TaskStatus}

/-- Everything may fail, and what was applied may raise. -/
abbrev Anything : World → Move Op Choice Req Env → Prop := fun _ _ => True

/-- An effect of the claim. -/
theorem solo_step {op : Op} {db : Db} (ho : op ≠ .ack) (hc : op ≠ .commit)
    (h : w.db = db ∧ Trails t w₀ w) :
    Solo lim Anything t (perform op) (Ends (fun _ w => w.db = db ∧ Trails t w₀ w)
      (fun _ w => w.db = db ∧ Trails t w₀ w)) w := by
  refine solo_op (fun ch r w' _ hd => ?_)
  have h' : w'.db = db ∧ Trails t w₀ w' := ⟨(World.does_db hd hc).trans h.1, h.2.does ho hd⟩
  cases r <;> exact h'

/-- Where no other transaction is open, the claim works exactly on a pending event. -/
theorem solo_claim (h : Idle t w₀ id s w) :
    Solo lim Anything t (claim id) (Ends (fun b w' => (b = decide (s = .pending) ∧ w'.db = w.db) ∧
      Idle t w₀ id s w') (fun _ w' => Trails t w₀ w')) w := by
  obtain ⟨o, ho, hid, hs⟩ := h.row
  have hclosed : ∀ w', w'.db = w.db ∧ Trails t w₀ w' → Idle t w₀ id s (w'.drop t) :=
    fun w' hw => { hw.2.drop with pend := by simp, row := ⟨o, hw.1 ▸ ho, hid, hs⟩ }
  refine solo_within (wp_mono (Q := Ends (fun b w' => b = decide (s = .pending) ∧
    w'.db = w.db ∧ Trails t w₀ w') (fun _ w' => w'.db = w.db ∧ Trails t w₀ w')) ?_ ?_)
  · refine solo_then (P := fun _ w' => w'.db = w.db ∧ Idle t w₀ id s w')
      (solo_op (fun ch r w' _ hd => ?_)) (fun now w₁ h₁ => ?_)
    · cases hd with
      | fault => exact ⟨rfl, h.toTrails⟩
      | now => exact ⟨rfl, h⟩
    refine solo_then (P := fun x w' => x.isSome = decide (s = .pending) ∧ w'.db = w.db ∧
      Trails t w₀ w') (solo_op (fun ch r w' _ hd => ?_)) (fun x w₂ hx => ?_)
    · have h' : w'.db = w.db ∧ Trails t w₀ w' :=
        ⟨(World.does_db hd (by simp)).trans h₁.1, h₁.2.toTrails.does (by simp) hd⟩
      have hview : w₁.view t = w.db := by
        rw [World.view, h₁.2.pend, h₁.1]
        rfl
      cases hd with
      | fault => exact h'
      | claim ho' hid' hp =>
        rw [hview] at ho'
        have he := Table.eq_of_key ho ho' (hid.trans hid'.symm)
        exact ⟨by simp [← hs, he, hp], h'⟩
      | skipClaim hn =>
        rw [hview] at hn
        have hne : s ≠ .pending := fun he => hn o ho hid (hs.trans he) (h₁.2.free _)
        exact ⟨by simp [hne], h'⟩
    · obtain ⟨hx, h₂⟩ := hx
      cases x with
      | none => exact ⟨hx, h₂⟩
      | some x =>
        refine solo_then (solo_step (by simp) (by simp) h₂) (fun _ w₃ h₃ => ?_)
        exact solo_then (solo_step (by simp) (by simp) h₃) (fun _ w₄ h₄ => ⟨hx, h₄⟩)
  · intro r w' hr
    cases r with
    | ok b => exact ⟨⟨⟨hr.1, hr.2.1⟩, hclosed w' hr.2⟩, fun _ _ => hr.2.2.drop⟩
    | error e => exact ⟨hr.2.drop, fun _ _ => hr.2.drop⟩

/-- The change of an end state. -/
def Marks (id : UUID) (status : TaskStatus) (ws : List Write) (_ : OutboxRow) : Prop :=
  ws = [.updateOutbox id status none]

omit [Externals] in
theorem Idle.draft (h : Idle t w₀ id s w) {w' : World} (hd : Draft t w [] w') :
    Idle t w₀ id s w' where
  toTrails := h.toTrails.noted (fun r hr => hd.free r hr)
    (hd.trace.trans (List.nil_append _).symm) List.not_mem_nil
  pend := hd.pend
  row := hd.db ▸ h.row

omit [Externals] in
theorem Idle.marked (h : Idle t w₀ id s w) {status : TaskStatus} {o : OutboxRow} {w' : World}
    (hst : Stored t w (Marks id status) o w') : Idle t w₀ id status w' := by
  have htrails := h.toTrails.stored hst
  obtain ⟨w₁, _, hd, rfl, rfl⟩ := hst
  obtain ⟨x, hx, hid, _⟩ := h.row
  refine ⟨htrails, by simp, Db.markRow status none x, ?_, hid, rfl⟩
  rw [World.commit_db, World.view, hd.pend, hd.db]
  exact Db.mem_outbox_mark.mpr (.inr ⟨x, hx, hid, rfl⟩)

/-- The end state is written, or the event has the old status or the new one. -/
theorem solo_conclude (status : TaskStatus) (h : Idle t w₀ id s w) :
    Solo lim Anything t (conclude id status) (Ends (fun _ => Idle t w₀ id status)
      (fun e w' => e.isBusinessRule = false ∧ (Idle t w₀ id s w' ∨ Idle t w₀ id status w'))) w := by
  obtain ⟨o, ho, hid, _⟩ := h.row
  refine solo_within (wp_mono (Q := Ends (fun _ w' => Stored t w (Marks id status) o (w'.drop t))
    (Fails t w False (Marks id status))) ?_ ?_)
  · refine solo_then (P := fun _ => Draft t w [.updateOutbox id status none]) ?_
      (fun _ w₁ h₁ => solo_commit (o := o) rfl h₁)
    refine solo_then (solo_read trivial (.refl h.pend)) (fun result w₁ h₁ => ?_)
    cases result with
    | none => exact Fails.draft rfl h₁
    | some _ =>
      refine solo_then (P := fun _ => Draft t w [.updateOutbox id status none])
        (solo_op (fun ch r w' _ hd => ?_)) (fun _ w₂ h₂ => solo_read trivial h₂)
      cases hd with
      | fault he => exact Fails.draft (not_rule_of_raises he) h₁
      | missEvent hn =>
        rw [h₁.view] at hn
        exact absurd hid (Table.find_none.mp hn o ho)
      | updateOutbox => exact h₁.write _
  · have hend : ∀ e w', Fails t w False (Marks id status) e w' →
        Idle t w₀ id s (w'.drop t) ∨ Idle t w₀ id status (w'.drop t) := by
      intro e w' hf
      rcases hf.left with hd | ⟨o', hst⟩
      · exact .inl (h.draft hd)
      · exact .inr (h.marked hst)
    intro r w' hr
    cases r with
    | ok _ =>
      refine ⟨h.marked hr, fun e he => ⟨?_, .inr (h.marked hr)⟩⟩
      cases e <;> first | rfl | cases he
    | error e =>
      refine ⟨⟨Bool.eq_false_iff.mpr hr.rule, hend e w' hr⟩, fun e' he => ⟨?_, hend e w' hr⟩⟩
      cases e' <;> first | rfl | cases he

variable {base : RabbitQueue} {maxAttempts : Nat} {m : Message}

omit [Externals] in
theorem Idle.concluded (h : Idle t w₀ id s w) (hs : s.Terminal) :
    Concluded lim base maxAttempts t m id w₀ w := by
  obtain ⟨new, hn, _⟩ := h.trace
  obtain ⟨o, ho, hid, rfl⟩ := h.row
  exact ⟨new, hn, .inl ⟨o, ho, hid, hs⟩⟩

/-- An exception other than a broken business rule is followed by a retry copy or, on the
last attempt, by the end state. -/
theorem solo_retryOrBury {deadKey : String} {deadHeaders : Option Nat}
    (hroute : ∀ retry ∈ retryRoutingQueues base maxAttempts,
      retry ∈ route lim paymentsDlx retry.routingKey) (h : Idle t w₀ id s w) :
    Solo lim Anything t (retryOrBury base maxAttempts m id deadKey deadHeaders)
      (Ends (fun _ w' => Trails t w₀ w' ∧ Concluded lim base maxAttempts t m id w₀ w')
        (fun _ w' => Trails t w₀ w')) w := by
  refine solo_then (P := fun _ w' => Idle t w₀ id s w') (solo_op (fun ch r w' _ hd => ?_))
    (fun _ w₁ h₁ => ?_)
  · cases hd with
    | fault => exact h.toTrails
    | connect => exact h
  by_cases hlt : m.attempt < maxAttempts
  · rw [if_pos hlt]
    cases hr : (retryRoutingQueues base maxAttempts)[m.attempt]? with
    | none => exact h₁.toTrails
    | some retry =>
      have hmem := List.mem_of_getElem? hr
      refine solo_op (fun ch r w' _ hd => ?_)
      have h' : Trails t w₀ w' := h₁.toTrails.does (by simp) hd
      cases hd with
      | fault => exact h'
      | lostPublish => exact h'
      | publish =>
        obtain ⟨new, hn, _⟩ := h'.trace
        refine ⟨h', new, hn, .inr ⟨retry, hmem, hroute retry hmem, ?_⟩⟩
        obtain ⟨old, ho, _⟩ := h₁.trace
        rw [World.accept_trace, ho, ← List.cons_append] at hn
        rw [← List.append_cancel_right hn]
        exact List.mem_cons_self
  · rw [if_neg hlt]
    refine solo_bind _ (solo_conclude .failed h₁) (fun _ w₂ h₂ => ?_) (fun _ w₂ h₂ => ?_)
    · refine solo_op (fun ch r w' _ hd => ?_)
      have h' : Trails t w₀ w' := Trails.does (Idle.toTrails h₂) (by simp) hd
      cases r with
      | error e => exact h'
      | ok _ =>
        obtain ⟨new, hn, _⟩ := h'.trace
        obtain ⟨o, ho, hid, hs⟩ := Idle.row h₂
        exact ⟨h', new, hn, .inl ⟨o, (World.does_db hd (by simp)) ▸ ho, hid, .inr hs⟩⟩
    · exact h₂.2.elim Idle.toTrails Idle.toTrails

omit [Externals] in
/-- A processing leaves the status of its event as it is. -/
theorem Idle.leaves {α : Type} {S : Prop} {event : PaymentEvent} {r : Except Exc α} {w' : World}
    (h : Idle t w₀ id s w) (hl : Leaves lim t w S (Settles w.db event) r w') :
    Idle t w₀ id s w' ∧ ∀ e, r = .error e → e.isBusinessRule = true → S := by
  have hstored : ∀ {o v}, Stored t w (Settles w.db event) o v → Idle t w₀ id s v := by
    intro o v hst
    have htrails := h.toTrails.stored hst
    obtain ⟨w₁, ws, hd, hc, rfl⟩ := hst
    obtain ⟨x, hx, hid, hs⟩ := h.row
    obtain ⟨_, _, _, _, _, _, _, _, _, _, hrows⟩ := hc.settles
    refine ⟨htrails, by simp, x, ?_, hid, hs⟩
    rw [World.commit_db, World.view, hd.pend, hd.db, hrows]
    exact List.mem_append_left _ hx
  cases hl with
  | nothing hr _ hd => exact ⟨h.draft hd, fun _ he => by cases he; exact hr⟩
  | stored hr hst => exact ⟨hstored hst, hr⟩
  | @published _ o v x k m hr hst hb =>
    have hv := hstored hst
    have hn : (t, Obs.acked) ∉ [(t, Obs.accepted x k m)] := by simp
    exact ⟨⟨hv.toTrails.noted (fun _ h => h) rfl hn, hv.pend, hv.row⟩, hr⟩

theorem solo_enter (h : Idle t w₀ id s w) (event : UUID) :
    Solo lim Anything t (perform (.enter event)) (Ends (fun _ w' => w'.db = w.db ∧ Idle t w₀ id s w')
      (fun _ _ => False)) w := by
  refine solo_op (fun ch r w' _ hd => ?_)
  have h' : Trails t w₀ w' := h.toTrails.does (by simp) hd
  cases hd with
  | fault he => cases he
  | enter => exact ⟨rfl, h', h.pend, h.row⟩

/-- The guarded part of the first handler resolves the event, unless its payment is settled
already: then nothing follows. -/
theorem solo_execute_payment {event : PaymentEvent} (hid : event.id = id)
    (hroute : ∀ retry ∈ retryRoutingQueues newPaymentsQ maxAttempts,
      retry ∈ route lim paymentsDlx retry.routingKey) (h : Idle t w₀ id s w) :
    Solo lim Anything t (executePayment maxAttempts m event)
      (Ends (fun _ w' => Trails t w₀ w' ∧ (Concluded lim newPaymentsQ maxAttempts t m id w₀ w' ∨
        AlreadySettled w.db event ∧ Idle t w₀ id s w')) (fun _ w' => Trails t w₀ w')) w := by
  subst hid
  refine solo_handle (Ends (fun _ w' => Idle t w₀ event.id .confirmed w')
    (fun e w' => (e.isBusinessRule = true → AlreadySettled w.db event ∧ Idle t w₀ event.id s w') ∧
      (Idle t w₀ event.id s w' ∨ Idle t w₀ event.id .confirmed w'))) ?_ ?_ ?_
  · refine solo_bind _ (solo_enter h event.id) (fun _ w₁ h₁ => ?_) (fun _ _ h₁ => h₁.elim)
    obtain ⟨hdb, h₁⟩ := h₁
    refine solo_bind _ (solo_process_payment event h₁.pend) (fun _ w₂ hl => ?_) (fun e w₂ hl => ?_)
    · refine wp_mono (solo_conclude .confirmed (h₁.leaves hl).1) (fun r w' hr => ?_)
      cases r with
      | ok _ => exact hr
      | error e => exact ⟨fun hb => Bool.noConfusion (hr.1.symm.trans hb), hr.2⟩
    · obtain ⟨h₂, hrule⟩ := h₁.leaves hl
      exact ⟨fun hb => ⟨hdb ▸ hrule e rfl hb, h₂⟩, .inl h₂⟩
  · exact fun _ w' h' => ⟨h'.toTrails, .inl (h'.concluded (.inl rfl))⟩
  · rintro e w' ⟨hrule, h'⟩
    by_cases hb : e.isBusinessRule = true
    · rw [if_pos hb]
      exact ⟨(hrule hb).2.toTrails, .inr (hrule hb)⟩
    · rw [if_neg hb]
      have hend : ∀ s', Idle t w₀ event.id s' w' →
          Solo lim Anything t (retryOrBury newPaymentsQ maxAttempts m event.id dlq.publishKey none)
            (Ends (fun _ w' => Trails t w₀ w' ∧
              (Concluded lim newPaymentsQ maxAttempts t m event.id w₀ w' ∨
                AlreadySettled w.db event ∧ Idle t w₀ event.id s w'))
              (fun _ w' => Trails t w₀ w')) w' := by
        intro s' h'
        refine wp_mono (solo_retryOrBury hroute h') (fun r w'' hr => ?_)
        cases r with
        | ok _ => exact ⟨hr.1, .inl hr.2⟩
        | error e => exact hr
      exact h'.elim (hend _) (hend _)

theorem solo_send (event : PaymentEvent) (h : Idle t w₀ id s w) :
    Solo lim Anything t (sendNotification event) (fun _ => Idle t w₀ id s) w := by
  simp only [sendNotification, Prog.bind_eq]
  cases Payload.getStrategy (event.attr "status") event with
  | error e => exact h
  | ok payload =>
    rw [Prog.ofExcept_ok_bind]
    split
    · refine solo_op (fun ch r w' _ hd => ?_)
      have h' : Trails t w₀ w' := h.toTrails.does (by simp) hd
      cases hd with
      | fault => exact ⟨h', h.pend, h.row⟩
      | send => exact ⟨h', h.pend, h.row⟩
    · exact h

/-- The guarded part of the second handler resolves the event. -/
theorem solo_execute_notification {event : PaymentEvent} (hid : event.id = id)
    (hroute : ∀ retry ∈ retryRoutingQueues notifyPaymentsQ maxAttempts,
      retry ∈ route lim paymentsDlx retry.routingKey) (h : Idle t w₀ id s w) :
    Solo lim Anything t (executeNotification maxAttempts m event)
      (Ends (fun _ w' => Trails t w₀ w' ∧ Concluded lim notifyPaymentsQ maxAttempts t m id w₀ w')
        (fun _ w' => Trails t w₀ w')) w := by
  subst hid
  refine solo_handle (Ends (fun _ w' => Idle t w₀ event.id .confirmed w')
    (fun _ w' => Idle t w₀ event.id s w' ∨ Idle t w₀ event.id .confirmed w')) ?_ ?_ ?_
  · refine solo_bind _ (solo_enter h event.id) (fun _ w₁ h₁ => ?_) (fun _ _ h₁ => h₁.elim)
    refine solo_bind _ (solo_send event h₁.2) (fun _ w₂ h₂ => ?_) (fun _ w₂ h₂ => .inl h₂)
    refine wp_mono (solo_conclude .confirmed h₂) (fun r w' hr => ?_)
    cases r with
    | ok _ => exact hr
    | error e => exact hr.2
  · exact fun _ w' h' => ⟨h'.toTrails, h'.concluded (.inl rfl)⟩
  · exact fun _ w' h' => h'.elim (solo_retryOrBury hroute) (solo_retryOrBury hroute)

/-- A run that acknowledges has resolved the event. -/
def AckedResolved (lim : Limits) (base : RabbitQueue) (maxAttempts : Nat) (t : Tid) (m : Message)
    (id : UUID) (w₀ w : World) : Prop :=
  ∃ new, w.trace = new ++ w₀.trace ∧
    ((t, .acked) ∈ new → Resolved lim base maxAttempts t m id new w)

omit [Externals] in
theorem Trails.acked (h : Trails t w₀ w) : AckedResolved lim base maxAttempts t m id w₀ w := by
  obtain ⟨new, hn, ha⟩ := h.trace
  exact ⟨new, hn, fun hm => absurd hm ha⟩

theorem solo_ack (h : Trails t w₀ w) (hc : Concluded lim base maxAttempts t m id w₀ w) :
    Solo lim Anything t (perform .ack)
      (fun _ => AckedResolved lim base maxAttempts t m id w₀) w := by
  refine solo_op (fun ch r w' _ hd => ?_)
  cases hd with
  | fault => exact h.acked
  | ack =>
    obtain ⟨new, hn, hr⟩ := hc
    refine ⟨(t, .acked) :: new, by simp [hn], fun _ => hr.imp_right (fun hr => ?_)⟩
    obtain ⟨retry, hm, hroute, ha⟩ := hr
    exact ⟨retry, hm, hroute, List.mem_cons_of_mem _ ha⟩

/-- What follows the claim. `P` is where the guarded part leaves the event as it was. -/
theorem solo_gated {claimed : Bool} {run : Service Unit} {P : Prop} (h : Idle t w₀ id s w)
    (hs : ¬ Admitted claimed m.attempt maxAttempts ∨ P → s.Terminal)
    (hrun : Solo lim Anything t run (Ends (fun _ w' => Trails t w₀ w' ∧
      (Concluded lim base maxAttempts t m id w₀ w' ∨ P ∧ Idle t w₀ id s w'))
      (fun _ w' => Trails t w₀ w')) w) :
    Solo lim Anything t ((if Admitted claimed m.attempt maxAttempts then run else Prog.ret ()).bind
      (fun _ => perform .ack)) (fun _ => AckedResolved lim base maxAttempts t m id w₀) w := by
  split
  · refine solo_bind _ hrun (fun _ w' h' => ?_) (fun _ _ h' => Trails.acked h')
    obtain ⟨ht, hc | ⟨hp, hi⟩⟩ := h'
    · exact solo_ack ht hc
    · exact solo_ack ht (hi.concluded (hs (.inr hp)))
  · rename_i hn
    exact solo_ack h.toTrails (h.concluded (hs (.inl hn)))

theorem solo_handle_payment {event : PaymentEvent} (hd : decodeNew m.body = .ok event)
    (hid : event.id = id) (h : Idle t w₀ id s w)
    (hs : s.Terminal ∨ Admitted (s = .pending) m.attempt lim.process ∧
      ¬ AlreadySettled w.db event) :
    Solo lim Anything t (handlePaymentProcessing lim.process m)
      (fun _ => AckedResolved lim newPaymentsQ lim.process t m id w₀) w := by
  simp only [handlePaymentProcessing, Prog.bind_eq, Prog.pure_eq, hd, Prog.ofExcept_ok_bind, hid]
  refine solo_bind (fun _ w' => w'.db = w.db ∧ Idle t w₀ id s w') (solo_op (fun ch r w' _ hd => ?_))
    (fun _ w₁ h₁ => ?_) (fun _ _ h₁ => h₁.2.toTrails.acked)
  · cases hd <;> exact ⟨rfl, h⟩
  refine solo_bind _ (solo_claim h₁.2) (fun b w₂ h₂ => ?_) (fun _ _ h₂ => Trails.acked h₂)
  obtain ⟨⟨rfl, hdb⟩, h₂⟩ := h₂
  refine solo_gated h₂ (fun hx => ?_) (solo_execute_payment hid ?_ h₂)
  · rcases hs with hs | ⟨ha, hn⟩
    · exact hs
    · rw [hdb, h₁.1] at hx
      exact hx.elim (absurd ha) (absurd · hn)
  · exact fun retry hr => retry_routed (.inl hr)

theorem solo_handle_notify {event : PaymentEvent} (hd : decodeNotify m.body = .ok event)
    (hid : event.id = id) (h : Idle t w₀ id s w)
    (hs : s.Terminal ∨ Admitted (s = .pending) m.attempt lim.notify) :
    Solo lim Anything t (handleNotifyClient lim.notify m)
      (fun _ => AckedResolved lim notifyPaymentsQ lim.notify t m id w₀) w := by
  simp only [handleNotifyClient, Prog.bind_eq, Prog.pure_eq, hd, Prog.ofExcept_ok_bind, hid]
  refine solo_bind _ (solo_claim h) (fun b w₂ h₂ => ?_) (fun _ _ h₂ => Trails.acked h₂)
  obtain ⟨⟨rfl, _⟩, h₂⟩ := h₂
  refine @solo_gated _ _ _ _ _ _ _ _ _ _ _ _ False h₂ (fun hx => ?_)
    (wp_mono (solo_execute_notification hid (fun retry hr => retry_routed (.inr hr)) h₂) ?_)
  · exact hs.elim (fun hs => hs) (fun ha => hx.elim (absurd ha) False.elim)
  · intro r w' hr
    cases r with
    | ok _ => exact ⟨hr.1, .inl hr.2⟩
    | error e => exact hr

end

/-- Since `w₀` nothing is committed and nothing is published, and no other transaction is
open. -/
structure Calm (t : Tid) (w₀ w : World) : Prop where
  db : w.db = w₀.db
  pend : w.pend t = []
  free : ∀ r, w.Free t r
  trace : ∃ new, w.trace = new ++ w₀.trace ∧ ∀ x k m, (t, .accepted x k m) ∉ new

section

variable {t : Tid} {w₀ w : World} {id : UUID} {o : OutboxRow}

theorem Calm.view (h : Calm t w₀ w) : w.view t = w₀.db := by
  rw [World.view, h.pend, h.db]
  rfl

theorem Calm.note (h : Calm t w₀ w) {x : Obs} (hx : ∀ e k m, x ≠ .accepted e k m) :
    Calm t w₀ (w.note t x) := by
  obtain ⟨new, hn, ha⟩ := h.trace
  refine ⟨h.db, h.pend, h.free, (t, x) :: new, by simp [hn], fun e k m hm => ?_⟩
  rcases List.mem_cons.mp hm with he | hm
  · exact hx e k m (Prod.mk.inj he).2.symm
  · exact ha e k m hm

theorem Calm.hold (h : Calm t w₀ w) (rs : List Resource) : Calm t w₀ (w.hold t rs) :=
  ⟨h.db, h.pend, fun r => World.free_hold (h.free r), h.trace⟩

/-- The changes of a session that is closed are gone. -/
theorem Calm.closed (h : Calm t w₀ w) (ws : List Write) : Calm t w₀ ((w.write t ws).drop t) :=
  ⟨h.db, by simp, fun r => World.free_drop (World.free_write (h.free r)), h.trace⟩

theorem Calm.drop (h : Calm t w₀ w) : Calm t w₀ (w.drop t) :=
  ⟨h.db, by simp, fun r => World.free_drop (h.free r), h.trace⟩

/-- A run that acknowledges a message whose event it has left as it was. -/
theorem not_resolved {lim : Limits} {base : RabbitQueue} {maxAttempts : Nat} {m : Message} (h : Calm t w₀ w)
    (ho : o ∈ w₀.db.outbox.rows) (hs : ¬ o.status.Terminal) :
    ¬ AckedResolved lim base maxAttempts t m o.id w₀ (w.ackDelivery t) := by
  rintro ⟨new, hn, hr⟩
  obtain ⟨old, ho', ha⟩ := h.trace
  rw [World.ackDelivery_trace, ho', ← List.cons_append] at hn
  obtain rfl := List.append_cancel_right hn
  rcases hr List.mem_cons_self with ⟨x, hx, hid, ht⟩ | ⟨_, _, _, hm⟩
  · rw [World.ackDelivery_db, h.db] at hx
    exact hs (Table.eq_of_key hx ho hid ▸ ht)
  · rcases List.mem_cons.mp hm with he | hm
    · cases he
    · exact ha _ _ _ hm

variable [Externals] {lim : Limits} {allow : World → Move Op Choice Req Env → Prop}
  (hallow : ∀ w m, works m = true → allow w m)
include hallow

/-- The claim of an event that is not pending answers false. -/
theorem runs_claim_false (h : Calm t w₀ w)
    (hn : ∀ o ∈ w₀.db.outbox.rows, o.id = id → o.status ≠ .pending) :
    ∃ w', (service lim).Runs allow t (claim id) w (.ok false) w' ∧ Calm t w₀ w' := by
  refine ⟨w.drop t, runs_within hallow ?_, h.drop⟩
  refine .bind (runs_op hallow (.time sampleTime) rfl rfl) ?_
  refine .bind (a := (none : Option UUID)) (runs_op hallow .ok rfl ?_) (.ret _ _)
  have hsel : w.selectPendingId t id = (none, w) := by
    simp only [World.selectPendingId, World.selectOutbox, h.view]
    cases hf : w₀.db.outbox.find? id with
    | none => rfl
    | some o =>
      obtain ⟨ho, hid⟩ := Table.find_some.mp hf
      simp [hn o ho hid]
  simp [World.exec, World.answer, World.whenOk, World.answered, hsel]

/-- The claim of a pending event answers true. -/
theorem runs_claim_true (h : Calm t w₀ w) (ho : o ∈ w₀.db.outbox.rows) (hp : o.status = .pending) :
    ∃ w', (service lim).Runs allow t (claim o.id) w (.ok true) w' ∧ Calm t w₀ w' := by
  have hfind := Table.find_mem ho
  have hlock : Calm t w₀ ((w.hold t [.outbox o.id]).note t (.claimed o.id)) :=
    (h.hold _).note (fun _ _ _ he => by cases he)
  refine ⟨_, runs_within hallow ?_, hlock.closed [.updateOutbox o.id .inProcess (some sampleTime)]⟩
  refine .bind (runs_op hallow (.time sampleTime) rfl rfl) ?_
  have hsel : (service lim).Runs allow t (perform (.selectPendingId o.id)) w (.ok (some o.id))
      ((w.hold t [.outbox o.id]).note t (.claimed o.id)) := by
    refine runs_op hallow .ok rfl ?_
    simp [World.exec, World.answer, World.whenOk, World.answered, World.selectPendingId,
      World.selectOutbox, h.view, hfind, hp, h.free]
  refine .bind hsel (.bind (a := ()) (runs_op hallow .ok rfl ?_)
    (.bind (a := ()) (runs_op hallow .ok rfl rfl) (.ret _ _)))
  simp [World.exec, World.answer, World.whenOk, World.updateOutbox, hlock.view, hfind, hlock.free]
  rfl

/-- A processing of a settled payment breaks the business rule and changes nothing. -/
theorem runs_process_settled {event : PaymentEvent} (h : Calm t w₀ w)
    (hs : AlreadySettled w₀.db event) :
    ∃ e w', (service lim).Runs allow t (processPayment event) w (.error e) w' ∧
      e.isBusinessRule = true ∧ Calm t w₀ w' := by
  obtain ⟨r, hr, hid, hst, p, hd⟩ := hs
  have hsel : w.selectPayment t (fun x => x.id = r.id) = (some r, w.hold t [.payment r.id]) := by
    have hfind : w₀.db.payments.rows.find? (fun x => decide (x.id = r.id)) = some r :=
      Table.find_mem hr
    simp [World.selectPayment, h.view, h.free, hfind]
  have hpend : p.ensurePending = .error (.businessRule "Already processed") := by
    have hps : p.status ≠ .pending := (toDomain_ok hd).2.2.2.2.1 ▸ hst
    simp [Payment.ensurePending, hps]
  have hget : (service lim).Runs allow t (PaymentRepository.getById { value := r.id }) w (.ok p)
      (w.hold t [.payment r.id]) := by
    have hlock : (service lim).Runs allow t (perform (.selectPaymentById r.id)) w (.ok (some r))
        (w.hold t [.payment r.id]) := by
      refine runs_op hallow .ok rfl ?_
      simp [World.exec, World.answer, World.whenOk, World.answered, hsel]
    refine .bind hlock ?_
    simp only [hd]
    exact .ret _ _
  have hraise : (service lim).Runs allow t (emulateProcessing p) (w.hold t [.payment r.id])
      (.error (.businessRule "Already processed")) (w.hold t [.payment r.id]) := by
    refine .bind (a := true) (runs_op hallow (.coin true) rfl rfl) ?_
    simp only [hpend, Prog.bind_eq, Prog.ofExcept_error_bind]
    exact .raise _ _
  refine ⟨.businessRule "Already processed", _, .bind_error (runs_within_error hallow ?_), rfl,
    (h.hold [.payment r.id]).drop⟩
  simp only [hid, Prog.bind_eq, Prog.ofExcept_ok_bind]
  exact .bind hget (.bind_error hraise)

/-- A message of an event that is neither pending nor in an end state is dropped where the
gate is closed, and that of a settled payment after the gate. -/
theorem runs_unresolved_payment {m : Message} {event : PaymentEvent} (h : Calm t w w)
    (ho : o ∈ w.db.outbox.rows) (hd : decodeNew m.body = .ok event) (hid : event.id = o.id)
    (hs : ¬ o.status.Terminal) (hn : Admitted (o.status = .pending) m.attempt lim.process →
      AlreadySettled w.db event) :
    ∃ r w', (service lim).Runs allow t (handlePaymentProcessing lim.process m) w r w' ∧
      ¬ AckedResolved lim newPaymentsQ lim.process t m o.id w w' := by
  obtain ⟨w₁, hrun, h₁⟩ : ∃ w', (service lim).Runs allow t (claim o.id) w
      (.ok (decide (o.status = .pending))) w' ∧ Calm t w w' := by
    by_cases hp : o.status = .pending
    · simpa [hp] using runs_claim_true hallow h ho hp
    · have hne : ∀ x ∈ w.db.outbox.rows, x.id = o.id → x.status ≠ .pending :=
        fun x hx he => Table.eq_of_key hx ho he ▸ hp
      simpa [hp] using runs_claim_false hallow h hne
  have hack : ∀ v, (service lim).Runs allow t (perform .ack) v (.ok ()) (v.ackDelivery t) :=
    fun v => runs_op hallow .ok rfl rfl
  simp only [handlePaymentProcessing, Prog.bind_eq, Prog.pure_eq, hd, Prog.ofExcept_ok_bind, hid]
  by_cases ha : Admitted (o.status = .pending) m.attempt lim.process
  · have h₂ := h₁.note (x := .entered o.id) (fun _ _ _ he => by cases he)
    obtain ⟨e, w₃, hproc, hrule, h₃⟩ : ∃ e w', (service lim).Runs allow t (processPayment event)
        (w₁.note t (.entered o.id)) (.error e) w' ∧ e.isBusinessRule = true ∧ Calm t w w' :=
      runs_process_settled hallow h₂ (hn ha)
    have henter : (service lim).Runs allow t (perform (.enter event.id)) w₁ (.ok ())
        (w₁.note t (.entered o.id)) := by
      rw [hid]
      exact runs_op hallow .ok rfl rfl
    have hrun₂ : (service lim).Runs allow t (executePayment lim.process m event) w₁ (.ok ()) w₃ := by
      refine .handle_error (.bind (a := ()) henter (.bind_error hproc)) ?_
      rw [if_pos hrule]
      exact .ret _ _
    refine ⟨.ok (), _, .bind (a := ()) (runs_op hallow .ok rfl rfl) (.bind hrun ?_),
      not_resolved h₃ ho hs⟩
    rw [if_pos ha]
    exact .bind hrun₂ (hack w₃)
  · refine ⟨.ok (), _, .bind (a := ()) (runs_op hallow .ok rfl rfl) (.bind hrun ?_),
      not_resolved h₁ ho hs⟩
    rw [if_neg ha]
    exact .bind (.ret () w₁) (hack w₁)

theorem runs_unresolved_notify {m : Message} {event : PaymentEvent} (h : Calm t w w)
    (ho : o ∈ w.db.outbox.rows) (hd : decodeNotify m.body = .ok event) (hid : event.id = o.id)
    (hs : ¬ o.status.Terminal) (hn : ¬ Admitted (o.status = .pending) m.attempt lim.notify) :
    ∃ r w', (service lim).Runs allow t (handleNotifyClient lim.notify m) w r w' ∧
      ¬ AckedResolved lim notifyPaymentsQ lim.notify t m o.id w w' := by
  have hp : o.status ≠ .pending := fun hp => hn (.inl (by simp [hp]))
  have hne : ∀ x ∈ w.db.outbox.rows, x.id = o.id → x.status ≠ .pending :=
    fun x hx he => Table.eq_of_key hx ho he ▸ hp
  obtain ⟨w₁, hrun, h₁⟩ : ∃ w', (service lim).Runs allow t (claim o.id) w (.ok false) w' ∧
      Calm t w w' := runs_claim_false hallow h hne
  simp only [handleNotifyClient, Prog.bind_eq, Prog.pure_eq, hd, Prog.ofExcept_ok_bind, hid]
  refine ⟨.ok (), _, .bind hrun ?_, not_resolved h₁ ho hs⟩
  rw [if_neg (by simpa [hp] using hn)]
  exact .bind (.ret () w₁) (runs_op hallow .ok rfl rfl)

end

/-- Where no other transaction is open, a handler resolves what it acknowledges exactly if
the event is in an end state already, or the gate lets it through and, for the first
handler, its payment is not settled yet; whatever failures are allowed. -/
theorem acknowledged_resolved_iff [Externals] {lim : Limits} {t : Tid} {w : World} {o : OutboxRow}
    {allow : World → Move Op Choice Req Env → Prop} (hallow : ∀ w m, works m = true → allow w m)
    (hp : w.pend t = []) (hl : ∀ r, w.lock r = none) (ho : o ∈ w.db.outbox.rows) :
    (∀ m event, decodeNew m.body = .ok event → event.id = o.id →
      ((∀ r w', (service lim).Runs allow t (handlePaymentProcessing lim.process m) w r w' →
          AckedResolved lim newPaymentsQ lim.process t m o.id w w') ↔
        o.status.Terminal ∨ Admitted (o.status = .pending) m.attempt lim.process ∧
          ¬ AlreadySettled w.db event)) ∧
    ∀ m event, decodeNotify m.body = .ok event → event.id = o.id →
      ((∀ r w', (service lim).Runs allow t (handleNotifyClient lim.notify m) w r w' →
          AckedResolved lim notifyPaymentsQ lim.notify t m o.id w w') ↔
        o.status.Terminal ∨ Admitted (o.status = .pending) m.attempt lim.notify) := by
  have hfree : ∀ r, w.Free t r := fun r => .inl (hl r)
  have hidle : Idle t w o.id o.status w :=
    ⟨⟨hfree, [], rfl, List.not_mem_nil⟩, hp, o, ho, rfl, rfl⟩
  have hcalm : Calm t w w := ⟨rfl, hp, hfree, [], rfl, fun _ _ _ => List.not_mem_nil⟩
  refine ⟨fun m event hd hid => ⟨fun h => ?_, fun hs r w' hr => ?_⟩,
    fun m event hd hid => ⟨fun h => ?_, fun hs r w' hr => ?_⟩⟩
  · by_contra hn
    obtain ⟨hs, hn⟩ := not_or.mp hn
    obtain ⟨r, w', hr, hu⟩ := runs_unresolved_payment hallow hcalm ho hd hid hs
      (fun ha => by_contra (fun hx => hn ⟨ha, hx⟩))
    exact hu (h r w' hr)
  · exact Runs.alone (hr.mono (fun _ _ _ => trivial)) (solo_handle_payment hd hid hidle hs)
  · by_contra hn
    obtain ⟨hs, hn⟩ := not_or.mp hn
    obtain ⟨r, w', hr, hu⟩ := runs_unresolved_notify hallow hcalm ho hd hid hs hn
    exact hu (h r w' hr)
  · exact Runs.alone (hr.mono (fun _ _ _ => trivial)) (solo_handle_notify hd hid hidle hs)

/-- A payment that is settled by a run whose publish failed, with no transaction open. -/
def unpublished : World := { db := (processing.get processing_some).2.db }

/-- The pending event that reports the creation of the payment. -/
def unpublishedEvent : OutboxRow :=
  ⟨uid 11, "payments.new", createdPayload (uid 10), sampleTime, .pending, none⟩

theorem unpublished_decodes : decodeNew unpublishedEvent.body =
    .ok (createdEvent (uid 10) (uid 11) sampleTime) :=
  @decode_created ⟨uid 10, .nan, .rub, "", .null, .pending, uid 1, sampleTime, none, ""⟩
    unpublishedEvent ⟨rfl, rfl⟩

/-- The first delivery of the message of the event, which breaks the business rule. -/
def lateDelivery : Option (Except Exc Unit × World) :=
  (sampleService {}).alone? (fun _ m => works m) 1 ([.ok, .time sampleTime] ++
    List.replicate 6 .ok ++ [.coin true] ++ List.replicate 3 .ok)
    (handlePaymentProcessing 3 { body := unpublishedEvent.body }) unpublished

set_option maxRecDepth 20000 in
theorem lateDelivery_some : lateDelivery.isSome = true := by decide +kernel

set_option maxRecDepth 20000 in
theorem acknowledged_unresolved : ¬ ∀ (w : World) (t : Tid) (o : OutboxRow) (m : Message)
    (event : PaymentEvent) (r : Except Exc Unit) (w' : World), w.pend t = [] →
    (∀ r, w.lock r = none) → o ∈ w.db.outbox.rows → decodeNew m.body = .ok event →
    event.id = o.id → m.attempt ≤ 3 → (sampleService {}).Runs (fun _ m => works m = true) t
      (handlePaymentProcessing 3 m) w r w' →
    AckedResolved {} newPaymentsQ 3 t m o.id w w' := by
  intro h
  obtain ⟨o, ho, hid⟩ : ∃ o ∈ unpublished.db.outbox.rows, o.id = uid 11 := by decide +kernel
  obtain ⟨new, hn, hr⟩ := h unpublished 1 o { body := unpublishedEvent.body } _ _ _ rfl
    (fun _ => rfl) ho unpublished_decodes hid.symm (Nat.zero_le 3)
    (Sys.runs_of_alone (fun _ _ h => h) (Option.some_get lateDelivery_some).symm)
  rw [show unpublished.trace = [] from rfl, List.append_nil] at hn
  subst hn
  rcases hr (mem_of_acks (by decide +kernel)) with hx | ⟨_, _, _, hm⟩
  · rw [hid] at hx
    revert hx
    decide +kernel
  · exact not_mem_of_accepts (by decide +kernel) _ _ _ _ hm

/-- The created payment, with no transaction open. -/
def unprocessed : World := { db := (creation.get creation_some).2.db }

set_option maxRecDepth 20000 in
theorem acknowledged_resolved_created : ∃ o ∈ unprocessed.db.outbox.rows, ∀ r w',
    (sampleService {}).Runs (fun _ m => works m = true) 1
      (handlePaymentProcessing 3 { body := unpublishedEvent.body }) unprocessed r w' →
    AckedResolved {} newPaymentsQ 3 1 { body := unpublishedEvent.body } o.id unprocessed w' := by
  obtain ⟨o, ho, hid, hs⟩ : ∃ o ∈ unprocessed.db.outbox.rows, o.id = uid 11 ∧ o.status = .pending := by
    decide +kernel
  have hpending : ∀ r ∈ unprocessed.db.payments.rows, r.status = .pending := by decide +kernel
  have hiff := (@acknowledged_resolved_iff sample {} 1 unprocessed o (fun _ m => works m = true)
    (fun _ _ h => h) rfl (fun _ => rfl) ho).1 { body := unpublishedEvent.body } _ unpublished_decodes
    hid.symm
  exact ⟨o, ho, hiff.mpr (.inr ⟨.inl (by simp [hs]), fun ⟨r, hr, _, hn, _⟩ => hn (hpending r hr)⟩)⟩

end Payments
