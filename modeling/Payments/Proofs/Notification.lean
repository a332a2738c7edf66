import Payments.Proofs.Agreement
import Payments.Proofs.Alone
import Payments.Proofs.Delivery
import Payments.Proofs.Publication

namespace Payments

open Lib

/-- The body of the message names the event, as `handle_notify_client` reads it. -/
def Message.notifies (m : Message) (e : UUID) : Bool :=
  match decodeNotify m.body with
  | .ok event => event.id = e
  | .error _ => false

def Obs.isPosted : Obs → Bool
  | .posted _ _ => true
  | _ => false

namespace World

/-- The thread runs `handle_notify_client`. -/
def Notifier (w : World) (t : Tid) : Prop := ∃ m, .delivered notifyPaymentsQ m ∈ w.story t

/-- The thread has committed a status of the event that it handles. -/
def Concludes (w : World) (t : Tid) : Prop := ∃ ws, .committed ws ∈ w.story t

/-- The run of `handle_notify_client` has claimed the event and called the use case for it. -/
def Calls (w : World) (t : Tid) (e : UUID) : Prop :=
  w.Notifier t ∧ .claimed e ∈ w.story t ∧ .entered e ∈ w.story t

/-- What was seen is a post by a run of `handle_notify_client` for the event. -/
def Posts (w : World) (e : UUID) (d : Tid × Obs) : Bool :=
  d.2.isPosted && w.trace.any (fun d' => d'.1 = d.1 &&
    match d'.2 with
    | .delivered q m => q = notifyPaymentsQ && m.notifies e
    | _ => false)

/-- How often the webhook of an event was posted. -/
def notified (w : World) (e : UUID) : Nat := w.trace.countP (w.Posts e)

end World

/-- The step is neither a failure nor a redelivery. -/
def smooth : Move Op Choice Req Env → Bool
  | .env (.requeue _) | .env (.duplicate _) => false
  | mv => works mv

/-- The steps without failures and redeliveries under which a claim stays exclusive. While one
run of `handle_notify_client` has claimed an event and not committed its status, no other
finds the row pending and unlocked; and no one locks the row when its status is to be set. -/
def Unrivalled (w : World) (mv : Move Op Choice Req Env) : Prop :=
  smooth mv = true ∧
    match mv with
    | .run t (.selectPendingId e) _ =>
      w.Notifier t → (∃ o ∈ w.db.outbox.rows, o.id = e ∧ o.status = .pending) →
        w.Free t (.outbox e) →
        ∀ u, u ≠ t → w.Notifier u → .claimed e ∈ w.story u → w.Concludes u
    | .run t (.selectOutboxId e) _ => w.Notifier t → w.Free t (.outbox e)
    | _ => True

namespace World

/-- What a step promises about notifications: the webhook is posted only by a run that has
claimed its event and has not posted before, a claim finds a pending and unlocked row, and
after the commit of a status the event is handled. -/
structure Solitary (t : Tid) (w w' : World) : Prop where
  posted : ∀ url payload, w'.story t = .posted url payload :: w.story t →
    ∃ e m, w.story t = [.entered e, .claimed e, .delivered notifyPaymentsQ m] ∧
      m.notifies e = true
  claimed : ∀ e, w'.story t = .claimed e :: w.story t → w.Notifier t →
    (∃ m, w.story t = [.delivered notifyPaymentsQ m]) ∧
      (∃ o ∈ w.db.outbox.rows, o.id = e ∧ o.status = .pending) ∧ w.Free t (.outbox e)
  committed : ∀ ws, w'.story t = .committed ws :: w.story t → w.Notifier t →
    ∀ e, .claimed e ∈ w.story t → w'.db.Handled e

/-- The messages on their way to `handle_notify_client` are first deliveries. -/
def FirstOnly (w : World) : Prop :=
  ∀ d ∈ w.ready, d.1.topic = notifyPaymentsQ.routingKey → d.2.headers = none

variable {lim : Limits} {w w' : World} {t : Tid} {op : Op} {ch : Choice} {r : Except Exc op.Res}

theorem Solitary.of_same (h : w'.story t = w.story t) : Solitary t w w' where
  posted := fun _ _ hs => absurd (h.symm.trans hs) (by simp)
  claimed := fun _ hs => absurd (h.symm.trans hs) (by simp)
  committed := fun _ hs => absurd (h.symm.trans hs) (by simp)

/-- What is told is neither a claim nor a post nor a commit. -/
theorem Solitary.of_told {o : Obs} (h : w'.story t = o :: w.story t)
    (hp : ∀ url payload, o ≠ .posted url payload) (hc : ∀ e, o ≠ .claimed e)
    (hd : ∀ ws, o ≠ .committed ws) : Solitary t w w' where
  posted := fun url payload hs => absurd (List.cons.inj (h.symm.trans hs)).1 (hp url payload)
  claimed := fun e hs => absurd (List.cons.inj (h.symm.trans hs)).1 (hc e)
  committed := fun ws hs => absurd (List.cons.inj (h.symm.trans hs)).1 (hd ws)

theorem Solitary.of_does (h : Does lim t w op ch r w') (hs : ∀ url payload n, op ≠ .send url payload n)
    (hp : ∀ id, op ≠ .selectPendingId id) (hc : op ≠ .commit) : Solitary t w w' := by
  rcases does_trace h with ht | ⟨o, ho, ht⟩
  · exact .of_same (story_same ht)
  · cases ha : o.aside with
    | true => exact .of_same (story_aside ht ha)
    | false =>
      refine .of_told (story_told ht ha) ?_ ?_ ?_
      · rintro url payload rfl
        cases op <;> first | exact ho.elim | exact absurd rfl (hs _ _ _)
      · rintro e rfl
        cases op <;> first | exact ho.elim | exact absurd rfl (hp _)
      · rintro ws rfl
        cases op <;> first | exact ho.elim | exact absurd rfl hc

/-- Only a publish adds messages. -/
theorem does_ready (h : Does lim t w op ch r w') (ho : ∀ x k m, op ≠ .publish x k m) :
    w'.ready = w.ready := by
  cases h with
  | fault => cases op <;> rfl
  | publish | lostPublish => exact absurd rfl (ho _ _ _)
  | _ => rfl

end World

/-- The duty that keeps the claim of a notification exclusive. -/
def notification : Duty where
  inv := World.FirstOnly
  guar := World.Solitary

section

variable [Externals] {lim : Limits} {t : Tid} {w : World} {m : Message} {e : UUID}

/-- The story of a notification up to some point. -/
def Telling (t : Tid) (m : Message) (told : List Obs) (w : World) : Prop :=
  w.story t = told ++ [.delivered notifyPaymentsQ m]

omit [Externals] in
theorem stable_telling {told : List Obs} : notification.Stable t (Telling t m told) :=
  fun _ _ h _ hs _ => hs.trans h

omit [Externals] in
theorem Telling.notifier {told : List Obs} (h : Telling t m told w) : w.Notifier t := by
  refine ⟨m, ?_⟩
  rw [h]
  exact List.mem_append_right _ List.mem_cons_self

omit [Externals] in
theorem Telling.told {told : List Obs} {o : Obs} {w' : World} (h : Telling t m told w)
    (ht : w'.trace = (t, o) :: w.trace) (ho : o.aside = false) : Telling t m (o :: told) w' :=
  (World.story_told ht ho).trans (congrArg _ h)

omit [Externals] in
/-- Most effects of a session tell nothing and publish nothing. -/
theorem quiet_notification {op : Op} {ch : Choice} {r : Except Exc op.Res} {w' : World}
    (hd : World.Does lim t w op ch r w') (hi : w.FirstOnly) (ho : op.Quiet ∨ ∃ id s a, op =
      .updateOutbox id s a) : w'.FirstOnly ∧ World.Solitary t w w' ∧ w'.story t = w.story t := by
  have hready : w'.ready = w.ready := by
    refine World.does_ready hd ?_
    rintro x k m rfl
    rcases ho with ho | ⟨_, _, _, ho⟩ <;> cases ho
  have hsame : w'.story t = w.story t := by
    rcases World.does_trace hd with ht | ⟨o, hs, _⟩
    · exact World.story_same ht
    · rcases ho with ho | ⟨_, _, _, rfl⟩
      · cases op <;> first | exact ho.elim | exact hs.elim
      · exact hs.elim
  exact ⟨fun d hm => hi d (hready ▸ hm), .of_same hsame, hsame⟩

/-- The claim of a notification does not fail, and it is told when it succeeds. -/
theorem claim_notification (hp : w.pend t = []) (hs : Telling t m [] w) :
    Tells notification lim Unrivalled t (claim e) (fun r w => w.pend t = [] ∧
      ∃ b, r = .ok b ∧ Telling t m (if b then [.claimed e] else []) w) w := by
  refine tells_within (fun r w => ∃ b, r = .ok b ∧ Telling t m (if b then [.claimed e] else []) w)
    (fun r w w' hw hr hst hd => hw.imp (fun b hb => ⟨hb.1, stable_telling w w' hb.2 hr hst hd⟩)) ?_
    (fun r w hw hi => ⟨hi, .of_same rfl, hw⟩) (fun w => .of_same rfl)
    (fun r w hw => ⟨by simp, hw⟩) (fun r x w _ _ ha => by cases ha.1)
  refine wp_seq (fun r w => (∃ a, r = .ok a) ∧ w.pend t = [] ∧ Telling t m [] w)
    (tells_op _ ⟨hp, hs⟩ stable_telling.during ?_) ?_ (by rintro _ _ ⟨⟨_, he⟩, _⟩; cases he)
  · intro w₁ ch r w₂ hw₁ _ hi ha hd
    obtain ⟨h₁, h₂, h₃⟩ := quiet_notification hd hi (.inl trivial)
    cases hd with
    | fault => cases ha.1
    | now => exact ⟨h₁, h₂, ⟨_, rfl⟩, hw₁⟩
  · rintro now w ⟨_, hp, hs⟩
    refine wp_seq (fun r w => ∃ x, r = .ok x ∧
        Telling t m (if x.isSome then [.claimed e] else []) w)
      (tells_op _ ⟨hp, hs⟩ stable_telling.during ?_) ?_ (by rintro _ _ ⟨_, he, _⟩; cases he)
    · intro w₁ ch r w₂ hw₁ _ hi ha hd
      cases hd with
      | fault => cases ha.1
      | skipClaim => exact ⟨hi, .of_same rfl, none, rfl, hw₁.2⟩
      | @claim _ o ho hid hpend hf =>
        have hstory : ((w₁.hold t [.outbox e]).note t (.claimed e)).story t =
            .claimed e :: w₁.story t := World.story_told rfl rfl
        refine ⟨hi, ⟨?_, ?_, ?_⟩, some e, rfl, hstory.trans (congrArg _ hw₁.2)⟩
        · exact fun _ _ h => by cases (List.cons.inj (hstory.symm.trans h)).1
        · intro e' h _
          cases (List.cons.inj (hstory.symm.trans h)).1
          rw [World.view_nil hw₁.1] at ho
          exact ⟨⟨m, hw₁.2⟩, ⟨o, ho, hid, hpend⟩, hf⟩
        · exact fun _ h => by cases (List.cons.inj (hstory.symm.trans h)).1
    · rintro lockedId w ⟨_, he, hs⟩
      cases he
      cases lockedId with
      | none => exact ⟨false, rfl, hs⟩
      | some _ =>
        have hquiet : ∀ {op : Op} {w : World}, (op = .flush ∨ ∃ id s a, op = .updateOutbox id s a) →
            Telling t m [.claimed e] w → Tells notification lim Unrivalled t (perform op)
              (fun r w => (∃ a, r = .ok a) ∧ Telling t m [.claimed e] w) w := by
          intro op w ho hw
          refine tells_op _ hw stable_telling (fun w₁ ch r w₂ hw₁ _ hi ha hd => ?_)
          obtain ⟨h₁, h₂, h₃⟩ := quiet_notification hd hi
            (ho.imp_left (fun ho => by rw [ho]; trivial))
          refine ⟨h₁, h₂, ?_, h₃.trans hw₁⟩
          rcases ho with rfl | ⟨_, _, _, rfl⟩ <;> cases hd <;> first | exact ⟨_, rfl⟩ | cases ha.1
        refine wp_seq _ (hquiet (.inr ⟨_, _, _, rfl⟩) hs) ?_ (by rintro _ _ ⟨⟨_, he⟩, _⟩; cases he)
        rintro _ w ⟨_, hs⟩
        refine wp_seq _ (hquiet (.inl rfl) hs) ?_ (by rintro _ _ ⟨⟨_, he⟩, _⟩; cases he)
        exact fun _ w hw => ⟨true, rfl, hw.2⟩

/-- The end state of a claimed notification is set without fail. -/
theorem conclude_notification (hp : w.pend t = []) (h : ∃ told, Telling t m told w ∧
      ∀ e', .claimed e' ∈ told → e' = e) (hb : Backed notifyPaymentsQ.routingKey m e w.db) :
    Tells notification lim Unrivalled t (conclude e .confirmed) (fun r _ => r = .ok ()) w := by
  obtain ⟨told, hs, hclaim⟩ := h
  have hstable : notification.Stable t (fun w => Telling t m told w ∧
      Backed notifyPaymentsQ.routingKey m e w.db) :=
    fun w w' hw hr hst hd => ⟨stable_telling w w' hw.1 hr hst hd, hw.2.grows hr.grows⟩
  refine tells_within (fun r _ => r = .ok ()) (fun _ _ _ h _ _ _ => h) ?_
    (fun r w hw hi => ⟨hi, .of_same rfl, hw⟩) (fun w => .of_same rfl) (fun r w hw => hw)
    (fun r x w _ _ ha => by cases ha.1)
  have hexists : ∀ {w : World}, w.pend t = [] → Backed notifyPaymentsQ.routingKey m e w.db →
      ∃ o ∈ (w.view t).outbox.rows, o.id = e := by
    rintro w hp ⟨o, ho, _, _, hid⟩
    rw [World.view_nil hp]
    exact ⟨o, ho, hid⟩
  refine wp_seq (fun r w => r = .ok () ∧ w.pend t = [.updateOutbox e .confirmed none] ∧
    Telling t m told w ∧ Backed notifyPaymentsQ.routingKey m e w.db) ?_ ?_
    (by rintro _ _ ⟨he, _⟩; cases he)
  · refine wp_seq (fun r w => r = .ok (some e) ∧ w.pend t = [] ∧ Telling t m told w ∧
      Backed notifyPaymentsQ.routingKey m e w.db) (tells_op _ ⟨hp, hs, hb⟩ hstable.during ?_) ?_
      (by rintro _ _ ⟨he, _⟩; cases he)
    · intro w₁ ch r w₂ hw₁ _ hi ha hd
      obtain ⟨h₁, h₂, h₃⟩ := quiet_notification hd hi (.inl trivial)
      cases hd with
      | fault => cases ha.1
      | lockEvent => exact ⟨h₁, h₂, rfl, hw₁⟩
      | skipEvent hn =>
        obtain ⟨o, ho, hid⟩ := hexists hw₁.1 hw₁.2.2
        exact absurd (ha.2 hw₁.2.1.notifier) (hn o ho hid)
    · rintro result w ⟨he, hw⟩
      cases he
      refine wp_seq (fun r w => r = .ok () ∧ w.pend t = [.updateOutbox e .confirmed none] ∧
        Telling t m told w ∧ Backed notifyPaymentsQ.routingKey m e w.db)
        (tells_op _ hw hstable.during ?_) ?_ (by rintro _ _ ⟨he, _⟩; cases he)
      · intro w₁ ch r w₂ hw₁ _ hi ha hd
        obtain ⟨h₁, h₂, h₃⟩ := quiet_notification hd hi (.inr ⟨_, _, _, rfl⟩)
        cases hd with
        | fault => cases ha.1
        | missEvent hn =>
          obtain ⟨o, ho, hid⟩ := hexists hw₁.1 hw₁.2.2
          exact absurd hid (Table.find_none.mp hn o ho)
        | updateOutbox => exact ⟨h₁, h₂, rfl, by simp [hw₁.1], hw₁.2⟩
      · rintro _ w ⟨_, hw⟩
        refine tells_op _ hw hstable.during (fun w₁ ch r w₂ hw₁ _ hi ha hd => ?_)
        cases hd with
        | fault => cases ha.1
        | flush => exact ⟨hi, .of_same rfl, rfl, hw₁⟩
  · rintro _ w ⟨_, hw⟩
    refine wp_mono (tells_commit (R := fun _ => True) (fun _ => False) (fun _ _ h _ _ _ => h)
      (fun _ h => h.elim) (fun w => .of_same rfl)
      (tells_op _ hw hstable.during (fun w₁ ch r w₂ hw₁ _ hi ha hd => ?_)))
      (fun r w hw => ?_)
    · cases hd with
      | fault => cases ha.1
      | lostCommit => cases ha.1
      | commit =>
        have hstory : (w₁.commit t).story t =
            .committed [.updateOutbox e .confirmed none] :: w₁.story t := by
          refine World.story_told ?_ rfl
          rw [World.commit_trace, hw₁.1]
        refine ⟨hi, ⟨?_, ?_, ?_⟩, trivial⟩
        · exact fun _ _ h => by cases (List.cons.inj (hstory.symm.trans h)).1
        · exact fun _ h => by cases (List.cons.inj (hstory.symm.trans h)).1
        · intro ws _ _ e' he'
          rw [hw₁.2.1] at he'
          obtain rfl : e' = e := by
            rcases List.mem_append.mp he' with he' | he'
            · exact hclaim e' he'
            · cases List.mem_singleton.mp he'
          obtain ⟨o, ho, _, _, hid⟩ := hw₁.2.2
          rw [World.commit_db, World.view, hw₁.1]
          exact Db.handled_mark ⟨o, ho, hid⟩ (by decide)
    · cases r with
      | ok _ => rfl
      | error _ => exact hw.elim

/-- The notification of a stored event has a payload and an address. -/
theorem sendable {r : PaymentRow} {id : UUID} {occurredAt : DateTime} {reason : Option String} :
    ∃ payload, sendNotification (processedEvent r id occurredAt reason) =
      perform (.send r.webhookUrl payload DEFAULT_TIMEOUT) := by
  have hattr : (processedEvent r id occurredAt reason).attr "status" = r.status.toPy := rfl
  unfold sendNotification
  rw [hattr]
  cases r.status <;> exact ⟨_, rfl⟩

/-- A call of the use case posts once, and the event is handled afterwards. -/
theorem execute_notification {event : PaymentEvent} (hp : w.pend t = [])
    (hs : Telling t m [.claimed event.id] w) (hc : Carries w.db notifyPaymentsQ m)
    (hd : decodeNotify m.body = .ok event)
    (hsend : ∃ url payload, sendNotification event = perform (.send url payload DEFAULT_TIMEOUT)) :
    Tells notification lim Unrivalled t (executeNotification lim.notify m event)
      (fun _ _ => True) w := by
  have hnames : m.notifies event.id = true := by simp [Message.notifies, hd]
  have hstable : ∀ told, notification.Stable t (fun w => Telling t m told w ∧
      Carries w.db notifyPaymentsQ m) :=
    fun told w w' hw hr hst hd => ⟨stable_telling w w' hw.1 hr hst hd, hw.2.grows hr.grows⟩
  obtain ⟨url, payload, hsend⟩ := hsend
  refine wp_catch (fun r _ => r = .ok ()) ?_ (fun _ _ _ => trivial) (fun _ _ he => by cases he)
  refine wp_seq (fun r w => r = .ok () ∧ w.pend t = [] ∧
    Telling t m [.entered event.id, .claimed event.id] w ∧ Carries w.db notifyPaymentsQ m)
    (tells_op _ ⟨hp, hs, hc⟩ (hstable _).during ?_) ?_ (by rintro _ _ ⟨he, _⟩; cases he)
  · intro w₁ ch r w₂ hw₁ _ hi ha hd
    have hsolitary := World.Solitary.of_does hd (by simp) (by simp) (by simp)
    cases hd with
    | fault => cases ha.1
    | enter => exact ⟨hi, hsolitary, rfl, hw₁.1, hw₁.2.1.told rfl rfl, hw₁.2.2⟩
  · rintro _ w ⟨_, hw⟩
    rw [hsend]
    refine wp_seq (fun r w => r = .ok () ∧ w.pend t = [] ∧
      Telling t m [.posted url payload, .entered event.id, .claimed event.id] w ∧
      Carries w.db notifyPaymentsQ m)
      (tells_op _ hw (hstable _).during ?_) ?_ (by rintro _ _ ⟨he, _⟩; cases he)
    · intro w₁ ch r w₂ hw₁ _ hi ha hd
      cases hd with
      | fault => cases ha.1
      | send =>
        have htold : Telling t m [.posted url payload, .entered event.id, .claimed event.id]
          (w₁.note t (.posted url payload)) := hw₁.2.1.told rfl rfl
        refine ⟨hi, ⟨?_, ?_, ?_⟩, rfl, hw₁.1, htold, hw₁.2.2⟩
        · exact fun _ _ _ => ⟨event.id, m, hw₁.2.1, hnames⟩
        · intro e' h
          rw [htold, hw₁.2.1] at h
          cases (List.cons.inj h).1
        · intro ws h
          rw [htold, hw₁.2.1] at h
          cases (List.cons.inj h).1
    · rintro _ w ⟨_, hp, hs, hc⟩
      refine conclude_notification hp ⟨_, hs, fun e' he' => ?_⟩ (decodedNotify_backed hc hd)
      simpa using he'

theorem notify_notification {i : Nat} (hr : w.ready[i]? = some (notifyPaymentsQ, m)) (hi : w.Inv)
    (hd : w.FirstOnly) (hp : w.pend t = []) (hs : w.story t = []) :
    Tells notification lim Unrivalled t (handleNotifyClient lim.notify m)
      (fun _ _ => True) (w.deliver t i notifyPaymentsQ m) := by
  have hfirst : m.attempt = 0 := by
    have hnone : m.headers = none := hd _ (List.mem_of_getElem? hr) rfl
    simp [Message.attempt, hnone]
  have hc : Carries w.db notifyPaymentsQ m := hi.ready _ (List.mem_of_getElem? hr)
  have htell : Telling t m [] (w.deliver t i notifyPaymentsQ m) := by
    refine (World.story_told rfl rfl).trans ?_
    rw [hs]
    rfl
  simp only [handleNotifyClient, Prog.bind_eq, Prog.pure_eq]
  cases hdec : decodeNotify m.body with
  | error e => trivial
  | ok event =>
    have hsend : ∃ url payload, sendNotification event =
        perform (.send url payload DEFAULT_TIMEOUT) := by
      obtain ⟨r, _, _, id, occurredAt, reason, rfl⟩ :=
        decoded_processed hi.agree (decodedNotify_backed hc hdec) hdec
      exact ⟨_, sendable⟩
    rw [Prog.ofExcept_ok_bind]
    have honly : (claim event.id).Only (fun op => op ≠ .commit) :=
      (only_claim event.id).mono (fun _ ho => ho.silent.1)
    refine wp_seq _ (tells_frame (H := fun db => Carries db notifyPaymentsQ m) honly
      (fun _ _ h hg => h.grows hg) (claim_notification hp htell) hc) ?_ (fun _ _ _ => trivial)
    rintro claimed w ⟨⟨hp, b, he, hs⟩, hc⟩
    cases he
    refine tells_gated (fun _ => True) (fun _ _ _ => trivial) (fun hadm => ?_) (fun _ => trivial)
      (fun w _ => ?_)
    · have hclaimed : claimed = true := by
        rcases hadm with h | ⟨h, _⟩
        · exact h
        · rw [hfirst] at h
          exact absurd h (Nat.lt_irrefl 0)
      subst hclaimed
      exact execute_notification hp hs hc hdec hsend
    · refine tells_op _ trivial (Duty.stable_true _) (fun w₁ ch r w₂ _ _ hi ha hd => ?_)
      refine ⟨fun d hm => hi d ?_, .of_does hd (by simp) (by simp) (by simp), trivial⟩
      rwa [World.does_ready hd (by simp)] at hm

/-- The effects of `handle_payment_processing`: it posts nothing, and its copies do not go to
`handle_notify_client`. -/
def Op.Processes (lim : Limits) : Op → Prop
  | .send _ _ _ => False
  | .publish x k m => m.headers = none ∨ ∀ q ∈ route lim x k, q.topic ≠ notifyPaymentsQ.routingKey
  | _ => True

omit [Externals] in
theorem Op.Apart.processes {op : Op} (h : op.Apart) : op.Processes lim := by
  cases op <;> first | exact h.elim | exact .inl h | trivial

omit [Externals] in
theorem Op.Concludes.processes {op : Op} {s : TaskStatus} (h : op.Concludes e s) :
    op.Processes lim := by
  cases op <;> first | exact h.elim | trivial

omit [Externals] in
theorem payment_processes : (handlePaymentProcessing lim.process m).Only (Op.Processes lim) := by
  refine only_handlePaymentProcessing trivial (fun event _ op ho => ?_)
  cases ho with
  | claims h => cases op <;> first | exact h.elim | trivial
  | uses h => exact h.elim (fun h => h.apart.processes) (fun h => h.announces.apart.processes)
  | concludes h => exact h.processes
  | enters | acks => trivial
  | buries h =>
    rcases h with rfl | ⟨_, retry, hr, rfl⟩ | ⟨_, h | rfl⟩
    · trivial
    · refine .inr (fun q hq => ?_)
      rw [(route_retry (.inl rfl) (List.mem_of_getElem? hr) hq).1]
      decide
    · exact h.processes
    · refine .inr (fun q hq => ?_)
      rw [route_dead (.inr rfl) hq]
      decide

/-- The thread handles no notification. -/
def Elsewhere (t : Tid) (w : World) : Prop := ∀ m, .delivered notifyPaymentsQ m ∉ w.story t

omit [Externals] in
theorem stable_elsewhere : notification.Stable t (Elsewhere t) := fun _ _ h _ hs _ m => hs ▸ h m

/-- A thread that handles no notification posts nothing. -/
theorem elsewhere_notification {α : Type} {p : Service α} (hp : p.Only (Op.Processes lim))
    (h : Elsewhere t w) : Tells notification lim Unrivalled t p (fun _ _ => True) w := by
  refine wp_mono (tells_only hp h stable_elsewhere ?_) (fun _ _ _ => trivial)
  intro op ho w₁ ch r w₂ hw₁ _ hi _ hd
  have hnot : ¬ w₁.Notifier t := fun ⟨m, hm⟩ => hw₁ m hm
  refine ⟨?_, ⟨?_, fun _ _ hn => absurd hn hnot, fun _ _ hn => absurd hn hnot⟩, ?_⟩
  · by_cases hpub : ∃ x k m, op = .publish x k m
    · obtain ⟨x, k, m, rfl⟩ := hpub
      have haccept : (w₁.accept t lim x k m).FirstOnly := by
        intro d hm ht
        rcases List.mem_append.mp hm with hm | hm
        · exact hi d hm ht
        · obtain ⟨q, hq, rfl⟩ := List.mem_map.mp hm
          exact ho.resolve_right (fun hn => hn q hq ht)
      cases hd with
      | fault => exact hi
      | publish => exact haccept
      | lostPublish => exact haccept
    · have hready := World.does_ready hd (fun x k m he => hpub ⟨x, k, m, he⟩)
      exact fun d hm => hi d (hready ▸ hm)
  · intro url payload hs
    rcases World.does_trace hd with ht | ⟨o, hshow, ht⟩
    · exact absurd ((World.story_same ht).symm.trans hs) (by simp)
    · cases ha : o.aside with
      | true => exact absurd ((World.story_aside ht ha).symm.trans hs) (by simp)
      | false =>
        cases (List.cons.inj ((World.story_told ht ha).symm.trans hs)).1
        cases op <;> first | exact hshow.elim | exact ho.elim
  · exact fun m hm => hw₁ m (World.does_delivered hd hm)

/-- Without failures, redeliveries and rivals every program keeps the duty. -/
theorem notification_met : notification.Met lim Unrivalled where
  refl := fun _ _ => trivial
  trans := fun _ _ _ _ _ _ => trivial
  compat := fun _ _ _ _ _ _ _ _ => trivial
  idle := fun _ => Duty.stable_true _
  aside := fun t _ _ h _ _ _ _ hi => by
    refine ⟨fun d hm ht => ?_, .of_same (h.story t)⟩
    rcases h.ready d hm with hm | hn
    · exact hi d hm ht
    · exact hn
  deliver := fun _ _ _ _ _ _ hi _ =>
    ⟨fun d hm => hi d (List.mem_of_mem_eraseIdx hm), .of_told (World.story_told rfl rfl)
      (fun _ _ => by simp) (fun _ => by simp) (fun _ => by simp)⟩
  finish := fun _ _ _ _ hi => ⟨hi, .of_told (World.story_told rfl rfl)
    (fun _ _ => by simp) (fun _ => by simp) (fun _ => by simp)⟩
  crash := fun _ _ ha _ => by cases ha.1
  environment := fun e w w' ha hw hi he => by
    refine ⟨?_, fun _ => trivial⟩
    cases e with
    | expire i =>
      obtain ⟨⟨q, m⟩, hq, he⟩ := Option.bind_eq_some_iff.mp he
      obtain ⟨args, harg, rfl⟩ := Option.map_eq_some_iff.mp he
      intro d hm ht
      rcases List.mem_append.mp hm with hm | hm
      · exact hi d (List.mem_of_mem_eraseIdx hm) ht
      · obtain ⟨q', hr, rfl⟩ := List.mem_map.mp hm
        have hqm := List.mem_of_getElem? hq
        exact hi (q, m) hqm ((route_expired (hw.ready _ hqm).1 harg hr).1.symm.trans ht)
    | requeue t => cases ha.1
    | duplicate i => cases ha.1
  polls := fun p t w hp _ _ hs => by
    refine elsewhere_notification (hp.mono (fun op ho => ?_)) (fun m hm => ?_)
    · rcases ho with ho | ⟨_, _, rfl⟩
      · exact ho.processes
      · trivial
    · rw [hs] at hm
      cases hm
  payment := fun t w i m _ _ _ _ _ hs => by
    refine elsewhere_notification payment_processes (fun m' hm => ?_)
    rw [World.story_told rfl rfl, hs] at hm
    exact absurd (Obs.delivered.inj (List.mem_singleton.mp hm)).1 (by decide)
  notify := fun _ _ _ _ _ hr hi hd hp hs => notify_notification hr hi hd hp hs

end

namespace World

/-- What is known of the stories of the notifications. -/
structure Exclusive (w : World) : Prop where
  message : ∀ t q m q' m', .delivered q m ∈ w.story t → .delivered q' m' ∈ w.story t →
    q' = q ∧ m' = m
  posted : ∀ t url payload, .posted url payload ∈ w.story t → ∃ e m, .claimed e ∈ w.story t ∧
    .delivered notifyPaymentsQ m ∈ w.story t ∧ m.notifies e = true
  once : ∀ t, (w.story t).countP Obs.isPosted ≤ 1
  claimed : ∀ t u e, w.Notifier t → w.Notifier u → .claimed e ∈ w.story t →
    .claimed e ∈ w.story u → t = u
  concluded : ∀ t e, w.Notifier t → .claimed e ∈ w.story t → w.Concludes t → w.db.Handled e

end World

section

variable [Externals] {lim : Limits} {c c' : Config World Op Op.Res Exc Reply}
  {mv : Move Op Choice Req Env}

/-- What is known of a configuration where no claim had a rival. -/
abbrev Peaceful (lim : Limits) (c : Config World Op Op.Res Exc Reply) : Prop :=
  (World.contract.both notification.contract).Holds (service lim) Unrivalled c

theorem exclusive_step (hh : Peaceful lim c) (hi : c.shared.Exclusive)
    (ha : Unrivalled c.shared mv) (hs : (service lim).Step c mv c') : c'.shared.Exclusive := by
  obtain ⟨hgrows, hsol⟩ := notification_met.step hh ha hs
  have hfresh := (hh.fresh c.next (Nat.le_refl _)).2
  rcases step_story hs with hsame | ⟨t, o, hm, ht, hother⟩
  · constructor
    · exact fun u => by simpa only [hsame u] using hi.message u
    · exact fun u => by simpa only [hsame u] using hi.posted u
    · exact fun u => by simpa only [hsame u] using hi.once u
    · exact fun u v => by simpa only [World.Notifier, hsame u, hsame v] using hi.claimed u v
    · intro u e hn hc hd
      simp only [World.Notifier, World.Concludes, hsame u] at hn hc hd
      exact (hi.concluded u e hn hc hd).grows hgrows
  have hsol := hsol t o hm
  -- what a story contains is old or what this step told
  have hmem : ∀ {u x}, x ∈ c'.shared.story u → x ∈ c.shared.story u ∨ t = u ∧ x = o := by
    intro u x hx
    by_cases hu : t = u
    · subst hu
      rw [ht] at hx
      exact (List.mem_cons.mp hx).symm.imp_right (fun h => ⟨rfl, h⟩)
    · rw [hother u hu] at hx
      exact .inl hx
  have hold : ∀ {u x}, x ∈ c.shared.story u → x ∈ c'.shared.story u := by
    intro u x hx
    by_cases hu : t = u
    · subst hu
      rw [ht]
      exact List.mem_cons_of_mem _ hx
    · rwa [hother u hu]
  have hempty : ∀ q m, o = .delivered q m → c.shared.story t = [] :=
    fun q m he => told_delivered hs hfresh (he ▸ hm)
  -- a run that has claimed was delivered its message before
  have hnotifier : ∀ {u e}, c'.shared.Notifier u → .claimed e ∈ c'.shared.story u →
      c.shared.Notifier u := by
    rintro u e ⟨m, hm'⟩ hc
    rcases hmem hm' with hm' | ⟨rfl, he⟩
    · exact ⟨m, hm'⟩
    · rw [ht, hempty _ _ he.symm, ← he] at hc
      cases List.mem_singleton.mp hc
  constructor
  · intro u q m q' m' h h'
    rcases hmem h with h₁ | ⟨rfl, he⟩ <;> rcases hmem h' with h₂ | ⟨hu, he'⟩
    · exact hi.message u q m q' m' h₁ h₂
    · subst hu
      rw [hempty _ _ he'.symm] at h₁
      cases h₁
    · rw [hempty _ _ he.symm] at h₂
      cases h₂
    · cases he.trans he'.symm
      exact ⟨rfl, rfl⟩
  · intro u url payload h
    rcases hmem h with h | ⟨rfl, he⟩
    · obtain ⟨e, m, hc, hd, hn⟩ := hi.posted u url payload h
      exact ⟨e, m, hold hc, hold hd, hn⟩
    · obtain ⟨e, m, hstory, hn⟩ := hsol.posted url payload (he ▸ ht)
      exact ⟨e, m, hold (by simp [hstory]), hold (by simp [hstory]), hn⟩
  · intro u
    by_cases hu : t = u
    · subst hu
      rw [ht, List.countP_cons]
      cases hp : o.isPosted with
      | false => simpa using hi.once t
      | true =>
        obtain ⟨url, payload, rfl⟩ : ∃ url payload, o = .posted url payload := by
          cases o <;> first | exact ⟨_, _, rfl⟩ | cases hp
        obtain ⟨e, m, hstory, _⟩ := hsol.posted url payload ht
        simp [hstory, Obs.isPosted]
    · rw [hother u hu]
      exact hi.once u
  · -- a new claim finds the row pending, so no other run has claimed it and is done
    have hnew : ∀ {u e}, t ≠ u → o = .claimed e → c.shared.Notifier t → c.shared.Notifier u →
        .claimed e ∉ c.shared.story u := by
      intro u e hu he hnt hnu hc
      obtain ⟨_, hrow, hf⟩ := hsol.claimed e (he ▸ ht) hnt
      obtain ⟨ch, rfl⟩ := World.told_claimed (he ▸ hm)
      obtain ⟨x, hx, hxid, hxs⟩ := hi.concluded u e hnu hc (ha.2 hnt hrow hf u (Ne.symm hu) hnu hc)
      obtain ⟨y, hy, hyid, hys⟩ := hrow
      rw [Table.eq_of_key hx hy (hxid.trans hyid.symm), hys] at hxs
      exact hxs rfl
    intro u v e hnu hnv hu hv
    have hnu' := hnotifier hnu hu
    have hnv' := hnotifier hnv hv
    rcases hmem hu with hu | ⟨rfl, he⟩ <;> rcases hmem hv with hv | ⟨hv', he'⟩
    · exact hi.claimed u v e hnu' hnv' hu hv
    · subst hv'
      by_contra hne
      exact hnew (Ne.symm hne) he'.symm hnv' hnu' hu
    · by_contra hne
      exact hnew hne he.symm hnu' hnv' hv
    · exact hv'
  · intro u e hn hc hd
    have hn' := hnotifier hn hc
    obtain ⟨ws, hd⟩ := hd
    rcases hmem hc with hc | ⟨rfl, he⟩ <;> rcases hmem hd with hd | ⟨hu, he'⟩
    · exact (hi.concluded u e hn' hc ⟨ws, hd⟩).grows hgrows
    · subst hu
      exact hsol.committed ws (he' ▸ ht) hn' e hc
    · obtain ⟨⟨m, hstory⟩, _⟩ := hsol.claimed e (he ▸ ht) hn'
      rw [hstory] at hd
      cases List.mem_singleton.mp hd
    · cases he.trans he'.symm

theorem exclusive_reach (h : (service lim).Reach Unrivalled (Config.initial {}) c) :
    c.shared.Exclusive := by
  have hinit : Peaceful lim (Config.initial {}) :=
    Contract.holds_initial ⟨World.inv_empty, fun _ hd => by cases hd⟩ (fun _ => ⟨rfl, rfl⟩)
  have hnone : ∀ t o, o ∉ ({} : World).story t := fun _ _ => List.not_mem_nil
  induction h with
  | init =>
    exact ⟨fun t _ _ _ _ h => absurd h (hnone t _), fun t _ _ h => absurd h (hnone t _),
      fun _ => Nat.zero_le 1, fun t _ _ _ _ h => absurd h (hnone t _),
      fun t _ _ h => absurd h (hnone t _)⟩
  | step hr ha hs ih => exact exclusive_step (notification_met.valid.holds_reach hinit hr) ih ha hs

omit [Externals] in
/-- The posts of a thread are in its story. -/
theorem countP_story (w : World) (t : Tid) :
    (w.story t).countP Obs.isPosted = w.trace.countP (fun d => d.1 = t && d.2.isPosted) := by
  unfold World.story
  induction w.trace with
  | nil => rfl
  | cons d ds ih =>
    obtain ⟨u, o⟩ := d
    by_cases hu : u = t
    · cases ha : o.aside with
      | true =>
        have hp : o.isPosted = false := by
          cases o <;> first | rfl | cases ha
        simp [hu, ha, hp, ih]
      | false => cases hp : o.isPosted <;> simp [hu, ha, hp, ih]
    · simp [hu, ih]

omit [Externals] in
theorem notifies_unique {m : Message} {e e' : UUID} (h : m.notifies e = true)
    (h' : m.notifies e' = true) : e = e' := by
  unfold Message.notifies at h h'
  cases hd : decodeNotify m.body with
  | error x =>
    rw [hd] at h
    cases h
  | ok event =>
    rw [hd] at h h'
    exact (of_decide_eq_true h).symm.trans (of_decide_eq_true h')

/-- Without failures and redeliveries the webhook of an event is posted at most once, where no
claim of the event has a rival and no one locks the row when its status is to be set; and one
run at most calls the use case after a claim. -/
theorem notified_at_most_once (h : (service lim).Reach Unrivalled (Config.initial {}) c)
    (e : UUID) : c.shared.notified e ≤ 1 ∧ ∀ t u, c.shared.Calls t e → c.shared.Calls u e → t = u := by
  have hi := exclusive_reach h
  refine ⟨?_, fun t u ht hu => hi.claimed t u e ht.1 hu.1 ht.2.1 hu.2.1⟩
  by_contra hmany
  obtain ⟨d, hd, hp⟩ := List.countP_pos_iff.mp (Nat.lt_of_lt_of_le Nat.zero_lt_one
    (Nat.le_of_not_le hmany))
  -- a post for the event is one of a run that has claimed the event
  have hclaim : ∀ d ∈ c.shared.trace, c.shared.Posts e d = true →
      d.2.isPosted = true ∧ c.shared.Notifier d.1 ∧ .claimed e ∈ c.shared.story d.1 := by
    rintro ⟨u, o⟩ hd hp
    obtain ⟨hpost, hany⟩ := Bool.and_eq_true_iff.mp hp
    obtain ⟨⟨v, o'⟩, hd', hboth⟩ := List.any_eq_true.mp hany
    obtain ⟨hv, hn⟩ := Bool.and_eq_true_iff.mp hboth
    clear hboth
    obtain rfl : v = u := of_decide_eq_true hv
    obtain ⟨m, rfl, hn⟩ : ∃ m, o' = .delivered notifyPaymentsQ m ∧ m.notifies e = true := by
      cases o' with
      | delivered q m =>
        obtain ⟨hq, hn⟩ := Bool.and_eq_true_iff.mp hn
        exact ⟨m, by rw [show q = _ from of_decide_eq_true hq], hn⟩
      | _ => exact absurd hn (by simp)
    obtain ⟨url, payload, rfl⟩ : ∃ url payload, o = .posted url payload := by
      cases o <;> first | exact ⟨_, _, rfl⟩ | cases hpost
    have hdel : .delivered notifyPaymentsQ m ∈ c.shared.story v := World.mem_story.mpr ⟨hd', rfl⟩
    obtain ⟨e', m', hc, hd'', hn'⟩ := hi.posted v _ _ (World.mem_story.mpr ⟨hd, rfl⟩)
    obtain ⟨_, rfl⟩ := hi.message v _ _ _ _ hdel hd''
    exact ⟨rfl, ⟨_, hdel⟩, notifies_unique hn hn' ▸ hc⟩
  obtain ⟨_, hn, hc⟩ := hclaim d hd hp
  refine hmany (Nat.le_trans (List.countP_mono_left (fun x hx hpx => ?_))
    (countP_story c.shared d.1 ▸ hi.once d.1))
  obtain ⟨hpost, hn', hc'⟩ := hclaim x hx hpx
  have heq : x.1 = d.1 := hi.claimed _ _ e hn' hn hc' hc
  simp [heq, hpost]

end

/-- The steps of a run in which each event is claimed once and nothing fails. -/
def claimedOnce (w : World) (mv : Move Op Choice Req Env) : Bool :=
  smooth mv &&
    match mv with
    | .run _ (.selectPendingId e) _ =>
      w.trace.all (fun d => match d.2 with | .claimed e' => e' ≠ e | _ => true)
    | .run t (.selectOutboxId e) _ => w.Free t (.outbox e)
    | _ => true

theorem unrivalled_of_claimedOnce {w : World} {mv : Move Op Choice Req Env}
    (h : claimedOnce w mv = true) : Unrivalled w mv := by
  obtain ⟨hsmooth, h⟩ := Bool.and_eq_true_iff.mp h
  refine ⟨hsmooth, ?_⟩
  split
  · rename_i t e ch
    intro _ _ _ u _ _ hc
    have := List.all_eq_true.mp h _ (World.mem_story.mp hc).1
    simp at this
  · exact fun _ => by simpa using h
  · trivial

/-- The configuration after a schedule of such steps. -/
def afterClaims (as : Schedule) : Option (Config World Op Op.Res Exc Reply) :=
  (sampleService {}).play claimedOnce as (Config.initial {})

set_option maxRecDepth 20000 in
theorem notifiedRun_claims : (afterClaims notifiedRun).any
    (fun c => 0 < c.shared.notified (uid 12)) = true := by decide +kernel

theorem notified_at_most_once_notified : ∃ c,
    (sampleService {}).Reach Unrivalled (Config.initial {}) c ∧ 0 < c.shared.notified (uid 12) ∧
      c.shared.notified (uid 12) ≤ 1 := by
  obtain ⟨c, hc, hposts⟩ := (Option.any_eq_true _ _).mp notifiedRun_claims
  have hr : (sampleService {}).Reach Unrivalled (Config.initial {}) c :=
    Sys.reach_of_play (fun _ _ h => unrivalled_of_claimedOnce h) hc
  exact ⟨c, hr, of_decide_eq_true hposts, (@notified_at_most_once sample {} _ hr (uid 12)).1⟩

/-- A poll publishes a processed event again before the first message of it is delivered, and
both runs claim it before one of them posts. -/
def rivalRun : Schedule :=
  settledRun ++ pollRun 2 [uid 12] ++ [.start (.deliver 0)] ++ claimRun 3 ++
    [.start (.deliver 0)] ++ claimRun 4 ++ oks 3 2 ++ oks 4 2

/-- The configuration after a schedule without failures and redeliveries. -/
def afterSmooth (as : Schedule) : Option (Config World Op Op.Res Exc Reply) :=
  (sampleService {}).play (fun _ mv => smooth mv) as (Config.initial {})

set_option maxRecDepth 20000 in
theorem rivalRun_twice : (afterSmooth rivalRun).any
    (fun c => c.shared.notified (uid 12) = 2) = true := by decide +kernel

theorem notified_twice : ∃ c, (sampleService {}).Reach (fun _ mv => smooth mv = true)
    (Config.initial {}) c ∧ c.shared.notified (uid 12) = 2 := by
  obtain ⟨c, hc, htwice⟩ := (Option.any_eq_true _ _).mp rivalRun_twice
  exact ⟨c, Sys.reach_of_play (fun _ _ h => h) hc, of_decide_eq_true htwice⟩

end Payments
