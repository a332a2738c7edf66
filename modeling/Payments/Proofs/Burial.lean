import Payments.Proofs.Failures
import Payments.Proofs.Republication

namespace Payments

open Lib

/-- The rows of the events stay with what they carry. -/
def Db.Retains (db db' : Db) : Prop :=
  ∀ o ∈ db.outbox.rows, ∃ o' ∈ db'.outbox.rows, o'.id = o.id ∧ o'.body = o.body

theorem Db.Grows.retains {db db' : Db} (h : db.Grows db') : db.Retains db' := by
  intro o ho
  obtain ⟨o', ho', he⟩ := h.event o ho
  exact ⟨o', ho', he.same.1, he.same.2.2.2⟩

namespace World

/-- The broker has accepted a copy of the message of an event that is aimed at the dead letters. -/
def Buried (w : World) (e : UUID) : Prop :=
  ∃ u k m, (u, .accepted paymentsDlx k m) ∈ w.trace ∧ (k = dlq.routingKey ∨ k = dlq.publishKey) ∧
    ∃ o ∈ w.db.outbox.rows, o.id = e ∧ m.body = o.body

/-- Every event that the thread has committed as failed is buried. -/
def Discharged (w : World) (t : Tid) : Prop := ∀ e, w.Stated t e .failed → w.Buried e

end World

/-- Between its commit of a failed event and the acceptance of the dead letter no effect of a run
fails and the run does not crash, and the commit itself does not raise. -/
def Unbroken (w : World) : Move Op Choice Req Env → Prop
  | .run t .commit (.lost _) => w.Discharged t ∧ ∀ e, Sets (w.pend t) e .failed → w.Buried e
  | .run t _ (.fault _) => w.Discharged t
  | .kill t => w.Discharged t
  | _ => True

/-- What a step promises: a run ends when it is discharged, and only the run of a delivery
commits an event as failed. -/
structure World.Dutiful (t : Tid) (w w' : World) : Prop where
  ended : ∀ o, (o = .crashed ∨ ∃ r, o = .ended r) → w'.story t = o :: w.story t → w.Discharged t
  failed : ∀ e, w'.Stated t e .failed → w.Stated t e .failed ∨ ∃ q m, .delivered q m ∈ w.story t

/-- The duty to bury what has failed. -/
def burial : Duty where
  rely := fun _ w w' => ∀ d ∈ w.trace, d ∈ w'.trace
  guar := World.Dutiful
  idle := fun t w => w.Discharged t

/-- The thread handles a message of a committed event. -/
structure Attending (t : Tid) (m : Message) (e : UUID) (w : World) : Prop where
  delivered : ∃ q m', .delivered q m' ∈ w.story t
  backed : ∃ o ∈ w.db.outbox.rows, o.id = e ∧ m.body = o.body

/-- The thread has committed no event as failed, and its open transaction does so for the
event at most, and only where `S` holds. -/
structure Unfailed (t : Tid) (m : Message) (e : UUID) (S : Prop) (w : World) : Prop
    extends Attending t m e w where
  stated : ∀ e', ¬ w.Stated t e' .failed
  pend : ∀ e', Sets (w.pend t) e' .failed → S ∧ e' = e

/-- The thread has committed no other event than this one as failed. -/
structure Owing (t : Tid) (m : Message) (e : UUID) (w : World) : Prop
    extends Attending t m e w where
  stated : ∀ e', w.Stated t e' .failed → e' = e

/-- The thread owes no dead letter. -/
structure Resting (t : Tid) (m : Message) (e : UUID) (w : World) : Prop
    extends Attending t m e w where
  discharged : w.Discharged t

/-- The effect writes that an event has failed. -/
def Op.Fails (op : Op) : Prop := ∃ e at', op = .updateOutbox e .failed at'

section

variable {lim : Limits} {t : Tid} {w w' : World} {op : Op} {ch : Choice} {r : Except Exc op.Res}
  {e : UUID} {m : Message} {S : Prop}

namespace World

theorem Buried.mono (h : w.Buried e) (ht : ∀ d ∈ w.trace, d ∈ w'.trace)
    (hd : w.db.Retains w'.db) : w'.Buried e := by
  obtain ⟨v, k, m, hm, hk, o, ho, hid, hb⟩ := h
  obtain ⟨o', ho', hid', hb'⟩ := hd o ho
  exact ⟨v, k, m, ht _ hm, hk, o', ho', hid'.trans hid, hb.trans hb'.symm⟩

theorem Discharged.mono (h : w.Discharged t) (ht : ∀ d ∈ w.trace, d ∈ w'.trace)
    (hd : w.db.Retains w'.db) (hs : ∀ e, w'.Stated t e .failed → w.Stated t e .failed) :
    w'.Discharged t :=
  fun e he => (h e (hs e he)).mono ht hd

theorem does_retains (h : Does lim t w op ch r w') : w.db.Retains w'.db := by
  intro o ho
  obtain ⟨o', ho', hid, _, hb⟩ := does_kept h ho
  exact ⟨o', ho', hid, hb⟩

/-- A run that handles a delivery may commit what it likes. -/
theorem Dutiful.of_does (h : Does lim t w op ch r w') (hm : ∃ q m, .delivered q m ∈ w.story t) :
    Dutiful t w w' := by
  refine ⟨fun o ho hs => ?_, fun _ _ => .inr hm⟩
  have hshow := does_told h hs
  rcases ho with rfl | ⟨_, rfl⟩ <;> cases op <;> exact hshow.elim

theorem Dutiful.of_same (h : w'.story t = w.story t) : Dutiful t w w' := by
  refine ⟨fun o _ hs => absurd (h.symm.trans hs) (by simp), fun e he => .inl ?_⟩
  simpa only [Stated, h] using he

end World

theorem Attending.does (h : Attending t m e w) (hd : World.Does lim t w op ch r w') :
    Attending t m e w' := by
  obtain ⟨q, m', hm⟩ := h.delivered
  obtain ⟨o, ho, hid, hb⟩ := h.backed
  obtain ⟨o', ho', hid', hb'⟩ := World.does_retains hd o ho
  exact ⟨⟨q, m', World.does_tells hd hm⟩, o', ho', hid'.trans hid, hb.trans hb'.symm⟩

/-- The open transaction and the commits of the thread fail no more than its effects do. -/
theorem Unfailed.does (h : Unfailed t m e S w) (hd : World.Does lim t w op ch r w')
    (hc : op = .commit → ¬ S) (hu : ∀ e' at', op = .updateOutbox e' .failed at' → S ∧ e' = e) :
    Unfailed t m e S w' where
  toAttending := h.toAttending.does hd
  stated := fun e' he => by
    rcases World.does_stated hd he with he | ⟨ho, hs⟩
    · exact h.stated e' he
    · exact hc ho (h.pend e' hs).1
  pend := fun e' he => by
    rcases World.does_sets hd he with he | ⟨at', ho⟩
    · exact h.pend e' he
    · exact hu e' at' ho

theorem Owing.does (h : Owing t m e w) (hd : World.Does lim t w op ch r w') (hc : op ≠ .commit) :
    Owing t m e w' where
  toAttending := h.toAttending.does hd
  stated := fun e' he => h.stated e' ((World.does_stated hd he).resolve_right (fun h => hc h.1))

theorem Resting.does (h : Resting t m e w) (hd : World.Does lim t w op ch r w')
    (hc : op ≠ .commit) : Resting t m e w' where
  toAttending := h.toAttending.does hd
  discharged := h.discharged.mono (World.does_seen hd) (World.does_retains hd)
    (fun _ he => (World.does_stated hd he).resolve_right (fun h => hc h.1))

theorem Unfailed.resting (h : Unfailed t m e S w) : Resting t m e w :=
  ⟨h.toAttending, fun e' he => absurd he (h.stated e')⟩

theorem Attending.stable : burial.Stable t (Attending t m e) := by
  intro w w' h hr hs _
  obtain ⟨o, ho, hid, hb⟩ := h.backed
  obtain ⟨o', ho', hid', hb'⟩ := hr.grows.retains o ho
  exact ⟨hs ▸ h.delivered, o', ho', hid'.trans hid, hb.trans hb'.symm⟩

theorem Unfailed.stable : burial.Stable t (Unfailed t m e S) := fun w w' h hr hs hd =>
  ⟨Attending.stable w w' h.toAttending hr hs hd, by simpa only [World.Stated, hs] using h.stated,
    hr.pend ▸ h.pend⟩

theorem Owing.stable : burial.Stable t (Owing t m e) := fun w w' h hr hs hd =>
  ⟨Attending.stable w w' h.toAttending hr hs hd, by simpa only [World.Stated, hs] using h.stated⟩

theorem discharged_stable : burial.Stable t (fun w => w.Discharged t) := fun w w' h hr hs hd =>
  World.Discharged.mono h hd hr.grows.retains (fun e he => by simpa only [World.Stated, hs] using he)

theorem Resting.stable : burial.Stable t (Resting t m e) := fun w w' h hr hs hd =>
  ⟨Attending.stable w w' h.toAttending hr hs hd, discharged_stable w w' h.discharged hr hs hd⟩

end

theorem unbroken_fault {t : Tid} {w : World} {op : Op} {x : Exc}
    (h : Unbroken w (.run t op (.fault x))) : w.Discharged t := by
  cases op <;> exact h

section

variable [Externals] {lim : Limits} {t : Tid} {w : World} {e : UUID} {m : Message} {α : Type}

/-- A program that does not write a failure commits none. -/
theorem unfailed_burial {p : Service α} (hp : p.Only (fun op => ¬ op.Fails))
    (h : Unfailed t m e False w) :
    Tells burial lim Unbroken t p (fun _ => Unfailed t m e False) w := by
  refine tells_only hp h Unfailed.stable (fun op ho w₁ ch r w₂ hw₁ _ _ _ hd => ?_)
  exact ⟨trivial, .of_does hd hw₁.delivered, hw₁.does hd (fun _ h => h)
    (fun e' at' he => absurd ⟨e', at', he⟩ ho)⟩

/-- The failure may be committed and is owed a dead letter, or nothing is owed. -/
def Sealed (t : Tid) (m : Message) (e : UUID) : Except Exc Unit → World → Prop
  | .ok _, w => Owing t m e w
  | .error _, w => Resting t m e w

/-- The commit of a failure leaves nothing owed where it raises. -/
theorem commit_burial (h : Unfailed t m e True w) :
    Tells burial lim Unbroken t Uow.commit (Sealed t m e) w := by
  have hkeep : ∀ w, Resting t m e w → World.Dutiful t w (w.drop t) ∧ Resting t m e (w.drop t) :=
    fun w hw => ⟨.of_same rfl, hw.does (@World.Does.close lim t w) (by simp)⟩
  refine wp_mono (tells_commit (R := Owing t m e) (Resting t m e) Resting.stable
    (fun w hw _ => ⟨trivial, hkeep w hw⟩) (fun _ => .of_same rfl) ?_)
    (fun r w hw => by cases r <;> exact hw)
  refine tells_op _ h Unfailed.stable (fun w₁ ch r w₂ hw₁ _ _ ha hd => ?_)
  refine ⟨trivial, .of_does hd hw₁.delivered, ?_⟩
  have hattend := hw₁.toAttending.does hd
  have hnew : ∀ e', w₂.Stated t e' .failed → Sets (w₁.pend t) e' .failed := fun e' he =>
    ((World.does_stated hd he).resolve_left (hw₁.stated e')).2
  have hmono : ∀ e', w₁.Buried e' → w₂.Buried e' := fun e' he =>
    he.mono (World.does_seen hd) (World.does_retains hd)
  cases hd with
  | fault => exact hw₁.resting
  | lostCommit => exact ⟨hattend, fun e' he => hmono e' (ha.2 e' (hnew e' he))⟩
  | commit => exact ⟨hattend, fun e' he => (hw₁.pend e' (hnew e' he)).2⟩

theorem conclude_burial (h : Unfailed t m e False w) :
    Tells burial lim Unbroken t (conclude e .failed) (Sealed t m e) w := by
  have hstable : ∀ r, burial.Stable t (Sealed t m e r) := by
    intro r
    cases r with
    | ok _ => exact Owing.stable
    | error _ => exact Resting.stable
  have hdrop : ∀ r (w : World), Sealed t m e r w → Sealed t m e r (w.drop t) := by
    intro r w hw
    cases r with
    | ok _ => exact Owing.does hw (@World.Does.close lim t w) (by simp)
    | error _ => exact Resting.does hw (@World.Does.close lim t w) (by simp)
  refine tells_within (Sealed t m e) hstable ?_
    (fun r w hw _ => ⟨trivial, .of_same rfl, hdrop r w hw⟩) (fun _ => .of_same rfl)
    (fun _ _ hw => hw) (fun r x w _ hw ha => ?_)
  · refine wp_seq (fun _ => Unfailed t m e True) ?_ (fun _ w hw => commit_burial hw)
      (fun _ _ hw => Unfailed.resting hw)
    have hwrites := @only_markProcessed (fun op => op ≠ .commit ∧
      ∀ e' at', op = .updateOutbox e' .failed at' → e' = e) e .failed (by simp) (by simp) (by simp)
    have h' : Unfailed t m e True w :=
      { h with pend := fun e' he => (h.pend e' he).1.elim }
    refine tells_only hwrites h' Unfailed.stable (fun op ho w₁ ch r w₂ hw₁ _ _ _ hd => ?_)
    exact ⟨trivial, .of_does hd hw₁.delivered, hw₁.does hd (fun hc => absurd hc ho.1)
      (fun e' at' he => ⟨trivial, ho.2 e' at' he⟩)⟩
  · -- the close fails only where nothing is owed
    have hattend : Attending t m e (w.drop t) := by
      cases r with
      | ok _ => exact Owing.toAttending hw
      | error _ => exact Resting.toAttending hw
    have hrest : World.Discharged w t := unbroken_fault ha
    exact ⟨hattend, hrest.mono (fun _ h => h) (fun o ho => ⟨o, ho, rfl, rfl⟩) (fun _ h => h)⟩

/-- What fails for good is buried. -/
theorem retryOrBury_burial {base : RabbitQueue} {maxAttempts : Nat} {deadKey : String}
    {deadHeaders : Option Nat} (hk : deadKey = dlq.routingKey ∨ deadKey = dlq.publishKey)
    (h : Unfailed t m e False w) :
    Tells burial lim Unbroken t (retryOrBury base maxAttempts m e deadKey deadHeaders)
      (fun _ => Resting t m e) w := by
  refine wp_seq (fun _ => Unfailed t m e False)
    (unfailed_burial (only_op (by rintro ⟨_, _, h⟩; cases h)) h) (fun _ w hw => ?_)
    (fun _ _ hw => Unfailed.resting hw)
  split
  · split
    · exact wp_mono (unfailed_burial (only_op (by rintro ⟨_, _, h⟩; cases h)) hw)
        (fun _ _ hw => hw.resting)
    · exact hw.resting
  · refine wp_seq (Sealed t m e) (conclude_burial hw) (fun _ w hw => ?_) (fun _ _ hw => hw)
    refine tells_op _ hw Owing.stable (fun w₁ ch r w₂ hw₁ _ _ ha hd => ?_)
    refine ⟨trivial, .of_does hd hw₁.delivered, hw₁.toAttending.does hd, ?_⟩
    have hold := (hw₁.does hd (by simp)).stated
    have hbody : ∃ o ∈ w₁.db.outbox.rows, o.id = e ∧ m.body = o.body := hw₁.backed
    cases hd with
    | fault => exact unbroken_fault ha
    | publish | lostPublish =>
      intro e' he
      rw [hold e' he]
      exact ⟨t, deadKey, _, List.mem_cons_self, hk, hbody⟩

/-- The guarded part of a handler. -/
theorem guarded_burial {run : Service Unit} {f : Exc → Service Unit}
    (hrun : run.Only (fun op => ¬ op.Fails))
    (hf : ∀ x w, Unfailed t m e False w →
      Tells burial lim Unbroken t (f x) (fun _ => Resting t m e) w)
    (h : Unfailed t m e False w) :
    Tells burial lim Unbroken t (((perform (.enter e)).bind (fun _ => run.bind (fun _ =>
      conclude e .confirmed))).handle f) (fun _ => Resting t m e) w := by
  refine wp_catch (fun _ => Unfailed t m e False) (unfailed_burial ?_ h)
    (fun _ _ hw => Unfailed.resting hw) (fun x w hw => hf x w hw)
  refine Prog.Only.bind (only_op (by rintro ⟨_, _, h⟩; cases h)) (fun _ => Prog.Only.bind hrun
    (fun _ => (only_conclude e .confirmed).mono ?_))
  rintro op ho ⟨_, _, rfl⟩
  exact absurd ho.2.1 (by decide)

/-- What follows the decoding of a message. -/
theorem claimed_burial {maxAttempts : Nat} {run : Service Unit} (h : Unfailed t m e False w)
    (hrun : ∀ w, Unfailed t m e False w →
      Tells burial lim Unbroken t run (fun _ => Resting t m e) w) :
    Tells burial lim Unbroken t ((claim e).bind (fun claimed =>
      (if Admitted claimed m.attempt maxAttempts then run else Prog.ret ()).bind
        (fun _ => perform .ack))) (fun _ w => w.Discharged t) w := by
  refine wp_seq (fun _ => Unfailed t m e False) (unfailed_burial ((only_claim e).mono ?_) h)
    (fun claimed w hw => ?_) (fun _ _ hw => (Unfailed.resting hw).discharged)
  · rintro op ho ⟨_, _, rfl⟩
    exact absurd ho.2 (by decide)
  · refine tells_gated (Resting t m e) (fun _ _ hw => hw.discharged) (fun _ => hrun w hw)
      (fun _ => hw.resting) (fun w hw => ?_)
    refine tells_op _ hw Resting.stable (fun w₁ ch r w₂ hw₁ _ _ _ hd => ?_)
    exact ⟨trivial, .of_does hd hw₁.delivered, (hw₁.does hd (by simp)).discharged⟩

omit [Externals] in
/-- A run that has been delivered a message of an event has failed nothing. -/
theorem unfailed_deliver {i : Nat} {q : RabbitQueue} (hp : w.pend t = []) (hs : w.story t = [])
    (hb : ∃ o ∈ w.db.outbox.rows, o.id = e ∧ m.body = o.body) :
    Unfailed t m e False (w.deliver t i q m) := by
  have hstory : (w.deliver t i q m).story t = [.delivered q m] := by
    rw [World.story_told rfl rfl, hs]
  refine ⟨⟨⟨q, m, hstory ▸ List.mem_singleton_self _⟩, hb⟩, ?_, ?_⟩
  · rintro e' ⟨ws, hm, _⟩
    rw [hstory] at hm
    cases List.mem_singleton.mp hm
  · rintro e' ⟨_, hm⟩
    rw [show (w.deliver t i q m).pend t = [] from hp] at hm
    cases hm

omit [Externals] in
theorem process_unfailed (event : PaymentEvent) :
    (processPayment event).Only (fun op => ¬ op.Fails) := by
  refine (only_process_payment event).mono ?_
  rintro op (ho | ⟨_, _, ho⟩) ⟨_, _, rfl⟩
  · exact ho
  · cases ho

theorem send_unfailed (event : PaymentEvent) :
    (sendNotification event).Only (fun op => ¬ op.Fails) := by
  refine (only_sendNotification event).mono ?_
  rintro op ⟨_, _, _, rfl⟩ ⟨_, _, h⟩
  cases h

theorem payment_burial {i : Nat} (hr : w.ready[i]? = some (newPaymentsQ, m)) (hi : w.Inv)
    (hp : w.pend t = []) (hs : w.story t = []) :
    Tells burial lim Unbroken t (handlePaymentProcessing lim.process m)
      (fun _ w => w.Discharged t) (w.deliver t i newPaymentsQ m) := by
  have hcarries := hi.ready _ (List.mem_of_getElem? hr)
  have hconnect : ∀ e, (∃ o ∈ w.db.outbox.rows, o.id = e ∧ m.body = o.body) →
      Tells burial lim Unbroken t (perform .connect) (fun _ => Unfailed t m e False)
        (w.deliver t i newPaymentsQ m) := fun e he =>
    unfailed_burial (only_op (by rintro ⟨_, _, h⟩; cases h)) (unfailed_deliver hp hs he)
  simp only [handlePaymentProcessing, Prog.bind_eq, Prog.pure_eq]
  cases hd : decodeNew m.body with
  | error x =>
    obtain ⟨_, o, ho, hb, _⟩ := hcarries
    exact wp_seq _ (hconnect o.id ⟨o, ho, rfl, hb⟩) (fun _ _ hw => (Unfailed.resting hw).discharged)
      (fun _ _ hw => (Unfailed.resting hw).discharged)
  | ok event =>
    obtain ⟨o, ho, hb, _, hid⟩ := decodedNew_backed hcarries hd
    refine wp_seq _ (hconnect event.id ⟨o, ho, hid, hb⟩) (fun _ w hw => ?_)
      (fun _ _ hw => (Unfailed.resting hw).discharged)
    rw [Prog.ofExcept_ok_bind]
    refine claimed_burial hw (fun w hw => guarded_burial (process_unfailed event)
      (fun x w hw => ?_) hw)
    split
    · exact hw.resting
    · exact retryOrBury_burial (.inr rfl) hw

theorem notify_burial {i : Nat} (hr : w.ready[i]? = some (notifyPaymentsQ, m)) (hi : w.Inv)
    (hp : w.pend t = []) (hs : w.story t = []) :
    Tells burial lim Unbroken t (handleNotifyClient lim.notify m)
      (fun _ w => w.Discharged t) (w.deliver t i notifyPaymentsQ m) := by
  have hcarries := hi.ready _ (List.mem_of_getElem? hr)
  simp only [handleNotifyClient, Prog.bind_eq, Prog.pure_eq]
  cases hd : decodeNotify m.body with
  | error x =>
    obtain ⟨_, o, ho, hb, _⟩ := hcarries
    have hw : Unfailed t m o.id False (w.deliver t i notifyPaymentsQ m) :=
      unfailed_deliver hp hs ⟨o, ho, rfl, hb⟩
    exact hw.resting.discharged
  | ok event =>
    obtain ⟨o, ho, hb, _, hid⟩ := decodedNotify_backed hcarries hd
    rw [Prog.ofExcept_ok_bind]
    exact claimed_burial (unfailed_deliver hp hs ⟨o, ho, hid, hb⟩) (fun w hw =>
      guarded_burial (send_unfailed event) (fun x w hw => retryOrBury_burial (.inl rfl) hw) hw)

omit [Externals] in
theorem World.Dutiful.of_told {w' : World} {o : Obs} (h : w'.story t = o :: w.story t)
    (hc : ∀ ws, o ≠ .committed ws) (hd : (o = .crashed ∨ ∃ r, o = .ended r) → w.Discharged t) :
    World.Dutiful t w w' := by
  refine ⟨fun x hx hs => hd ((List.cons.inj (h.symm.trans hs)).1 ▸ hx), ?_⟩
  rintro e ⟨ws, hm, hx⟩
  rw [h] at hm
  rcases List.mem_cons.mp hm with he | hm
  · exact absurd he.symm (hc ws)
  · exact .inl ⟨ws, hm, hx⟩

/-- Where no run is broken off between the two effects, every program keeps the duty. -/
theorem burial_met : burial.Met lim Unbroken where
  refl := fun _ _ _ h => h
  trans := fun _ _ _ _ h h' d hd => h' d (h d hd)
  compat := fun t u w w' _ hg _ _ d hd => by
    obtain ⟨new, ht, _⟩ := hg.published
    exact ht ▸ List.mem_append_right _ hd
  idle := fun _ => discharged_stable
  aside := fun t _ _ h _ _ _ _ _ => ⟨trivial, .of_same (h.story t)⟩
  deliver := fun _ _ _ _ _ _ _ _ =>
    ⟨trivial, .of_told (World.story_told rfl rfl) (fun _ => by simp) (fun h => by simp at h)⟩
  finish := fun _ _ _ hd _ =>
    ⟨trivial, .of_told (World.story_told rfl rfl) (fun _ => by simp) (fun _ => hd)⟩
  crash := fun _ _ hd _ =>
    ⟨trivial, .of_told (World.story_told rfl rfl) (fun _ => by simp) (fun _ => hd)⟩
  environment := fun e w w' _ _ _ he => by
    obtain ⟨_, _, rfl⟩ := World.environment_same he
    exact ⟨trivial, fun _ _ h => h⟩
  polls := fun p t w hp _ hn hs => by
    refine wp_mono (tells_only (A := fun w => w.Apart t ∧ w.story t = []) hp
      ⟨World.apart_nil hn, hs⟩ (fun w w' hw hr hst _ => ⟨fun x hx => hw.1 x (hr.pend ▸ hx),
        hst.trans hw.2⟩) (fun op ho w₁ ch r w₂ hw₁ _ _ _ hd => ?_)) (fun _ w hw e he => ?_)
    · obtain ⟨haside, happ⟩ := World.does_apart hd ho hw₁.1
      exact ⟨trivial, .of_same (haside.story t), happ, (haside.story t).trans hw₁.2⟩
    · obtain ⟨ws, hm, _⟩ := he
      rw [hw.2] at hm
      cases hm
  payment := fun _ _ _ _ _ hr hi _ hp hs => payment_burial hr hi hp hs
  notify := fun _ _ _ _ _ hr hi _ hp hs => notify_burial hr hi hp hs

variable {c c' : Config World Op Op.Res Exc Reply} {mv : Move Op Choice Req Env}

/-- Only runs of deliveries fail events, and those that have stopped have buried them. -/
def Interred (c : Config World Op Op.Res Exc Reply) : Prop :=
  ∀ t, (∀ e, c.shared.Stated t e .failed → ∃ q m, .delivered q m ∈ c.shared.story t) ∧
    (c.threads t = none → c.shared.Discharged t)

theorem interred_step (hh : (World.contract.both burial.contract).Holds (service lim) Unbroken c)
    (hi : Interred c) (ha : Unbroken c.shared mv) (hs : (service lim).Step c mv c') :
    Interred c' := by
  obtain ⟨hgrows, hguar⟩ := burial_met.step hh ha hs
  have hseen := step_seen hs
  intro t
  refine ⟨fun e he => ?_, fun ht => ?_⟩
  · -- a new statement is one of a run that was delivered a message before
    have hbefore : ∃ q m, .delivered q m ∈ c.shared.story t := by
      rcases step_story hs with hsame | ⟨u, o, hm, _, hother⟩
      · exact (hi t).1 e (by simpa only [World.Stated, hsame t] using he)
      · by_cases hu : u = t
        · subst hu
          exact ((hguar u o hm).failed e he).elim ((hi u).1 e) (fun h => h)
        · exact (hi t).1 e (by simpa only [World.Stated, hother t hu] using he)
    obtain ⟨q, m, hm⟩ := hbefore
    exact ⟨q, m, World.story_seen hseen hm⟩
  · have hstop : c.shared.Discharged t ∧
        ∀ e, c'.shared.Stated t e .failed → c.shared.Stated t e .failed := by
      by_cases hrun : c.threads t = none
      · refine ⟨(hi t).2 hrun, fun e he => ?_⟩
        simpa only [World.Stated, step_idle hs hrun ht] using he
      · obtain ⟨o, hm, ho, htold⟩ := step_stops hs hrun ht
        refine ⟨(hguar t o hm).ended o ho htold, ?_⟩
        rintro e ⟨ws, hws, hx⟩
        rw [htold] at hws
        rcases List.mem_cons.mp hws with rfl | hws
        · simp at ho
        · exact ⟨ws, hws, hx⟩
    exact hstop.1.mono hseen hgrows.retains hstop.2

theorem interred_reach (h : (service lim).Reach Unbroken (Config.initial {}) c) : Interred c := by
  have hinit : (World.contract.both burial.contract).Holds (service lim) Unbroken
      (Config.initial {}) :=
    Contract.holds_initial ⟨World.inv_empty, trivial⟩ (fun _ => ⟨rfl, rfl⟩)
  induction h with
  | init =>
    have hnone : ∀ t e, ¬ ({} : World).Stated t e .failed := fun _ _ ⟨_, hm, _⟩ => by cases hm
    exact fun t => ⟨fun e he => absurd he (hnone t e), fun _ e he => absurd he (hnone t e)⟩
  | step hr ha hs ih => exact interred_step (burial_met.valid.holds_reach hinit hr) ih ha hs

/-- In a run that is nowhere broken off between the two effects, the broker has accepted a dead
letter of each event that has failed, whenever no handler is running. -/
theorem failed_buried (h : (service lim).Reach Unbroken (Config.initial {}) c)
    (hq : ∀ t q m, .delivered q m ∈ c.shared.story t → c.threads t = none) {o : OutboxRow}
    (ho : o ∈ c.shared.db.outbox.rows) (hs : o.status = .failed) : c.shared.Buried o.id := by
  have hreach : Reachable lim c := h.mono (fun _ _ _ => trivial)
  rcases (attributed_reach hreach).row o ho with hp | ⟨t, hst⟩
  · rw [hs] at hp
    cases hp
  · rw [hs] at hst
    obtain ⟨hdel, hbury⟩ := interred_reach h t
    obtain ⟨q, m, hm⟩ := hdel o.id hst
    exact hbury (hq t q m hm) o.id hst

end

/-- The transaction fails an event. -/
def failsEvent (ws : List Write) : Bool :=
  ws.any (fun x => match x with | .updateOutbox _ .failed _ => true | _ => false)

/-- No failure of an event is told. -/
def unstated (os : List Obs) : Bool :=
  os.all (fun o => match o with | .committed ws => !failsEvent ws | _ => true)

theorem discharged_of_unstated {w : World} {t : Tid} (h : unstated (w.story t) = true) :
    w.Discharged t := by
  rintro e ⟨ws, hm, at', hx⟩
  have hfails : failsEvent ws = true := List.any_eq_true.mpr ⟨_, hx, rfl⟩
  simpa [hfails] using List.all_eq_true.mp h _ hm

/-- The steps of a run whose failures come before anything is owed. -/
def failsEarly (w : World) : Move Op Choice Req Env → Bool
  | .run t _ (.fault _) => unstated (w.story t)
  | .run _ _ (.lost _) | .kill _ => false
  | _ => true

theorem unbroken_of_failsEarly {w : World} {mv : Move Op Choice Req Env}
    (h : failsEarly w mv = true) : Unbroken w mv := by
  cases mv with
  | run t op ch =>
    cases ch with
    | fault x => cases op <;> exact discharged_of_unstated h
    | lost x => cases h
    | _ => cases op <;> trivial
  | kill t => cases h
  | _ => trivial

/-- No dead letter is accepted. -/
def unburied (trace : List (Tid × Obs)) : Bool :=
  trace.all (fun d => match d.2 with
    | .accepted x k _ => x ≠ paymentsDlx || k ≠ dlq.routingKey && k ≠ dlq.publishKey
    | _ => true)

theorem not_buried {w : World} (h : unburied w.trace = true) (e : UUID) : ¬ w.Buried e := by
  rintro ⟨u, k, m, hm, hk, _⟩
  have := List.all_eq_true.mp h _ hm
  rcases hk with rfl | rfl <;> simp at this

/-- The runs whose steps fail only before anything is owed. -/
def afterEarly (as : Schedule) : Option (Config World Op Op.Res Exc Reply) :=
  (sampleService {}).play failsEarly as (Config.initial {})

set_option maxRecDepth 20000 in
theorem lostRun_fails : (afterEarly lostRun).any (fun c =>
    (∀ t < c.next, (c.threads t).isNone = true) ∧
      ∃ o ∈ c.shared.db.outbox.rows, o.status = .failed) = true := by decide +kernel

theorem failed_buried_lost : ∃ c : Config World Op Op.Res Exc Reply,
    (sampleService {}).Reach Unbroken (Config.initial {}) c ∧
      ∃ o ∈ c.shared.db.outbox.rows, o.status = .failed ∧ c.shared.Buried o.id := by
  obtain ⟨c, hc, hfails⟩ := (Option.any_eq_true _ _).mp lostRun_fails
  obtain ⟨hquiet, o, ho, hs⟩ := of_decide_eq_true hfails
  have hr : (sampleService {}).Reach Unbroken (Config.initial {}) c :=
    Sys.reach_of_play (fun _ _ h => unbroken_of_failsEarly h) hc
  have hq := @quiet_of_started sample {} _ (hr.mono (fun _ _ _ => trivial)) hquiet
  exact ⟨c, hr, o, ho, hs, @failed_buried sample {} _ hr (fun t _ _ _ => hq t) o ho hs⟩

/-- The last attempt commits the failure of its event and loses its dead letter. The message is
delivered again, to a run that finds the event handled and acknowledges it. -/
def unburiedRun : Schedule :=
  createRun 0 (uid 1) (uid 10) (uid 11) ++ failRun 1 0 ++ [.env (.expire 0)] ++ failRun 2 0 ++
    [.env (.expire 0)] ++ failRun 3 0 ++ [.env (.expire 0), .start (.deliver 0), .run 4 .ok] ++
    claimRun 4 ++ [.run 4 .ok, .run 4 (.fault .operational)] ++ oks 4 8 ++
    [.run 4 (.fault .amqp), .exit 4, .env (.requeue 4), .start (.deliver 0), .run 5 .ok,
      .run 5 (.time sampleTime)] ++ oks 5 3 ++ [.exit 5]

set_option maxRecDepth 20000 in
theorem unburiedRun_some : (after {} unburiedRun).isSome = true := by decide +kernel

/-- The event has failed and its messages are gone. -/
def abandoned : Config World Op Op.Res Exc Reply := (after {} unburiedRun).get unburiedRun_some

set_option maxRecDepth 20000 in
theorem abandoned_unburied : (∀ t < abandoned.next, (abandoned.threads t).isNone = true) ∧
    abandoned.shared.ready.isEmpty = true ∧ abandoned.shared.unacked.isEmpty = true ∧
    (∃ o ∈ abandoned.shared.db.outbox.rows, o.status = .failed) ∧
    unburied abandoned.shared.trace = true := by decide +kernel

theorem failed_unburied : ∃ c : Config World Op Op.Res Exc Reply, @Reachable sample {} c ∧
    (∀ t, c.threads t = none) ∧ c.shared.ready = [] ∧ c.shared.unacked = [] ∧
      ∃ o ∈ c.shared.db.outbox.rows, o.status = .failed ∧ ¬ c.shared.Buried o.id := by
  obtain ⟨hquiet, hready, hunacked, ⟨o, ho, hs⟩, hunburied⟩ := abandoned_unburied
  have hr : @Reachable sample {} abandoned := reachable_after unburiedRun_some
  exact ⟨abandoned, hr, @quiet_of_started sample {} _ hr hquiet, List.isEmpty_iff.mp hready,
    List.isEmpty_iff.mp hunacked, o, ho, hs, not_buried hunburied o.id⟩

end Payments
