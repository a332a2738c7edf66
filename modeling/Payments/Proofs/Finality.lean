import Payments.Proofs.Agreement
import Payments.Proofs.Delivery

namespace Payments

open Lib

/-- The number of attempts of the handler of a queue. -/
def Limits.attempts (lim : Limits) (q : RabbitQueue) : Nat :=
  if q = newPaymentsQ then lim.process else lim.notify

/-- After this a delivery does not set the status of its event any more, unless it raises. -/
def Obs.Over : Obs → Prop
  | .committed _ | .acked | .ended _ | .crashed => True
  | _ => False

namespace World

/-- The thread handles a delivery on its last attempt. -/
def Last (lim : Limits) (w : World) (t : Tid) : Prop :=
  ∃ q m, .delivered q m ∈ w.story t ∧ lim.attempts q ≤ m.attempt

/-- The thread has called the use case for an event, and it has not yet committed a status of
the event, acknowledged the delivery or ended. -/
def Active (w : World) (t : Tid) (e : UUID) : Prop :=
  .entered e ∈ w.story t ∧ ∀ o ∈ w.story t, ¬ o.Over

end World

/-- The steps that leave no doubt about the end state of an event. The use case is not called
for an event that has failed, nor on the last attempt for one that is confirmed. Calls for one
event do not overlap when one of them is the last attempt. And on the last attempt the
transaction that confirms the event does not raise after it took effect. -/
def Undisputed (lim : Limits) (w : World) : Move Op Choice Req Env → Prop
  | .run t (.enter e) _ =>
    (∀ o ∈ w.db.outbox.rows, o.id = e →
      o.status ≠ .failed ∧ (w.Last lim t → o.status ≠ .confirmed)) ∧
    ∀ u, u ≠ t → w.Active u e → ¬ w.Last lim u ∧ ¬ w.Last lim t
  | .run t .commit (.lost _) => w.Last lim t → ∀ e at', .updateOutbox e .confirmed at' ∉ w.pend t
  | .run t .close (.fault _) => w.Last lim t →
    ∀ ws e at', .committed ws ∈ w.story t → .updateOutbox e .confirmed at' ∉ ws
  | _ => True

namespace World

/-- What a step does to the status of an event: a new row is pending, and only a call of the
use case sets the status of another, to failed only on the last attempt, and only once. -/
def Marks (lim : Limits) (t : Tid) (w w' : World) : Prop :=
  ∀ o' ∈ w'.db.outbox.rows, o'.status = .pending ∨ ∃ o ∈ w.db.outbox.rows, o.id = o'.id ∧
    (o.status = o'.status ∨ w.Active t o'.id ∧ ¬ w'.Active t o'.id ∧
      (o'.status = .confirmed ∨ o'.status = .failed ∧ w.Last lim t))

variable {lim : Limits} {w w' : World} {t : Tid}

theorem Marks.of_rows (h : ∀ o' ∈ w'.db.outbox.rows, o' ∈ w.db.outbox.rows ∨
    o'.status = .pending ∧ ∀ o ∈ w.db.outbox.rows, o.id ≠ o'.id) : Marks lim t w w' := by
  intro o' ho'
  rcases h o' ho' with hm | ⟨hp, _⟩
  · exact .inr ⟨o', hm, rfl, .inl rfl⟩
  · exact .inl hp

theorem Marks.of_db (h : w'.db = w.db) : Marks lim t w w' :=
  .of_rows (fun _ ho => .inl (h ▸ ho))

/-- The delivery of a message has not set a status and has not ended. -/
structure Undecided (t : Tid) (q : RabbitQueue) (m : Message) (w : World) : Prop where
  undecided : ∀ o ∈ w.story t, ¬ o.Over
  message : ∀ q' m', .delivered q' m' ∈ w.story t ↔ q' = q ∧ m' = m

variable {q : RabbitQueue} {m : Message}

/-- The thread handles this message and no other. -/
theorem last_iff (h : ∀ q' m', .delivered q' m' ∈ w.story t ↔ q' = q ∧ m' = m) :
    w.Last lim t ↔ lim.attempts q ≤ m.attempt := by
  constructor
  · rintro ⟨q', m', hm, hle⟩
    obtain ⟨rfl, rfl⟩ := (h q' m').mp hm
    exact hle
  · exact fun hle => ⟨q, m, (h q m).mpr ⟨rfl, rfl⟩, hle⟩

theorem Undecided.of_story (h : w.Undecided t q m) (hs : w'.story t = w.story t) :
    w'.Undecided t q m :=
  ⟨fun o ho => h.undecided o (hs ▸ ho), fun q' m' => hs ▸ h.message q' m'⟩

/-- Only a commit or an acknowledgement ends the delivery. -/
theorem Undecided.does {op : Op} {ch : Choice} {r : Except Exc op.Res} (h : w.Undecided t q m)
    (hd : Does lim t w op ch r w') (hc : op ≠ .commit) (ha : op ≠ .ack) :
    w'.Undecided t q m := by
  rcases does_trace hd with ht | ⟨o, ho, ht⟩
  · exact h.of_story (story_same ht)
  · cases hs : o.aside with
    | true => exact h.of_story (story_aside ht hs)
    | false =>
      have hover : ¬ o.Over ∧ ∀ q' m', .delivered q' m' ≠ o := by
        cases op <;> cases o <;> first
          | exact ho.elim
          | exact absurd rfl hc
          | exact absurd rfl ha
          | exact ⟨fun h => h, fun _ _ h => by cases h⟩
      refine ⟨fun o' ho' => ?_, fun q' m' => ?_⟩
      · rw [story_told ht hs] at ho'
        rcases List.mem_cons.mp ho' with rfl | ho'
        · exact hover.1
        · exact h.undecided o' ho'
      · rw [story_told ht hs, List.mem_cons, h.message]
        exact or_iff_right (hover.2 q' m')

end World

/-- The duty to set the status of an event only from an active call of its use case. -/
def finality (lim : Limits) : Duty where
  guar := World.Marks lim

section

variable [Externals] {lim : Limits} {t : Tid} {w : World} {q : RabbitQueue} {m : Message}
  {e : UUID}

/-- A call of the use case for the event that has not decided yet. -/
structure Calling (t : Tid) (q : RabbitQueue) (m : Message) (e : UUID) (w : World) : Prop
    extends w.Undecided t q m where
  entered : .entered e ∈ w.story t

omit [Externals] in
theorem Calling.active (h : Calling t q m e w) : w.Active t e := ⟨h.entered, h.undecided⟩

omit [Externals] in
theorem Calling.of_story {w' : World} (h : Calling t q m e w) (hs : w'.story t = w.story t) :
    Calling t q m e w' :=
  ⟨h.toUndecided.of_story hs, hs ▸ h.entered⟩

omit [Externals] in
theorem Calling.does {op : Op} {ch : Choice} {r : Except Exc op.Res} {w' : World}
    (h : Calling t q m e w) (hd : World.Does lim t w op ch r w') (hc : op ≠ .commit)
    (ha : op ≠ .ack) : Calling t q m e w' :=
  ⟨h.toUndecided.does hd hc ha, World.does_tells hd h.entered⟩

omit [Externals] in
theorem stable_undecided : (finality lim).Stable t (World.Undecided t q m) :=
  fun _ _ h _ hs _ => h.of_story hs

omit [Externals] in
theorem stable_calling : (finality lim).Stable t (Calling t q m e) :=
  fun _ _ h _ hs _ => h.of_story hs

/-- The claim of an event decides nothing. -/
theorem claim_undecided (h : w.Undecided t q m) :
    Tells (finality lim) lim (Undisputed lim) t (claim e)
      (fun _ w => w.pend t = [] ∧ w.Undecided t q m) w := by
  refine tells_within (fun _ w => w.Undecided t q m) (fun _ => stable_undecided)
    (tells_only (only_markInProcess e) h stable_undecided (fun op ho w₁ ch r w₂ hu _ _ _ hd =>
      ⟨trivial, .of_db (World.does_db hd ho.silent.1), hu.does hd ho.silent.1 ho.silent.2⟩))
    (fun _ w hw _ => ⟨trivial, .of_db rfl, hw.of_story (World.story_same rfl)⟩)
    (fun w => .of_db rfl) (fun _ _ hw => ⟨by simp, hw⟩) (fun _ _ _ _ hw _ => ⟨by simp, hw⟩)

/-- The transaction of the end state has been committed. -/
structure Decided (t : Tid) (q : RabbitQueue) (m : Message) (e : UUID) (s : TaskStatus)
    (w : World) : Prop where
  message : ∀ q' m', .delivered q' m' ∈ w.story t ↔ q' = q ∧ m' = m
  committed : .committed [.updateOutbox e s none] ∈ w.story t

omit [Externals] in
/-- The commit of an end state that the call may set. -/
theorem commit_decides {s : TaskStatus} (h : Calling t q m e w)
    (hp : w.pend t = [] ∨ w.pend t = [.updateOutbox e s none])
    (hs : s = .confirmed ∨ s = .failed ∧ lim.attempts q ≤ m.attempt) :
    World.Marks lim t w (w.commit t) ∧
      (Calling t q m e (w.commit t) ∨
        w.pend t = [.updateOutbox e s none] ∧ Decided t q m e s (w.commit t)) := by
  rcases hp with hp | hp
  · have haside := World.aside_commit (World.apart_nil hp)
    exact ⟨.of_rows haside.rows, .inl (h.of_story (haside.story t))⟩
  · have hstory : (w.commit t).story t = .committed [.updateOutbox e s none] :: w.story t := by
      refine World.story_told ?_ rfl
      rw [World.commit_trace, hp]
    have hover : ¬ (w.commit t).Active t e := fun ha =>
      ha.2 (.committed [.updateOutbox e s none]) (hstory ▸ List.mem_cons_self) trivial
    refine ⟨fun o' ho' => .inr ?_, .inr ⟨hp, fun q' m' => ?_, hstory ▸ List.mem_cons_self⟩⟩
    · rw [World.commit_db, World.view, hp, Db.mem_outbox_mark] at ho'
      rcases ho' with ⟨ho', _⟩ | ⟨o, ho, hid, rfl⟩
      · exact ⟨o', ho', rfl, .inl rfl⟩
      · refine ⟨o, ho, rfl, .inr ?_⟩
        rw [Db.markRow_id, hid]
        exact ⟨h.active, hover, hs.imp_right (fun hf =>
          ⟨hf.1, (World.last_iff h.message).mpr hf.2⟩)⟩
    · rw [hstory, List.mem_cons, h.message]
      exact or_iff_right (by simp)

omit [Externals] in
theorem stable_decided {s : TaskStatus} : (finality lim).Stable t (Decided t q m e s) :=
  fun _ _ h _ hs _ => ⟨fun q' m' => hs ▸ h.message q' m', hs ▸ h.committed⟩

/-- A call sets the end state once: where its transaction raises, nothing has been decided, or
the delivery does not decide anything else. -/
theorem conclude_finality {s : TaskStatus} (hp : w.pend t = []) (h : Calling t q m e w)
    (hs : s = .confirmed ∨ s = .failed ∧ lim.attempts q ≤ m.attempt) :
    Tells (finality lim) lim (Undisputed lim) t (conclude e s)
      (fun r w => ∀ x, r = .error x → w.pend t = [] ∧
        (Calling t q m e w ∨ s = .failed ∨ ¬ lim.attempts q ≤ m.attempt)) w := by
  have hstable : ∀ r : Except Exc Unit, (finality lim).Stable t (fun w => Calling t q m e w ∨
      Decided t q m e s w ∧ ∀ x, r = .error x → s = .failed ∨ ¬ lim.attempts q ≤ m.attempt) :=
    fun r w w' hw hr hst hd => hw.imp (fun h => stable_calling w w' h hr hst hd)
      (fun h => ⟨stable_decided w w' h.1 hr hst hd, h.2⟩)
  have hdrop : ∀ {w : World}, Decided t q m e s w → Decided t q m e s (w.drop t) :=
    fun h => ⟨h.message, h.committed⟩
  refine tells_within (fun r w => Calling t q m e w ∨
      Decided t q m e s w ∧ ∀ x, r = .error x → s = .failed ∨ ¬ lim.attempts q ≤ m.attempt)
    hstable ?_ (fun r w hw _ => ⟨trivial, .of_db rfl, hw.imp (fun h => h.of_story rfl)
      (fun h => ⟨hdrop h.1, h.2⟩)⟩) (fun w => .of_db rfl) ?_ ?_
  · refine wp_seq (fun r w => Calling t q m e w ∧ (r = .ok () →
      w.pend t = [] ∨ w.pend t = [.updateOutbox e s none])) ?_ ?_ (fun _ _ hw => .inl hw.1)
    · refine wp_seq (fun _ w => w.pend t = [] ∧ Calling t q m e w)
        (tells_op _ ⟨hp, h⟩ stable_calling.during ?_) ?_ (fun _ _ hw => ⟨hw.2, fun he => by cases he⟩)
      · intro w₁ ch r w₂ hw₁ _ _ _ hd
        refine ⟨trivial, .of_db (World.does_db hd (by simp)), ?_, hw₁.2.does hd (by simp) (by simp)⟩
        cases hd <;> exact hw₁.1
      · intro result w hw
        cases result with
        | none => exact ⟨hw.2, fun he => by cases he⟩
        | some _ =>
          refine wp_seq (fun r w => Calling t q m e w ∧ (r = .ok () →
            w.pend t = [] ∨ w.pend t = [.updateOutbox e s none]))
            (tells_op _ hw stable_calling.during ?_) ?_ (fun _ _ hw => hw)
          · intro w₁ ch r w₂ hw₁ _ _ _ hd
            refine ⟨trivial, .of_db (World.does_db hd (by simp)), hw₁.2.does hd (by simp) (by simp),
              ?_⟩
            cases hd with
            | fault => exact fun he => by cases he
            | missEvent => exact fun _ => .inl hw₁.1
            | updateOutbox => exact fun _ => .inr (by simp [hw₁.1])
          · intro _ w hw
            refine tells_op (fun w => Calling t q m e w ∧
              (w.pend t = [] ∨ w.pend t = [.updateOutbox e s none])) ⟨hw.1, hw.2 rfl⟩
              (fun w w' hw hr hst hd => ⟨stable_calling w w' hw.1 hr hst hd, hr.pend ▸ hw.2⟩) ?_
            intro w₁ ch r w₂ hw₁ _ _ _ hd
            refine ⟨trivial, .of_db (World.does_db hd (by simp)), hw₁.1.does hd (by simp) (by simp),
              fun _ => ?_⟩
            cases hd <;> exact hw₁.2
    · intro _ w hw
      have hP : (finality lim).Stable t (fun w => Calling t q m e w ∧
          (w.pend t = [] ∨ w.pend t = [.updateOutbox e s none])) :=
        fun w w' hw hr hst hd => ⟨stable_calling w w' hw.1 hr hst hd, hr.pend ▸ hw.2⟩
      refine wp_mono (tells_commit (R := fun w => Calling t q m e w ∨ Decided t q m e s w)
        (fun w => Calling t q m e w ∨ Decided t q m e s w ∧ (s = .failed ∨ ¬ lim.attempts q ≤ m.attempt))
        (fun w w' hw hr hst hd => hw.imp (fun h => stable_calling w w' h hr hst hd)
          (fun h => ⟨stable_decided w w' h.1 hr hst hd, h.2⟩))
        (fun w hw _ => ⟨trivial, .of_db rfl, hw.imp (fun h => h.of_story rfl)
          (fun h => ⟨hdrop h.1, h.2⟩)⟩) (fun w => .of_db rfl)
        (tells_op _ ⟨hw.1, hw.2 rfl⟩ hP ?_)) ?_
      · intro w₁ ch r w₂ hw₁ _ _ ha hd
        obtain ⟨hmarks, hcommit⟩ := commit_decides hw₁.1 hw₁.2 hs
        cases hd with
        | fault => exact ⟨trivial, .of_db rfl, .inl hw₁.1⟩
        | commit => exact ⟨trivial, hmarks, hcommit.imp_right (fun h => h.2)⟩
        | lostCommit =>
          refine ⟨trivial, hmarks, hcommit.imp_right (fun ⟨hp, h⟩ => ⟨h, ?_⟩)⟩
          refine or_iff_not_imp_right.mpr (fun hl => ?_)
          rcases hs with rfl | ⟨hf, _⟩
          · exact absurd (hp ▸ List.mem_cons_self)
              (ha ((World.last_iff hw₁.1.message).mpr (not_not.mp hl)) e none)
          · exact hf
      · intro r w hw
        cases r with
        | ok _ => exact hw.imp_right (fun h => ⟨h, fun _ he => by cases he⟩)
        | error x => exact hw.imp_right (fun h => ⟨h.1, fun _ _ => h.2⟩)
  · intro r w hw x hx
    subst hx
    exact ⟨by simp, hw.imp_right (fun h => h.2 x rfl)⟩
  · intro r x w hw hw' ha y hy
    refine ⟨by simp, ?_⟩
    rcases hw with hc | ⟨hd, _⟩
    · exact .inl (hc.of_story rfl)
    · refine .inr ?_
      by_contra hn
      obtain ⟨hn, hl⟩ := not_or.mp hn
      obtain ⟨rfl⟩ | ⟨hf, _⟩ := hs
      · exact ha ((World.last_iff hd.message).mpr (not_not.mp hl)) _ e none hd.committed
          List.mem_cons_self
      · exact hn hf

/-- An effect other than a commit sets no status. -/
theorem plain_finality {op : Op} (hc : op ≠ .commit) :
    Tells (finality lim) lim (Undisputed lim) t (perform op) (fun _ _ => True) w :=
  tells_op _ trivial (Duty.stable_true _)
    (fun _ _ _ _ _ _ _ _ hd => ⟨trivial, .of_db (World.does_db hd hc), trivial⟩)

/-- On the last attempt a call that has not decided sets the event to failed. -/
theorem retryOrBury_finality {base : RabbitQueue} {deadKey : String} {deadHeaders : Option Nat}
    (hp : w.pend t = []) (h : Calling t q m e w ∨ ¬ lim.attempts q ≤ m.attempt) :
    Tells (finality lim) lim (Undisputed lim) t
      (retryOrBury base (lim.attempts q) m e deadKey deadHeaders) (fun _ _ => True) w := by
  have hstable : (finality lim).Stable t
      (fun w => Calling t q m e w ∨ ¬ lim.attempts q ≤ m.attempt) :=
    fun w w' hw hr hst hd => hw.imp_left (fun h => stable_calling w w' h hr hst hd)
  refine wp_seq (fun _ w => w.pend t = [] ∧ (Calling t q m e w ∨ ¬ lim.attempts q ≤ m.attempt))
    (tells_op _ ⟨hp, h⟩ hstable.during ?_) ?_ (fun _ _ _ => trivial)
  · intro w₁ ch r w₂ hw₁ _ _ _ hd
    cases hd <;> exact ⟨trivial, .of_db rfl, hw₁⟩
  · intro _ w hw
    by_cases hlt : m.attempt < lim.attempts q
    · rw [if_pos hlt]
      cases (retryRoutingQueues base (lim.attempts q))[m.attempt]? with
      | none => trivial
      | some retry => exact plain_finality (by simp)
    · rw [if_neg hlt]
      have hle : lim.attempts q ≤ m.attempt := Nat.not_lt.mp hlt
      have hcall : Calling t q m e w := hw.2.resolve_right (fun hn => hn hle)
      exact wp_seq (fun _ _ => True) (wp_mono (conclude_finality hw.1 hcall (.inr ⟨rfl, hle⟩))
        (fun _ _ _ => trivial)) (fun _ _ _ => plain_finality (by simp)) (fun _ _ _ => trivial)

/-- The use case of a handler, its conclusion and what follows an exception. -/
theorem execute_finality {run : Service Unit} {f : Exc → Service Unit} (hp : w.pend t = [])
    (h : w.Undecided t q m) (hrun : ∀ w, w.pend t = [] → Calling t q m e w →
      Tells (finality lim) lim (Undisputed lim) t run
        (fun _ w => w.pend t = [] ∧ Calling t q m e w) w)
    (hf : ∀ x w, w.pend t = [] → Calling t q m e w ∨ ¬ lim.attempts q ≤ m.attempt →
      Tells (finality lim) lim (Undisputed lim) t (f x) (fun _ _ => True) w) :
    Tells (finality lim) lim (Undisputed lim) t
      (((perform (.enter e)).bind (fun _ => run.bind (fun _ => conclude e .confirmed))).handle f)
      (fun _ _ => True) w := by
  refine wp_catch (fun r w => ∀ x, r = .error x → w.pend t = [] ∧
      (Calling t q m e w ∨ ¬ lim.attempts q ≤ m.attempt)) ?_ (fun _ _ _ => trivial)
    (fun x w hw => hf x w (hw x rfl).1 (hw x rfl).2)
  refine wp_seq (fun r w => (∃ u, r = .ok u) ∧ w.pend t = [] ∧ Calling t q m e w)
    (tells_op _ ⟨hp, h⟩ stable_undecided.during ?_) ?_ (by rintro _ _ ⟨⟨_, he⟩, _⟩; cases he)
  · intro w₁ ch r w₂ hw₁ _ _ _ hd
    have hu := hw₁.2.does hd (by simp) (by simp)
    cases hd with
    | fault he => cases he
    | enter =>
      refine ⟨trivial, .of_db rfl, ⟨(), rfl⟩, hw₁.1, hu, ?_⟩
      exact World.mem_story.mpr ⟨List.mem_cons_self, rfl⟩
  · rintro _ w ⟨_, hp, hc⟩
    refine wp_seq _ (hrun w hp hc) (fun _ w hw => ?_) (fun x w hw _ _ => ⟨hw.1, .inl hw.2⟩)
    exact wp_mono (conclude_finality hw.1 hw.2 (.inl rfl)) (fun r w hr x hx =>
      ⟨(hr x hx).1, (hr x hx).2.imp_right (fun h => h.resolve_left (by decide))⟩)

theorem process_finality (event : PaymentEvent) (hp : w.pend t = []) (h : Calling t q m e w) :
    Tells (finality lim) lim (Undisputed lim) t (processPayment event)
      (fun _ w => w.pend t = [] ∧ Calling t q m e w) w := by
  refine tells_process stable_calling (fun op ho w₁ ch r w₂ ha hc _ _ _ hd => ?_)
    (fun w hw _ => ⟨trivial, .of_db rfl, hw.of_story rfl⟩) (fun w => .of_db rfl) event hp h
  have haside := (World.does_apart hd (.inl ho) ha).1
  exact ⟨trivial, .of_rows haside.rows, hc.of_story (haside.story t)⟩

theorem send_finality (event : PaymentEvent) (hp : w.pend t = []) (h : Calling t q m e w) :
    Tells (finality lim) lim (Undisputed lim) t (sendNotification event)
      (fun _ w => w.pend t = [] ∧ Calling t q m e w) w := by
  simp only [sendNotification, Prog.bind_eq]
  cases Payload.getStrategy (event.attr "status") event with
  | error x => exact ⟨hp, h⟩
  | ok payload =>
    rw [Prog.ofExcept_ok_bind]
    split
    · refine tells_op _ ⟨hp, h⟩ stable_calling.during (fun w₁ ch r w₂ hw₁ _ _ _ hd => ?_)
      refine ⟨trivial, .of_db (World.does_db hd (by simp)), ?_, hw₁.2.does hd (by simp) (by simp)⟩
      cases hd <;> exact hw₁.1
    · exact ⟨hp, h⟩

omit [Externals] in
theorem deliver_undecided {i : Nat} (hs : w.story t = []) :
    (w.deliver t i q m).Undecided t q m := by
  have hstory : (w.deliver t i q m).story t = [.delivered q m] := by
    rw [World.story_told rfl rfl, hs]
  refine ⟨fun o ho => ?_, fun q' m' => ?_⟩
  · rw [hstory] at ho
    cases List.mem_singleton.mp ho
    exact fun h => h
  · rw [hstory, List.mem_singleton, Obs.delivered.injEq]

theorem payment_finality {i : Nat} (hs : w.story t = []) :
    Tells (finality lim) lim (Undisputed lim) t (handlePaymentProcessing lim.process m)
      (fun _ _ => True) (w.deliver t i newPaymentsQ m) := by
  simp only [handlePaymentProcessing, Prog.bind_eq, Prog.pure_eq]
  refine wp_seq (fun _ w => w.Undecided t newPaymentsQ m)
    (tells_op _ (deliver_undecided hs) stable_undecided ?_) ?_ (fun _ _ _ => trivial)
  · intro w₁ ch r w₂ hw₁ _ _ _ hd
    exact ⟨trivial, .of_db (World.does_db hd (by simp)), hw₁.does hd (by simp) (by simp)⟩
  · intro _ w hu
    cases decodeNew m.body with
    | error e => trivial
    | ok event =>
      rw [Prog.ofExcept_ok_bind]
      refine wp_seq _ (claim_undecided hu) (fun claimed w hw => ?_) (fun _ _ _ => trivial)
      refine tells_gated (fun _ => True) (fun _ _ _ => trivial) (fun _ => ?_) (fun _ => trivial)
        (fun _ _ => plain_finality (by simp))
      refine execute_finality hw.1 hw.2 (fun w hp hc => process_finality event hp hc) ?_
      intro x w hp hc
      split
      · trivial
      · exact @retryOrBury_finality _ lim t w newPaymentsQ m event.id _ _ _ hp hc

theorem notify_finality {i : Nat} (hs : w.story t = []) :
    Tells (finality lim) lim (Undisputed lim) t (handleNotifyClient lim.notify m)
      (fun _ _ => True) (w.deliver t i notifyPaymentsQ m) := by
  simp only [handleNotifyClient, Prog.bind_eq, Prog.pure_eq]
  cases decodeNotify m.body with
  | error e => trivial
  | ok event =>
    rw [Prog.ofExcept_ok_bind]
    refine wp_seq _ (claim_undecided (deliver_undecided hs)) (fun claimed w hw => ?_)
      (fun _ _ _ => trivial)
    refine tells_gated (fun _ => True) (fun _ _ _ => trivial) (fun _ => ?_) (fun _ => trivial)
      (fun _ _ => plain_finality (by simp))
    exact execute_finality hw.1 hw.2 (fun w hp hc => send_finality event hp hc) (fun x w hp hc =>
      @retryOrBury_finality _ lim t w notifyPaymentsQ m event.id _ _ _ hp hc)

/-- In a run whose steps leave no doubt every program keeps the duty. -/
theorem finality_met : (finality lim).Met lim (Undisputed lim) where
  refl := fun _ _ => trivial
  trans := fun _ _ _ _ _ _ => trivial
  compat := fun _ _ _ _ _ _ _ _ => trivial
  idle := fun _ => Duty.stable_true _
  aside := fun _ _ _ h _ _ _ _ _ => ⟨trivial, .of_rows h.rows⟩
  deliver := fun _ _ _ _ _ _ _ _ => ⟨trivial, .of_db rfl⟩
  finish := fun _ _ _ _ _ => ⟨trivial, .of_db rfl⟩
  crash := fun _ _ _ _ => ⟨trivial, .of_db rfl⟩
  environment := fun _ _ _ _ _ _ _ => ⟨trivial, fun _ => trivial⟩
  polls := fun p t w hp _ hw _ => by
    refine wp_mono (tells_only (A := World.Apart t) hp (World.apart_nil hw)
      (fun w w' h hr _ _ x hx => h x (hr.pend ▸ hx)) (fun op ho w₁ ch r w₂ ha _ _ _ hd => ?_))
      (fun _ _ _ => trivial)
    obtain ⟨haside, ha'⟩ := World.does_apart hd ho ha
    exact ⟨trivial, .of_rows haside.rows, ha'⟩
  payment := fun _ _ _ _ _ _ _ _ _ hs => payment_finality hs
  notify := fun _ _ _ _ _ _ _ _ _ hs => notify_finality hs

end

/-- Where a call of the use case can still set the status of an event, the event has not
failed; where the call is a last attempt, it is the only one and the event is not confirmed. -/
structure World.Orderly (lim : Limits) (w : World) : Prop where
  notFailed : ∀ t e, w.Active t e → ∀ o ∈ w.db.outbox.rows, o.id = e → o.status ≠ .failed
  notConfirmed : ∀ t e, w.Active t e → w.Last lim t → ∀ o ∈ w.db.outbox.rows, o.id = e →
    o.status ≠ .confirmed
  alone : ∀ t u e, t ≠ u → w.Active t e → w.Active u e → ¬ w.Last lim t

section

variable [Externals] {lim : Limits} {c c' : Config World Op Op.Res Exc Reply}
  {m : Move Op Choice Req Env}

/-- A thread that has called the use case was handling its message before the step. -/
theorem delivered_back (hs : (service lim).Step c m c') (hf : c.shared.story c.next = []) {t : Tid}
    {e : UUID} (h : c'.shared.Active t e) {q : RabbitQueue} {msg : Message}
    (hd : .delivered q msg ∈ c'.shared.story t) : .delivered q msg ∈ c.shared.story t := by
  rcases step_story hs with hsame | ⟨u, o, hm, hu, hother⟩
  · exact hsame t ▸ hd
  by_cases hut : u = t
  swap
  · exact hother t hut ▸ hd
  subst hut
  have hent := h.1
  rw [hu] at hent hd
  rcases List.mem_cons.mp hd with rfl | hd
  · -- the thread is new, so it has not called the use case
    rw [told_delivered hs hf hm] at hent
    cases List.mem_singleton.mp hent
  · exact hd

/-- A step keeps the calls of the use case that it does not begin. -/
theorem active_back (hs : (service lim).Step c m c') (hf : c.shared.story c.next = [])
    {t : Tid} {e : UUID} (h : c'.shared.Active t e) :
    (c.shared.Active t e ∨ ∃ ch, m = .run t (.enter e) ch) ∧
      (c'.shared.Last lim t → c.shared.Last lim t) := by
  refine ⟨?_, fun ⟨q, msg, hd, hle⟩ => ⟨q, msg, delivered_back hs hf h hd, hle⟩⟩
  rcases step_story hs with hsame | ⟨u, o, hm, hu, hother⟩
  · exact .inl (by simpa only [World.Active, hsame t] using h)
  by_cases hut : u = t
  swap
  · exact .inl (by simpa only [World.Active, hother t hut] using h)
  subst hut
  obtain ⟨hent, hover⟩ := h
  rw [hu] at hent hover
  have hold : ∀ o ∈ c.shared.story u, ¬ o.Over := fun o ho => hover o (List.mem_cons_of_mem _ ho)
  rcases List.mem_cons.mp hent with rfl | hent
  · exact .inr (World.told_entered hm)
  · exact .inl ⟨hent, hold⟩

/-- What is known of a configuration where every step was undisputed. -/
abbrev Uncontested (lim : Limits) (c : Config World Op Op.Res Exc Reply) : Prop :=
  (World.contract.both (finality lim).contract).Holds (service lim) (Undisputed lim) c

theorem step_marks (hh : Uncontested lim c) (ha : Undisputed lim c.shared m)
    (hs : (service lim).Step c m c') :
    ∃ t, World.Marks lim t c.shared c'.shared ∧ c.shared.db.Grows c'.shared.db := by
  obtain ⟨hgrows, hguar⟩ := finality_met.promised hh ha hs
  cases hs with
  | run | exit | start | kill => exact ⟨_, hguar _ rfl, hgrows⟩
  | env he =>
    obtain ⟨_, _, heq⟩ := World.environment_same he
    exact ⟨0, .of_db (by rw [heq]), hgrows⟩

/-- An undisputed step keeps the order of the calls. -/
theorem orderly_step (hh : Uncontested lim c) (ho : c.shared.Orderly lim)
    (ha : Undisputed lim c.shared m) (hs : (service lim).Step c m c') : c'.shared.Orderly lim := by
  obtain ⟨u, hmarks, _⟩ := step_marks hh ha hs
  have hfresh := (hh.fresh c.next (Nat.le_refl _)).2
  have hback := fun {t : Tid} {e : UUID} => @active_back _ lim c c' m hs hfresh t e
  refine ⟨fun t e hact o' ho' hid hst => ?_, fun t e hact hlast o' ho' hid hst => ?_,
    fun t v e hne hact hact' hlast => ?_⟩
  · obtain ⟨hactive, _⟩ := hback hact
    rcases hmarks o' ho' with hp | ⟨o, hm, he, hsame | ⟨hu, hnot, hc | ⟨_, hl⟩⟩⟩
    · exact absurd (hp.symm.trans hst) (by decide)
    · rcases hactive with hold | ⟨ch, rfl⟩
      · exact ho.notFailed t e hold o hm (he.trans hid) (hsame.trans hst)
      · exact (ha.1 o hm (he.trans hid)).1 (hsame.trans hst)
    · exact absurd (hc.symm.trans hst) (by decide)
    · subst hid
      have htu : u ≠ t := fun h => hnot (h ▸ hact)
      rcases hactive with hold | ⟨ch, rfl⟩
      · exact ho.alone u t _ htu hu hold hl
      · exact (ha.2 u htu hu).1 hl
  · obtain ⟨hactive, hlastb⟩ := hback hact
    rcases hmarks o' ho' with hp | ⟨o, hm, he, hsame | ⟨hu, hnot, _⟩⟩
    · exact absurd (hp.symm.trans hst) (by decide)
    · rcases hactive with hold | ⟨ch, rfl⟩
      · exact ho.notConfirmed t e hold (hlastb hlast) o hm (he.trans hid) (hsame.trans hst)
      · exact (ha.1 o hm (he.trans hid)).2 (hlastb hlast) (hsame.trans hst)
    · subst hid
      have htu : t ≠ u := fun h => hnot (h ▸ hact)
      rcases hactive with hold | ⟨ch, rfl⟩
      · exact ho.alone t u _ htu hold hu (hlastb hlast)
      · exact (ha.2 u htu.symm hu).2 (hlastb hlast)
  · obtain ⟨hactive, hlastb⟩ := hback hact
    obtain ⟨hactive', _⟩ := hback hact'
    rcases hactive with hold | ⟨ch, rfl⟩
    · rcases hactive' with hold' | ⟨ch, rfl⟩
      · exact ho.alone t v e hne hold hold' (hlastb hlast)
      · exact (ha.2 t hne hold).1 (hlastb hlast)
    · rcases hactive' with hold' | ⟨ch', hm⟩
      · exact (ha.2 v hne.symm hold').2 (hlastb hlast)
      · cases hm
        exact hne rfl

theorem orderly_reach (h : (service lim).Reach (Undisputed lim) (Config.initial {}) c) :
    Uncontested lim c ∧ c.shared.Orderly lim := by
  have hinit : Uncontested lim (Config.initial {}) :=
    Contract.holds_initial ⟨World.inv_empty, trivial⟩ (fun _ => ⟨rfl, rfl⟩)
  have hholds : ∀ {c}, (service lim).Reach (Undisputed lim) (Config.initial {}) c → Uncontested lim c :=
    fun h => finality_met.valid.holds_reach hinit h
  refine ⟨hholds h, ?_⟩
  have hnone : ∀ t e, ¬ ({} : World).Active t e := fun _ _ ha => List.not_mem_nil ha.1
  induction h with
  | init => exact ⟨fun t e ha => absurd ha (hnone t e), fun t e ha => absurd ha (hnone t e),
      fun t _ e _ ha => absurd ha (hnone t e)⟩
  | step hr ha hs ih => exact orderly_step (hholds hr) ih ha hs

/-- Where no step leaves a doubt about the end state of an event, an event that is confirmed or
failed stays what it is. -/
theorem end_state_final (h : (service lim).Reach (Undisputed lim) (Config.initial {}) c)
    (h' : (service lim).Reach (Undisputed lim) c c') {o o' : OutboxRow}
    (ho : o ∈ c.shared.db.outbox.rows) (ho' : o' ∈ c'.shared.db.outbox.rows) (hid : o'.id = o.id)
    (hs : o.status = .confirmed ∨ o.status = .failed) : o'.status = o.status := by
  suffices ∃ x ∈ c'.shared.db.outbox.rows, x.id = o.id ∧ x.status = o.status by
    obtain ⟨x, hx, hi, hst⟩ := this
    rw [Table.eq_of_key ho' hx (hid.trans hi.symm), hst]
  clear ho' hid
  induction h' with
  | init => exact ⟨o, ho, rfl, rfl⟩
  | @step d d' m hd ha hs' ih =>
    obtain ⟨x, hx, hi, hst⟩ := ih
    obtain ⟨hh, horder⟩ := orderly_reach (h.trans hd)
    obtain ⟨t, hmarks, hgrows⟩ := step_marks hh ha hs'
    obtain ⟨y, hy, he⟩ := hgrows.event x hx
    have hyid : y.id = x.id := he.same.1
    refine ⟨y, hy, hyid.trans hi, ?_⟩
    have hpending : x.status ≠ .pending := by
      rw [hst]
      rcases hs with hs | hs <;> rw [hs] <;> decide
    rcases hmarks y hy with hp | ⟨z, hz, hzid, hsame | ⟨hact, _, hset⟩⟩
    · exact absurd hp (he.2 hpending)
    · rw [← hsame, Table.eq_of_key hz hx (hzid.trans hyid), hst]
    · have hne := horder.notFailed t _ hact x hx hyid.symm
      rw [hst] at hne
      have hc : o.status = .confirmed := hs.resolve_right hne
      rcases hset with hset | ⟨_, hlast⟩
      · rw [hset, hc]
      · exact absurd (hst.trans hc) (horder.notConfirmed t _ hact hlast x hx hyid.symm)

end

/-- The steps of a run in which each event is handled once and nothing fails. -/
def handledOnce (w : World) : Move Op Choice Req Env → Bool
  | .run _ (.enter e) _ =>
    w.db.outbox.rows.all (fun o => o.id ≠ e || o.status = .pending) &&
      w.trace.all (fun d => match d.2 with | .entered e' => e' ≠ e | _ => true)
  | m => works m

theorem undisputed_of_handledOnce {lim : Limits} {w : World} {m : Move Op Choice Req Env}
    (h : handledOnce w m = true) : Undisputed lim w m := by
  unfold Undisputed
  split
  · rename_i t e ch
    obtain ⟨hrows, htrace⟩ := Bool.and_eq_true_iff.mp h
    refine ⟨fun o ho hid => ?_, fun u _ hact => ?_⟩
    · have hp : o.status = .pending := by simpa [hid] using List.all_eq_true.mp hrows o ho
      rw [hp]
      exact ⟨by decide, fun _ => by decide⟩
    · have := List.all_eq_true.mp htrace _ (World.mem_story.mp hact.1).1
      simp at this
  · cases h
  · cases h
  · trivial

/-- A configuration after a schedule of such steps. -/
def afterOnce (as : Schedule) (c : Config World Op Op.Res Exc Reply) :
    Option (Config World Op Op.Res Exc Reply) :=
  (sampleService {}).play handledOnce as c

theorem reach_once {as : Schedule} {c c' : Config World Op Op.Res Exc Reply}
    (h : afterOnce as c = some c') : (sampleService {}).Reach (Undisputed {}) c c' :=
  Sys.reach_of_play (fun _ _ h => undisputed_of_handledOnce h) h

set_option maxRecDepth 20000 in
theorem settledOnce_notified : (afterOnce settledRun (Config.initial {})).any (fun c =>
    (afterOnce (notifyRun 2 0) c).any (fun c' => c.shared.db.outbox.rows.any (fun o =>
      o.status = .confirmed ∧ c'.shared.db.outbox.rows.any (fun o' => o'.id = o.id)))) = true := by
  decide +kernel

theorem end_state_final_notified : ∃ c c' : Config World Op Op.Res Exc Reply,
    ∃ o ∈ c.shared.db.outbox.rows, ∃ o' ∈ c'.shared.db.outbox.rows, o'.id = o.id ∧
      o.status = .confirmed ∧ o'.status = o.status := by
  obtain ⟨c, hc, hnext⟩ := (Option.any_eq_true _ _).mp settledOnce_notified
  obtain ⟨c', hc', hrows⟩ := (Option.any_eq_true _ _).mp hnext
  obtain ⟨o, ho, hrow⟩ := List.any_eq_true.mp hrows
  obtain ⟨hs, hrow⟩ := of_decide_eq_true hrow
  obtain ⟨o', ho', hid⟩ := List.any_eq_true.mp hrow
  have hid := of_decide_eq_true hid
  exact ⟨c, c', o, ho, o', ho', hid, hs, @end_state_final sample {} _ _ (reach_once hc)
    (reach_once hc') o o' ho ho' hid (.inl hs)⟩

/-- A delivery to `handle_payment_processing` that loses the database and is retried. -/
def failRun (t : Tid) (i : Nat) : Schedule :=
  [.start (.deliver i), .run t .ok] ++ claimRun t ++ [.run t .ok, .run t (.fault .operational)] ++
    oks t 5 ++ [.exit t]

/-- The last attempt for a created event is under way, after a poll has published the event
again and the message of the poll has confirmed it. -/
def disputedRun : Schedule :=
  createRun 0 (uid 1) (uid 10) (uid 11) ++ failRun 1 0 ++ [.env (.expire 0)] ++ failRun 2 0 ++
    [.env (.expire 0)] ++ failRun 3 0 ++ pollRun 4 [uid 11] ++
    [.env (.expire 0), .start (.deliver 1), .run 5 .ok] ++ claimRun 5 ++ [.run 5 .ok] ++
    processRun 6 0 (uid 12)

/-- The last attempt loses the database, too. -/
def buryRun : Schedule := .run 5 (.fault .operational) :: oks 5 9

set_option maxRecDepth 20000 in
theorem disputedRun_fails : (after {} disputedRun).any (fun c => (follow {} buryRun c).any
    (fun c' => c.shared.db.outbox.rows.any (fun o => o.status = .confirmed ∧
      c'.shared.db.outbox.rows.any (fun o' => o'.id = o.id ∧ o'.status = .failed)))) = true := by
  decide +kernel

theorem confirmed_then_failed : ∃ c c', @Reachable sample {} c ∧
    (sampleService {}).Reach (fun _ _ => True) c c' ∧ ∃ o ∈ c.shared.db.outbox.rows,
      ∃ o' ∈ c'.shared.db.outbox.rows, o'.id = o.id ∧ o.status = .confirmed ∧
        o'.status = .failed := by
  obtain ⟨c, hc, hnext⟩ := (Option.any_eq_true _ _).mp disputedRun_fails
  obtain ⟨c', hc', hrows⟩ := (Option.any_eq_true _ _).mp hnext
  obtain ⟨o, ho, hrow⟩ := List.any_eq_true.mp hrows
  obtain ⟨hs, hrow⟩ := of_decide_eq_true hrow
  obtain ⟨o', ho', hrow'⟩ := List.any_eq_true.mp hrow
  obtain ⟨hid, hs'⟩ := of_decide_eq_true hrow'
  exact ⟨c, c', reachable_of_after hc, reach_of_follow hc', o, ho, o', ho', hid, hs, hs'⟩

end Payments
