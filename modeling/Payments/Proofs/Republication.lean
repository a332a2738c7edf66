import Payments.Proofs.Agreement
import Payments.Proofs.Delivery

namespace Payments

open Lib

/-- The event that the handler of a queue reads from a message. -/
def eventOf (q : RabbitQueue) (m : Message) : Except Exc PaymentEvent :=
  if q = newPaymentsQ then decodeNew m.body else decodeNotify m.body

/-- The steps without failures under which a claim that finds a pending row locked finds it
locked by a run that is executing the event. -/
def Unblocked (w : World) (mv : Move Op Choice Req Env) : Prop :=
  works mv = true ∧
    match mv with
    | .run t (.selectPendingId e) _ =>
      (∃ o ∈ w.db.outbox.rows, o.id = e ∧ o.status = .pending) →
        ∀ u, u ≠ t → w.lock (.outbox e) = some u → .entered e ∈ w.story u
    | _ => True

/-- A thread runs the use case for the event. -/
def Executing (c : Config World Op Op.Res Exc Reply) (t : Tid) (e : UUID) : Prop :=
  c.threads t ≠ none ∧ .entered e ∈ c.shared.story t

namespace World

/-- The thread has called the use case for the event and locks its row. -/
def Seizes (w : World) (t : Tid) (e : UUID) : Prop :=
  .entered e ∈ w.story t ∧ w.lock (.outbox e) = some t

/-- The event is handled, or another thread is about to set its status. -/
def Covered (w : World) (t : Tid) (e : UUID) : Prop :=
  w.db.Handled e ∨ ∃ u, u ≠ t ∧ w.Seizes u e

/-- What a step promises: the lock of an executing run is kept until the event is handled, no
lock is taken for another thread, and what is acknowledged was executed or is covered. -/
structure Careful (t : Tid) (w w' : World) : Prop where
  seized : ∀ e, w.Seizes t e → w'.Seizes t e ∨ w'.db.Handled e
  lock : ∀ u, t ≠ u → ∀ r, w'.lock r = some u → w.lock r = some u
  acked : w'.story t = .acked :: w.story t → ∀ q m event, .delivered q m ∈ w.story t →
    eventOf q m = .ok event → .entered event.id ∈ w.story t ∨ w.Covered t event.id

/-- What a thread may assume of the others. -/
structure Trusts (t : Tid) (w w' : World) : Prop where
  seized : ∀ u e, u ≠ t → w.Seizes u e → w'.Seizes u e ∨ w'.db.Handled e
  handled : ∀ e, w.db.Handled e → w'.db.Handled e
  lock : ∀ r, w'.lock r = some t → w.lock r = some t

theorem Trusts.covered {t : Tid} {w w' : World} (h : Trusts t w w') {e : UUID}
    (hc : w.Covered t e) : w'.Covered t e := by
  rcases hc with hc | ⟨u, hu, hc⟩
  · exact .inl (h.handled e hc)
  · rcases h.seized u e hu hc with hs | hh
    · exact .inr ⟨u, hu, hs⟩
    · exact .inl hh

theorem Trusts.refl (t : Tid) (w : World) : Trusts t w w :=
  ⟨fun _ _ _ h => .inl h, fun _ h => h, fun _ h => h⟩

theorem Trusts.trans {t : Tid} {w w' w'' : World} (h : Trusts t w w') (h' : Trusts t w' w'') :
    Trusts t w w'' where
  seized := fun u e hu hs => by
    rcases h.seized u e hu hs with hs | hh
    · exact h'.seized u e hu hs
    · exact .inr (h'.handled e hh)
  handled := fun e hh => h'.handled e (h.handled e hh)
  lock := fun r hl => h.lock r (h'.lock r hl)

/-- What is promised to all is what each may assume. -/
theorem Careful.trusted {t u : Tid} {w w' : World} (hu : t ≠ u) (hg : Guar t w w')
    (hs : ∀ v, t ≠ v → w'.story v = w.story v) (h : Careful t w w') : Trusts u w w' where
  seized := fun v e _ hv => by
    by_cases hvt : t = v
    · subst hvt
      exact h.seized e hv
    · exact .inl ⟨hs v hvt ▸ hv.1, (hg.others v hvt).lock _ hv.2⟩
  handled := fun _ hh => hh.grows (hg.others u hu).grows
  lock := fun r hl => h.lock u hu r hl

variable {lim : Limits} {w w' : World} {t : Tid} {op : Op} {ch : Choice} {r : Except Exc op.Res}

/-- An effect of a thread that does not lose a lock of an executing run. -/
theorem Careful.of_does (h : Does lim t w op ch r w') (ha : op ≠ .ack)
    (hs : ∀ e, w.Seizes t e → w'.lock (.outbox e) = some t ∨ w'.db.Handled e) :
    Careful t w w' where
  seized := fun e he => (hs e he).imp_left (fun hl => ⟨does_tells h he.1, hl⟩)
  lock := fun u hu r hl => (does_lock h hl).resolve_right (Ne.symm hu)
  acked := fun hst => by
    rcases does_trace h with ht | ⟨o, ho, ht⟩
    · exact absurd ((story_same ht).symm.trans hst) (by simp)
    · cases hside : o.aside with
      | true => exact absurd ((story_aside ht hside).symm.trans hst) (by simp)
      | false =>
        cases (List.cons.inj ((story_told ht hside).symm.trans hst)).1
        cases op <;> first | exact ho.elim | exact absurd rfl ha

/-- A thread that has not called the use case has no such lock. -/
theorem Careful.of_idle (h : Does lim t w op ch r w') (ha : op ≠ .ack)
    (hs : ∀ e, ¬ w.Seizes t e) : Careful t w w' :=
  .of_does h ha (fun e he => absurd he (hs e))

/-- Changes keep the events of the rows. -/
theorem kept_applyAll {db : Db} {ws : List Payments.Write} {o : OutboxRow}
    (ho : o ∈ db.outbox.rows) : ∃ o' ∈ (db.applyAll ws).outbox.rows,
      o'.id = o.id ∧ o'.queue = o.queue ∧ o'.body = o.body := by
  induction ws generalizing db o with
  | nil => exact ⟨o, ho, rfl, rfl, rfl⟩
  | cons x ws ih =>
    have hx : ∃ o' ∈ (db.apply x).outbox.rows,
        o'.id = o.id ∧ o'.queue = o.queue ∧ o'.body = o.body := by
      cases x with
      | insertPayment row => exact ⟨o, ho, rfl, rfl, rfl⟩
      | updatePayment id status processedAt => exact ⟨o, ho, rfl, rfl, rfl⟩
      | insertOutbox row => exact ⟨o, Table.mem_insert.mpr (.inl ho), rfl, rfl, rfl⟩
      | updateOutbox id status handledAt =>
        by_cases he : o.id = id
        · exact ⟨_, Db.mem_updateOutbox.mpr (.inr ⟨o, ho, he, rfl⟩), rfl, rfl, rfl⟩
        · exact ⟨o, Db.mem_updateOutbox.mpr (.inl ⟨ho, he⟩), rfl, rfl, rfl⟩
    obtain ⟨o', ho', hid, hq, hb⟩ := hx
    obtain ⟨o'', ho'', hid', hq', hb'⟩ := @ih (db.apply x) o' ho'
    exact ⟨o'', ho'', hid'.trans hid, hq'.trans hq, hb'.trans hb⟩

/-- The rows of the events stay, whatever a thread does. -/
theorem does_kept (h : Does lim t w op ch r w') {o : OutboxRow} (ho : o ∈ w.db.outbox.rows) :
    ∃ o' ∈ w'.db.outbox.rows, o'.id = o.id ∧ o'.queue = o.queue ∧ o'.body = o.body := by
  have hview := @kept_applyAll w.db (w.pend t) o ho
  have hsame : ∃ o' ∈ w.db.outbox.rows, o'.id = o.id ∧ o'.queue = o.queue ∧ o'.body = o.body :=
    ⟨o, ho, rfl, rfl, rfl⟩
  cases h with
  | fault => cases op <;> exact hsame
  | commit | lostCommit => exact hview
  | _ => exact hsame

/-- A message stays backed, whatever a thread does. -/
theorem backed_does (h : Does lim t w op ch r w') {key : String} {m : Message} {e : UUID}
    (hb : Backed key m e w.db) : Backed key m e w'.db := by
  obtain ⟨o, ho, hbody, hq, hid⟩ := hb
  obtain ⟨o', ho', hid', hq', hb'⟩ := does_kept h ho
  exact ⟨o', ho', hbody.trans hb'.symm, hq'.trans hq, hid'.trans hid⟩

/-- A session that is closed holds no lock. -/
theorem drop_unlocks {x : Resource} : (w.drop t).lock x ≠ some t := by
  simp only [drop_lock]
  split <;> simp_all

/-- What stays apart locks no row of a committed event. -/
theorem apart_lock (h : Does lim t w op ch r w') (ho : op.Apart) {o : OutboxRow}
    (hm : o ∈ w.db.outbox.rows) (hl : w.lock (.outbox o.id) ≠ some t) :
    w'.lock (.outbox o.id) ≠ some t := by
  have hdrop : (w.drop t).lock (.outbox o.id) ≠ some t := drop_unlocks
  have hhold : ∀ rs, .outbox o.id ∉ rs → (w.hold t rs).lock (.outbox o.id) ≠ some t := by
    intro rs hn
    simpa only [hold_lock, if_neg hn] using hl
  cases h with
  | fault =>
    cases op <;> first
      | exact hl
      | exact hdrop
  | lockPayment | lockKey => exact hhold _ (fun hx => by cases List.mem_singleton.mp hx)
  | insertPayment | updatePayment =>
    rw [write_lock]
    refine hhold _ (fun hx => ?_)
    obtain ⟨x, hx, hr⟩ := List.mem_flatMap.mp hx
    cases List.mem_singleton.mp hx
    simp [Write.resources] at hr
  | insertOutbox =>
    rw [write_lock]
    refine hhold _ (fun hx => ?_)
    obtain ⟨x, hx, hr⟩ := List.mem_flatMap.mp hx
    obtain ⟨o', ho', rfl⟩ := List.mem_map.mp hx
    have hid : o.id = o'.id := Resource.outbox.inj (List.mem_singleton.mp hr)
    obtain ⟨o'', ho'', hid'', _⟩ := @kept_applyAll w.db (w.pend t) o hm
    have hfree := (List.mem_filter.mp ho').2
    rw [Option.isNone_iff_eq_none, Table.find_none] at hfree
    exact hfree o'' ho'' (hid''.trans hid)
  | commit | lostCommit | rollback | close => exact hdrop
  | lockEvent | pendings | claim | updateOutbox => exact ho.elim
  | _ => exact hl

/-- A step of the thread itself leaves an event covered that others cover. -/
theorem covered_does (h : Does lim t w op ch r w') (ho : op ≠ .commit) {e : UUID}
    (hc : w.Covered t e) : w'.Covered t e := by
  rcases hc with hc | ⟨u, hu, hs, hl⟩
  · exact .inl (by rwa [does_db h ho])
  · exact .inr ⟨u, hu, does_story h (Ne.symm hu) ▸ hs, does_lock_kept h hu hl⟩

end World

/-- The duty not to drop a delivery whose event nobody handles. -/
def republication : Duty where
  rely := World.Trusts
  guar := World.Careful
  idle := fun t w => ∀ e, ¬ w.Seizes t e

/-- The thread handles the message of an event, and calls the use case for no other. -/
structure Handling (t : Tid) (q : RabbitQueue) (m : Message) (e : UUID) (w : World) : Prop where
  message : ∀ q' m', .delivered q' m' ∈ w.story t → q' = q ∧ m' = m
  entered : ∀ e', .entered e' ∈ w.story t → e' = e
  backed : Backed q.routingKey m e w.db

/-- The use case is called and the lock on the row of the event is not held. -/
structure Serving (t : Tid) (q : RabbitQueue) (m : Message) (e : UUID) (w : World) : Prop
    extends Handling t q m e w where
  called : .entered e ∈ w.story t
  unlocked : w.lock (.outbox e) ≠ some t

section

variable [Externals] {lim : Limits} {t : Tid} {w : World} {q : RabbitQueue} {m : Message} {e : UUID}

omit [Externals] in
theorem World.Careful.refl (t : Tid) (w : World) : World.Careful t w w where
  seized := fun _ h => .inl h
  lock := fun _ _ _ h => h
  acked := fun h => by
    have hs : w.story t = .acked :: w.story t := h
    simp at hs

omit [Externals] in
theorem World.Careful.drop (h : ∀ e, ¬ w.Seizes t e) : World.Careful t w (w.drop t) where
  seized := fun e he => absurd he (h e)
  lock := fun u _ r hl => by
    simp only [World.drop_lock] at hl
    split at hl
    · cases hl
    · exact hl
  acked := fun h => by
    have hs : w.story t = .acked :: w.story t := h
    simp at hs

omit [Externals] in
theorem Serving.unseized (h : Serving t q m e w) (e' : UUID) : ¬ w.Seizes t e' := by
  rintro ⟨hs, hl⟩
  rw [h.entered e' hs] at hl
  exact h.unlocked hl

omit [Externals] in
theorem Handling.stable : republication.Stable t (Handling t q m e) :=
  fun w w' h hr hs _ => ⟨by rw [hs]; exact h.message, by rw [hs]; exact h.entered,
    h.backed.grows hr.grows⟩

omit [Externals] in
theorem Serving.stable : republication.Stable t (Serving t q m e) :=
  fun w w' h hr hs hd => ⟨Handling.stable w w' h.toHandling hr hs hd, by rw [hs]; exact h.called,
    fun hl => h.unlocked (hd.lock _ hl)⟩

omit [Externals] in
/-- Only the call of the use case is told as one. -/
theorem Handling.does {op : Op} {ch : Choice} {r : Except Exc op.Res} {w' : World}
    (hd : World.Does lim t w op ch r w') (ho : ∀ e', op ≠ .enter e') (h : Handling t q m e w) :
    Handling t q m e w' := by
  have hback : ∀ o, o ∈ w'.story t → o ∈ w.story t ∨ World.Shows op o := by
    intro o hm
    rcases World.does_trace hd with ht | ⟨x, hx, ht⟩
    · exact .inl (World.story_same ht ▸ hm)
    · obtain ⟨hm, ha⟩ := World.mem_story.mp hm
      rw [ht] at hm
      rcases List.mem_cons.mp hm with he | hm
      · exact .inr ((Prod.mk.inj he).2 ▸ hx)
      · exact .inl (World.mem_story.mpr ⟨hm, ha⟩)
  refine ⟨fun q' m' hm => ?_, fun e' hm => ?_, World.backed_does hd h.backed⟩
  · rcases hback _ hm with hm | hx
    · exact h.message q' m' hm
    · cases op <;> exact hx.elim
  · rcases hback _ hm with hm | hx
    · exact h.entered e' hm
    · cases op <;> first | exact hx.elim | exact absurd rfl (ho _)

/-- What holds before the gate: the use case is not called, and where the claim did not get
the event it is covered. -/
structure Gating (t : Tid) (q : RabbitQueue) (m : Message) (e : UUID) (claimed : Bool) (w : World) :
    Prop extends Handling t q m e w where
  uncalled : ∀ e', .entered e' ∉ w.story t
  covered : claimed = false → w.Covered t e

omit [Externals] in
theorem Gating.unseized {b : Bool} (h : Gating t q m e b w) (e' : UUID) : ¬ w.Seizes t e' :=
  fun hs => h.uncalled e' hs.1

omit [Externals] in
theorem Gating.stable {b : Bool} : republication.Stable t (Gating t q m e b) :=
  fun w w' h hr hs hd => ⟨Handling.stable w w' h.toHandling hr hs hd, by rw [hs]; exact h.uncalled,
    fun hb => hd.covered (h.covered hb)⟩

omit [Externals] in
/-- The effects of a claim keep what holds before the gate. -/
theorem Gating.does {b : Bool} {op : Op} {ch : Choice} {r : Except Exc op.Res} {w' : World}
    (hd : World.Does lim t w op ch r w') (ho : op ≠ .commit ∧ op ≠ .ack)
    (hent : ∀ e', op ≠ .enter e') (h : Gating t q m e b w) :
    World.Careful t w w' ∧ Gating t q m e b w' := by
  refine ⟨.of_idle hd ho.2 h.unseized, h.toHandling.does hd hent, ?_,
    fun hb => World.covered_does hd ho.1 (h.covered hb)⟩
  intro e' hm
  obtain ⟨hm, ha⟩ := World.mem_story.mp hm
  rcases World.does_trace hd with ht | ⟨x, hx, ht⟩
  · rw [ht] at hm
    exact h.uncalled e' (World.mem_story.mpr ⟨hm, ha⟩)
  · rw [ht] at hm
    rcases List.mem_cons.mp hm with he | hm
    · cases (Prod.mk.inj he).2
      cases op <;> first | exact hx.elim | exact hent _ rfl
    · exact h.uncalled e' (World.mem_story.mpr ⟨hm, ha⟩)

/-- A claim that does not get its event finds it handled or in the hands of an executing run. -/
theorem claim_republication (hp : w.pend t = []) (h : Gating t q m e true w) :
    Tells republication lim Unblocked t (claim e) (fun r w => ∃ b, r = .ok b ∧
      w.pend t = [] ∧ w.lock (.outbox e) ≠ some t ∧ Gating t q m e b w) w := by
  have hdrop : ∀ {b : Bool} {w : World}, Gating t q m e b w →
      World.Careful t w (w.drop t) ∧ Gating t q m e b (w.drop t) := fun h =>
    Gating.does (@World.Does.close lim t _) (by simp) (by simp) h
  refine tells_within (fun r w => ∃ b, r = .ok b ∧ Gating t q m e b w)
    (fun r w w' hw hr hst hd => hw.imp (fun b hb => ⟨hb.1, hb.2.stable w w' hr hst hd⟩)) ?_
    (fun r w hw _ => ⟨trivial, ?_⟩) (World.Careful.refl t)
    (fun r w hw => hw.imp (fun b hb => ⟨hb.1, by simp, World.drop_unlocks, hb.2⟩))
    (fun r x w _ _ ha => by cases ha.1)
  swap
  · obtain ⟨b, hb, hw⟩ := hw
    exact ⟨(hdrop hw).1, b, hb, (hdrop hw).2⟩
  refine wp_seq (fun r w => (∃ a, r = .ok a) ∧ w.pend t = [] ∧ Gating t q m e true w)
    (tells_op _ ⟨hp, h⟩ Gating.stable.during (fun w₁ ch r w₂ hw₁ _ _ ha hd => ?_)) ?_
    (by rintro _ _ ⟨⟨_, he⟩, _⟩; cases he)
  · obtain ⟨h₁, h₂⟩ := hw₁.2.does hd (by simp) (by simp)
    cases hd with
    | fault => cases ha.1
    | now => exact ⟨trivial, h₁, ⟨_, rfl⟩, hw₁.1, h₂⟩
  · rintro now w ⟨_, hw⟩
    refine wp_seq (fun r w => ∃ x, r = .ok x ∧ Gating t q m e x.isSome w)
      (tells_op _ hw Gating.stable.during (fun w₁ ch r w₂ hw₁ _ _ ha hd => ?_)) ?_
      (by rintro _ _ ⟨_, he, _⟩; cases he)
    · obtain ⟨h₁, h₂⟩ := hw₁.2.does hd (by simp) (by simp)
      cases hd with
      | fault => cases ha.1
      | claim => exact ⟨trivial, h₁, some e, rfl, h₂⟩
      | skipClaim hn =>
        refine ⟨trivial, h₁, none, rfl, { h₂ with covered := fun _ => ?_ }⟩
        obtain ⟨o, ho, _, _, hid⟩ := h₂.backed
        by_cases hpend : o.status = .pending
        swap
        · exact .inl ⟨o, ho, hid, hpend⟩
        -- the row is pending, so someone else has it locked, and that run executes the event
        rw [World.view_nil hw₁.1] at hn
        have hlocked := hn o ho hid hpend
        cases hl : w₁.lock (.outbox e) with
        | none => exact absurd (.inl hl) hlocked
        | some u =>
          have hu : u ≠ t := by
            rintro rfl
            exact hlocked (.inr hl)
          exact .inr ⟨u, hu, ha.2 ⟨o, ho, hid, hpend⟩ u hu hl, hl⟩
    · rintro lockedId w ⟨_, he, hw⟩
      cases he
      cases lockedId with
      | none => exact ⟨false, rfl, hw⟩
      | some _ =>
        have hstep : ∀ {op : Op} {w : World}, (op = .flush ∨ ∃ id s a, op = .updateOutbox id s a) →
            Gating t q m e true w → Tells republication lim Unblocked t (perform op)
              (fun r w => (∃ a, r = .ok a) ∧ Gating t q m e true w) w := by
          intro op w ho hw
          refine tells_op _ hw Gating.stable (fun w₁ ch r w₂ hw₁ _ _ ha hd => ?_)
          rcases ho with rfl | ⟨_, _, _, rfl⟩
          · obtain ⟨h₁, h₂⟩ := hw₁.does hd (by simp) (by simp)
            refine ⟨trivial, h₁, ?_, h₂⟩
            cases hd <;> first | exact ⟨_, rfl⟩ | cases ha.1
          · obtain ⟨h₁, h₂⟩ := hw₁.does hd (by simp) (by simp)
            refine ⟨trivial, h₁, ?_, h₂⟩
            cases hd <;> first | exact ⟨_, rfl⟩ | cases ha.1
        refine wp_seq _ (hstep (.inr ⟨_, _, _, rfl⟩) hw) ?_ (by rintro _ _ ⟨⟨_, he⟩, _⟩; cases he)
        rintro _ w ⟨_, hw⟩
        refine wp_seq _ (hstep (.inl rfl) hw) ?_ (by rintro _ _ ⟨⟨_, he⟩, _⟩; cases he)
        exact fun _ w hw => ⟨true, rfl, hw.2⟩

omit [Externals] in
/-- An effect that takes no lock on the row of the event, while the use case is called. -/
theorem Serving.does {op : Op} {ch : Choice} {r : Except Exc op.Res} {w' : World}
    (hd : World.Does lim t w op ch r w') (ho : op ≠ .ack) (hent : ∀ e', op ≠ .enter e')
    (hl : w'.lock (.outbox e) ≠ some t) (h : Serving t q m e w) :
    World.Careful t w w' ∧ Serving t q m e w' :=
  ⟨.of_idle hd ho h.unseized, h.toHandling.does hd hent, World.does_tells hd h.called, hl⟩

omit [Externals] in
theorem Serving.drop (h : Serving t q m e w) :
    World.Careful t w (w.drop t) ∧ Serving t q m e (w.drop t) := by
  exact Serving.does (@World.Does.close {} t w) (by simp) (by simp) World.drop_unlocks h

omit [Externals] in
/-- The effects that stay apart do not touch the row of the event. -/
theorem Serving.apart {op : Op} {ch : Choice} {r : Except Exc op.Res} {w' : World}
    (hd : World.Does lim t w op ch r w') (ho : op.Apart) (h : Serving t q m e w) :
    World.Careful t w w' ∧ Serving t q m e w' := by
  obtain ⟨o, hm, _, _, hid⟩ := h.backed
  refine h.does hd ?_ ?_ ?_
  · rintro rfl
    exact ho
  · rintro e' rfl
    exact ho
  · subst hid
    exact World.apart_lock hd ho hm h.unlocked

/-- The use case is called and the row of the event is locked, to set its status. -/
structure Concluding (t : Tid) (q : RabbitQueue) (m : Message) (e : UUID) (w : World) : Prop
    extends Handling t q m e w where
  called : .entered e ∈ w.story t
  locked : w.lock (.outbox e) = some t

omit [Externals] in
theorem Concluding.stable : republication.Stable t (Concluding t q m e) :=
  fun w w' h hr hs hd => ⟨Handling.stable w w' h.toHandling hr hs hd, by rw [hs]; exact h.called,
    hr.lock _ h.locked⟩

omit [Externals] in
theorem Concluding.does {op : Op} {ch : Choice} {r : Except Exc op.Res} {w' : World}
    (hd : World.Does lim t w op ch r w') (ho : op ≠ .ack) (hent : ∀ e', op ≠ .enter e')
    (hl : w'.lock (.outbox e) = some t) (h : Concluding t q m e w) :
    World.Careful t w w' ∧ Concluding t q m e w' :=
  ⟨.of_does hd ho (fun e' he => .inl (h.entered e' he.1 ▸ hl)), h.toHandling.does hd hent,
    World.does_tells hd h.called, hl⟩

/-- The status is in the open transaction, or the row is not locked. -/
def Marked (t : Tid) (q : RabbitQueue) (m : Message) (e : UUID) (status : TaskStatus) :
    Except Exc Unit → World → Prop
  | .ok _, w => w.pend t = [Write.updateOutbox e status none] ∧ Concluding t q m e w
  | .error _, w => Serving t q m e w

/-- What the query for the row leaves: its lock, or nothing. -/
def Seized (t : Tid) (q : RabbitQueue) (m : Message) (e : UUID) :
    Except Exc (Option UUID) → World → Prop
  | .ok (some _), w => w.pend t = [] ∧ Concluding t q m e w
  | _, w => Serving t q m e w

/-- The status is set while the row is locked, and the lock is given back when it is. -/
theorem conclude_republication {status : TaskStatus} (hst : status ≠ .pending)
    (hp : w.pend t = []) (h : Serving t q m e w) :
    Tells republication lim Unblocked t (conclude e status)
      (fun _ w => w.pend t = [] ∧ Serving t q m e w) w := by
  refine tells_within (fun _ => Serving t q m e) (fun _ => Serving.stable) ?_
    (fun _ w hw _ => ⟨trivial, hw.drop⟩) (World.Careful.refl t) (fun _ w hw => ⟨by simp, hw⟩)
    (fun _ _ w _ _ ha => by cases ha.1)
  refine wp_seq (Marked t q m e status) ?_ (fun _ w hw => ?_) (fun _ _ hw => hw)
  · refine wp_seq (Seized t q m e)
      (tells_op _ ⟨hp, h⟩ Serving.stable.during (fun w₁ ch r w₂ hw₁ _ _ ha hd => ?_))
      (fun result w hw => ?_) (fun _ _ hw => hw)
    · refine ⟨trivial, .of_idle hd (by simp) hw₁.2.unseized, ?_⟩
      have hhandling := hw₁.2.toHandling.does hd (by simp)
      cases hd with
      | fault => cases ha.1
      | skipEvent => exact hw₁.2
      | lockEvent => exact ⟨hw₁.1, hhandling, hw₁.2.called, by simp⟩
    cases result with
    | none => exact hw
    | some _ =>
      refine wp_seq (Marked t q m e status) (tells_op _ hw Concluding.stable.during
        (fun w₁ ch r w₂ hw₁ _ _ ha hd => ?_)) (fun _ w hw => ?_) (fun _ _ hw => hw)
      · cases hd with
        | fault => cases ha.1
        | missEvent hn =>
          obtain ⟨o, ho, _, _, hid⟩ := hw₁.2.backed
          rw [World.view_nil hw₁.1] at hn
          exact absurd hid (Table.find_none.mp hn o ho)
        | @updateOutbox _ _ _ o ho hf =>
          obtain ⟨h₁, h₂⟩ := hw₁.2.does (@World.Does.updateOutbox lim _ _ _ _ _ _ ho hf) (by simp)
            (by simp) (by rw [World.write_lock]; simp [Write.resources])
          exact ⟨trivial, h₁, by simp [hw₁.1], h₂⟩
      · refine tells_op _ hw Concluding.stable.during (fun w₁ ch r w₂ hw₁ _ _ ha hd => ?_)
        cases hd with
        | fault => cases ha.1
        | flush => exact ⟨trivial, .refl t w₁, hw₁⟩
  · refine wp_mono (tells_commit (R := Serving t q m e) (fun _ => False) (fun _ _ h _ _ _ => h)
      (fun _ h => h.elim) (World.Careful.refl t) (tells_op _ hw Concluding.stable.during
        (fun w₁ ch r w₂ hw₁ _ _ ha hd => ?_))) (fun r w hw => ?_)
    · have hhandling := hw₁.2.toHandling.does hd (by simp)
      have hcalled := World.does_tells hd hw₁.2.called
      have hcareful := @World.Careful.of_does lim _ _ _ _ _ _ hd (by simp)
      cases hd with
      | fault => cases ha.1
      | lostCommit => cases ha.1
      | commit =>
        obtain ⟨o, ho, _, _, hid⟩ := hw₁.2.backed
        have hhandled : (w₁.commit t).db.Handled e := by
          rw [World.commit_db, World.view, hw₁.1]
          exact Db.handled_mark ⟨o, ho, hid⟩ hst
        refine ⟨trivial, hcareful (fun e' he => ?_), hhandling, hcalled, by simp [hw₁.2.locked]⟩
        exact .inr (hw₁.2.entered e' he.1 ▸ hhandled)
    · cases r with
      | ok _ => exact hw
      | error _ => exact hw.elim

/-- The broker and the webhook hold no locks. -/
theorem outside_republication {op : Op} (ho : op = .connect ∨ (∃ x k msg, op = .publish x k msg) ∨
      ∃ url payload n, op = .send url payload n) (hp : w.pend t = []) (h : Serving t q m e w) :
    Tells republication lim Unblocked t (perform op)
      (fun _ w => w.pend t = [] ∧ Serving t q m e w) w := by
  refine tells_op _ ⟨hp, h⟩ Serving.stable.during (fun w₁ ch r w₂ hw₁ _ _ ha hd => ?_)
  have hsame : w₂.pend t = w₁.pend t ∧ w₂.lock = w₁.lock := by
    obtain rfl | ⟨_, _, _, rfl⟩ | ⟨_, _, _, rfl⟩ := ho <;> cases hd <;> exact ⟨rfl, rfl⟩
  have hnot : op ≠ .ack ∧ ∀ e', op ≠ .enter e' := by
    obtain rfl | ⟨_, _, _, rfl⟩ | ⟨_, _, _, rfl⟩ := ho <;> simp
  obtain ⟨h₁, h₂⟩ := hw₁.2.does hd hnot.1 hnot.2 (hsame.2 ▸ hw₁.2.unlocked)
  exact ⟨trivial, h₁, hsame.1.trans hw₁.1, h₂⟩

theorem retryOrBury_republication {base : RabbitQueue} {maxAttempts : Nat} {deadKey : String}
    {deadHeaders : Option Nat} (hp : w.pend t = []) (h : Serving t q m e w) :
    Tells republication lim Unblocked t (retryOrBury base maxAttempts m e deadKey deadHeaders)
      (fun _ w => w.pend t = [] ∧ Serving t q m e w) w := by
  refine wp_seq _ (outside_republication (.inl rfl) hp h) (fun _ w hw => ?_) (fun _ _ hw => hw)
  split
  · split
    · exact outside_republication (.inr (.inl ⟨_, _, _, rfl⟩)) hw.1 hw.2
    · exact hw
  · refine wp_seq _ (conclude_republication (by decide) hw.1 hw.2) (fun _ w hw => ?_)
      (fun _ _ hw => hw)
    exact outside_republication (.inr (.inl ⟨_, _, _, rfl⟩)) hw.1 hw.2

/-- The call of the use case is told, and no lock is held. -/
theorem enter_republication {b : Bool} (hp : w.pend t = []) (hl : w.lock (.outbox e) ≠ some t)
    (h : Gating t q m e b w) :
    Tells republication lim Unblocked t (perform (.enter e))
      (fun _ w => w.pend t = [] ∧ Serving t q m e w) w := by
  have hs : republication.Stable t (fun w => w.lock (.outbox e) ≠ some t ∧ Gating t q m e b w) :=
    fun w w' hw hr hst hd => ⟨fun hl => hw.1 (hd.lock _ hl), hw.2.stable w w' hr hst hd⟩
  refine tells_op _ ⟨hp, hl, h⟩ hs.during (fun w₁ ch r w₂ hw₁ _ _ ha hd => ?_)
  refine ⟨trivial, .of_idle hd (by simp) hw₁.2.2.unseized, ?_⟩
  cases hd with
  | fault => cases ha.1
  | enter =>
    have hstory : (w₁.note t (.entered e)).story t = .entered e :: w₁.story t :=
      World.story_told rfl rfl
    refine ⟨hw₁.1, ⟨fun q' m' hm => ?_, fun e' hm => ?_, hw₁.2.2.backed⟩, ?_, hw₁.2.1⟩
    · rw [hstory] at hm
      exact hw₁.2.2.message q' m' ((List.mem_cons.mp hm).resolve_left (by simp))
    · rw [hstory] at hm
      rcases List.mem_cons.mp hm with he | hm
      · exact Obs.entered.inj he
      · exact absurd hm (hw₁.2.2.uncalled e')
    · rw [hstory]
      exact List.mem_cons_self

/-- The delivery may be acknowledged: the use case was called, or the event is covered. -/
def Justified (t : Tid) (q : RabbitQueue) (m : Message) (e : UUID) (w : World) : Prop :=
  Serving t q m e w ∨ Gating t q m e false w

omit [Externals] in
theorem Justified.unseized (h : Justified t q m e w) (e' : UUID) : ¬ w.Seizes t e' :=
  h.elim (fun h => h.unseized e') (fun h => h.unseized e')

omit [Externals] in
theorem Justified.stable : republication.Stable t (Justified t q m e) :=
  fun w w' h hr hs hd => h.imp (fun h => h.stable w w' hr hs hd) (fun h => h.stable w w' hr hs hd)

/-- The acknowledgement of a delivery that may be acknowledged. -/
theorem ack_republication {event : PaymentEvent} (hev : eventOf q m = .ok event)
    (h : Justified t q m event.id w) :
    Tells republication lim Unblocked t (perform .ack) (fun _ w => ∀ e, ¬ w.Seizes t e) w := by
  refine tells_op _ h Justified.stable (fun w₁ ch r w₂ hw₁ _ _ ha hd => ?_)
  cases hd with
  | fault => cases ha.1
  | ack =>
    have hidle : ∀ e, ¬ (w₁.ackDelivery t).Seizes t e := by
      rintro e ⟨hm, hlock⟩
      rw [World.story_told rfl rfl] at hm
      exact hw₁.unseized e ⟨(List.mem_cons.mp hm).resolve_left (by simp), hlock⟩
    refine ⟨trivial, ⟨fun e he => absurd he (hw₁.unseized e), fun _ _ _ h => h, ?_⟩, hidle⟩
    intro _ q' m' event' hm he'
    obtain ⟨rfl, rfl⟩ : q' = q ∧ m' = m :=
      hw₁.elim (fun h => h.message q' m' hm) (fun h => h.message q' m' hm)
    cases hev.symm.trans he'
    exact hw₁.imp (fun h => h.called) (fun h => h.covered rfl)

/-- A handler from the claim on, whose gated part calls the use case. -/
theorem claimed_republication {event : PaymentEvent} (hev : eventOf q m = .ok event)
    {maxAttempts : Nat} {run : Service Unit} (hp : w.pend t = []) (h : Gating t q m event.id true w)
    (hrun : ∀ b (w : World), w.pend t = [] → w.lock (.outbox event.id) ≠ some t →
      Gating t q m event.id b w → Tells republication lim Unblocked t run
        (fun _ w => w.pend t = [] ∧ Serving t q m event.id w) w) :
    Tells republication lim Unblocked t ((claim event.id).bind (fun claimed =>
      (if Admitted claimed m.attempt maxAttempts then run else Prog.ret ()).bind
        (fun _ => perform .ack))) (fun _ w => ∀ e, ¬ w.Seizes t e) w := by
  refine wp_seq _ (claim_republication hp h) ?_ (by rintro _ _ ⟨_, he, _⟩; cases he)
  rintro claimed w ⟨b, he, hp, hl, hw⟩
  cases he
  refine tells_gated (Justified t q m event.id) (fun _ _ hw => hw.unseized)
    (fun _ => wp_mono (hrun _ _ hp hl hw) (fun _ _ hw => .inl hw.2)) (fun hn => .inr ?_)
    (fun _ hw => ack_republication hev hw)
  cases claimed with
  | true => exact absurd (.inl rfl) hn
  | false => exact hw

/-- The use case of a payment does not touch the row of its event. -/
theorem process_republication (event : PaymentEvent) (hp : w.pend t = []) (h : Serving t q m e w) :
    Tells republication lim Unblocked t (processPayment event)
      (fun _ w => w.pend t = [] ∧ Serving t q m e w) w :=
  tells_process Serving.stable (fun _ ho _ _ _ _ _ hw _ _ _ hd => ⟨trivial, hw.apart hd ho⟩)
    (fun _ hw _ => ⟨trivial, hw.drop⟩) (World.Careful.refl t) event hp h

theorem send_republication (event : PaymentEvent) (hp : w.pend t = []) (h : Serving t q m e w) :
    Tells republication lim Unblocked t (sendNotification event)
      (fun _ w => w.pend t = [] ∧ Serving t q m e w) w := by
  simp only [sendNotification, Prog.bind_eq]
  cases Payload.getStrategy (event.attr "status") event with
  | error x => exact ⟨hp, h⟩
  | ok payload =>
    rw [Prog.ofExcept_ok_bind]
    split
    · exact outside_republication (.inr (.inr ⟨_, _, _, rfl⟩)) hp h
    · exact ⟨hp, h⟩

/-- A use case between its call and the status that it ends with. -/
theorem called_republication {b : Bool} {body : Service Unit} (hp : w.pend t = [])
    (hl : w.lock (.outbox e) ≠ some t) (h : Gating t q m e b w)
    (hbody : ∀ w : World, w.pend t = [] → Serving t q m e w →
      Tells republication lim Unblocked t body (fun _ w => w.pend t = [] ∧ Serving t q m e w) w) :
    Tells republication lim Unblocked t ((perform (.enter e)).bind (fun _ =>
      body.bind (fun _ => conclude e .confirmed))) (fun _ w => w.pend t = [] ∧ Serving t q m e w) w :=
  wp_seq _ (enter_republication hp hl h) (fun _ w hw =>
    wp_seq _ (hbody w hw.1 hw.2) (fun _ _ hw => conclude_republication (by decide) hw.1 hw.2)
      (fun _ _ hw => hw)) (fun _ _ hw => hw)

omit [Externals] in
/-- The story of a delivery begins with its message. -/
theorem gating_deliver {i : Nat} {claimed : Bool} (hc : claimed = true)
    (hb : Backed q.routingKey m e w.db) (hs : w.story t = []) :
    Gating t q m e claimed (w.deliver t i q m) := by
  have hstory : (w.deliver t i q m).story t = [.delivered q m] := by
    rw [World.story_told rfl rfl, hs]
  refine ⟨⟨fun q' m' hm => ?_, fun e' hm => ?_, hb⟩, fun e' hm => ?_, fun hf => ?_⟩
  · rw [hstory] at hm
    exact Obs.delivered.inj (List.mem_singleton.mp hm)
  · rw [hstory] at hm
    cases List.mem_singleton.mp hm
  · rw [hstory] at hm
    cases List.mem_singleton.mp hm
  · rw [hc] at hf
    cases hf

theorem payment_republication {i : Nat} (hr : w.ready[i]? = some (newPaymentsQ, m)) (hi : w.Inv)
    (hp : w.pend t = []) (hs : w.story t = []) :
    Tells republication lim Unblocked t (handlePaymentProcessing lim.process m)
      (fun _ w => ∀ e, ¬ w.Seizes t e) (w.deliver t i newPaymentsQ m) := by
  simp only [handlePaymentProcessing, Prog.bind_eq, Prog.pure_eq]
  have hstory : (w.deliver t i newPaymentsQ m).story t = [.delivered newPaymentsQ m] := by
    rw [World.story_told rfl rfl, hs]
  have hidle : ∀ w : World, w.story t = [.delivered newPaymentsQ m] → ∀ e, ¬ w.Seizes t e := by
    rintro w hw e ⟨hm, _⟩
    rw [hw] at hm
    cases List.mem_singleton.mp hm
  cases hd : decodeNew m.body with
  | error x =>
    refine wp_seq (fun _ w => w.story t = [.delivered newPaymentsQ m])
      (tells_op _ hstory (fun _ _ hw _ hst _ => hst.trans hw) (fun w₁ ch r w₂ hw₁ _ _ ha hd => ?_))
      (fun _ => hidle) (fun _ => hidle)
    refine ⟨trivial, .of_idle hd (by simp) (hidle w₁ hw₁), ?_⟩
    cases hd <;> exact hw₁
  | ok event =>
    have hb := decodedNew_backed (hi.ready _ (List.mem_of_getElem? hr)) hd
    have hev : eventOf newPaymentsQ m = .ok event := by simp [eventOf, hd]
    refine wp_seq (fun _ w => w.pend t = [] ∧ Gating t newPaymentsQ m event.id true w)
      (tells_op _ ⟨hp, gating_deliver rfl hb hs⟩ Gating.stable.during
      (fun w₁ ch r w₂ hw₁ _ _ ha hd => ?_)) (fun _ w hw => ?_) (fun _ _ hw => hw.2.unseized)
    · obtain ⟨h₁, h₂⟩ := hw₁.2.does hd (by simp) (by simp)
      exact ⟨trivial, h₁, by cases hd <;> exact hw₁.1, h₂⟩
    · rw [Prog.ofExcept_ok_bind]
      refine claimed_republication hev hw.1 hw.2 (fun b w hp hl hw => ?_)
      refine wp_catch _ (called_republication hp hl hw (fun _ => process_republication event))
        (fun _ _ hw => hw) (fun x w hw => ?_)
      split
      · exact hw
      · exact retryOrBury_republication hw.1 hw.2

theorem notify_republication {i : Nat} (hr : w.ready[i]? = some (notifyPaymentsQ, m)) (hi : w.Inv)
    (hp : w.pend t = []) (hs : w.story t = []) :
    Tells republication lim Unblocked t (handleNotifyClient lim.notify m)
      (fun _ w => ∀ e, ¬ w.Seizes t e) (w.deliver t i notifyPaymentsQ m) := by
  simp only [handleNotifyClient, Prog.bind_eq, Prog.pure_eq]
  cases hd : decodeNotify m.body with
  | error x =>
    rintro e ⟨hm, _⟩
    rw [World.story_told rfl rfl, hs] at hm
    cases List.mem_singleton.mp hm
  | ok event =>
    have hb := decodedNotify_backed (hi.ready _ (List.mem_of_getElem? hr)) hd
    have hev : eventOf notifyPaymentsQ m = .ok event := by
      simp [eventOf, hd, newPaymentsQ, notifyPaymentsQ]
    rw [Prog.ofExcept_ok_bind]
    refine claimed_republication hev hp (gating_deliver rfl hb hs) (fun b w hp hl hw => ?_)
    exact wp_catch _ (called_republication hp hl hw (fun _ => send_republication event))
      (fun _ _ hw => hw) (fun x w hw => retryOrBury_republication hw.1 hw.2)

/-- Where no claim is blocked every program keeps the duty. -/
theorem republication_met : republication.Met lim Unblocked where
  refl := World.Trusts.refl
  trans := fun _ _ _ _ h h' => h.trans h'
  compat := fun t u w w' hu hg hs h => h.trusted hu hg hs
  idle := fun t w w' hw _ hs hd e he => hw e ⟨hs ▸ he.1, hd.lock _ he.2⟩
  aside := fun t w w' h _ hl _ _ _ => by
    refine ⟨trivial, ⟨fun e he => .inl ⟨h.story t ▸ he.1, hl ▸ he.2⟩, fun _ _ _ h => hl ▸ h, ?_⟩⟩
    intro hs
    rw [h.story t] at hs
    simp at hs
  deliver := fun t w i q m _ _ hs => by
    refine ⟨trivial, ⟨fun e he => ?_, fun _ _ _ h => h, fun h => ?_⟩⟩
    · rw [World.Seizes, hs] at he
      exact absurd he.1 List.not_mem_nil
    · rw [World.story_told rfl rfl] at h
      cases (List.cons.inj h).1
  finish := fun t r w hw _ => by
    refine ⟨trivial, ⟨fun e he => absurd he (hw e), (World.Careful.drop hw).lock, fun h => ?_⟩⟩
    rw [World.story_told rfl rfl] at h
    cases (List.cons.inj h).1
  crash := fun _ _ ha _ => by cases ha.1
  environment := fun e w w' _ _ _ he => by
    refine ⟨trivial, fun t => ?_⟩
    obtain ⟨_, _, rfl⟩ := World.environment_same he
    exact ⟨fun _ _ _ h => .inl h, fun _ h => h, fun _ h => h⟩
  polls := fun p t w hp _ hn hs => by
    have hidle : ∀ w : World, w.story t = [] → ∀ e, ¬ w.Seizes t e := by
      rintro w hw e ⟨hm, _⟩
      rw [hw] at hm
      cases hm
    refine wp_mono (tells_only (A := fun w => w.Apart t ∧ w.story t = []) hp
      ⟨World.apart_nil hn, hs⟩ (fun w w' hw hr hst _ => ⟨fun x hx => hw.1 x (hr.pend ▸ hx),
        hst.trans hw.2⟩) (fun op ho w₁ ch r w₂ hw₁ _ _ ha hd => ?_)) (fun _ w hw => hidle w hw.2)
    obtain ⟨haside, happ⟩ := World.does_apart hd ho hw₁.1
    refine ⟨trivial, .of_idle hd ?_ (hidle w₁ hw₁.2), happ, (haside.story t).trans hw₁.2⟩
    rintro rfl
    obtain ho | ⟨_, _, ho⟩ := ho <;> cases ho
  payment := fun t w i m _ hr hi _ hp hs => payment_republication hr hi hp hs
  notify := fun t w i m _ hr hi _ hp hs => notify_republication hr hi hp hs

variable {c d d' : Config World Op Op.Res Exc Reply}

/-- From a quiet moment on, where every claim that finds a pending row locked finds it locked by
a run that is executing the event: a delivery that is acknowledged without a call of the use
case is one of an event that is handled or that another run is executing. -/
theorem republished_not_dropped (h : Reachable lim c) (hq : ∀ t, c.threads t = none)
    (hr : (service lim).Reach Unblocked c d) {ch : Choice} (ha : Unblocked d.shared (.run t .ack ch))
    (hs : (service lim).Step d (.run t .ack ch) d') {event : PaymentEvent}
    (hd : .delivered q m ∈ d.shared.story t) (he : eventOf q m = .ok event)
    (hn : .entered event.id ∉ d.shared.story t) :
    (∀ o ∈ d.shared.db.outbox.rows, o.id = event.id → o.status ≠ .pending) ∨
      ∃ u, u ≠ t ∧ Executing d u event.id := by
  have hreach : Reachable lim d := h.trans (hr.mono (fun _ _ _ => trivial))
  have hstart : (World.contract.both republication.contract).Holds (service lim) Unblocked c :=
    ⟨⟨(reachable_holds h).inv, trivial⟩, fun u p hu => by simp [hq u] at hu,
      fun u hu => ⟨(reachable_holds h).fresh u hu, story_fresh h u hu⟩⟩
  have hholds := republication_met.valid.holds_reach hstart hr
  have hcareful := (republication_met.valid.holds_step hholds ha hs).2.2.2
  have htold : d'.shared.story t = .acked :: d.shared.story t := by
    cases hs with
    | run _ hx =>
      cases World.exec_does hx with
      | fault => cases ha.1
      | ack => exact World.story_told rfl rfl
  rcases hcareful.acked htold q m event hd he with hm | ⟨o, ho, hid, hst⟩ | ⟨u, hu, hent, hl⟩
  · exact absurd hm hn
  · refine .inl (fun o' ho' hid' => ?_)
    rwa [Table.eq_of_key ho' ho (hid'.trans hid.symm)]
  · exact .inr ⟨u, hu, lock_running hreach _ _ hl, hent⟩

end

/-- No thread of a reachable configuration runs when none of those that have started does. -/
theorem quiet_of_started [Externals] {lim : Limits} {c : Config World Op Op.Res Exc Reply}
    (h : Reachable lim c) (hq : ∀ t < c.next, (c.threads t).isNone = true) (t : Tid) :
    c.threads t = none := by
  cases ht : c.threads t with
  | none => rfl
  | some p =>
    have := hq t ((reachable_holds h).running t p ht).1
    rw [ht] at this
    cases this

/-- The thread is about to acknowledge its delivery. -/
def acking (p : Option (Service Reply)) : Bool :=
  match p with
  | some (.call .ack _) => true
  | _ => false

theorem step_of_acking {lim : Limits} {c : Config World Op Op.Res Exc Reply} {t : Tid}
    (h : acking (c.threads t) = true) : ∃ d, (sampleService lim).Step c (.run t .ack .ok) d := by
  unfold acking at h
  split at h
  · rename_i k ht
    exact ⟨_, .run ht rfl⟩
  · cases h

/-- The thread was delivered a message whose event is the given one. -/
def deliveredTo (w : World) (t : Tid) (e : UUID) : Option (RabbitQueue × Message × PaymentEvent) :=
  (w.story t).findSome? (fun o =>
    match o with
    | .delivered q m =>
      match eventOf q m with
      | .ok event => if event.id = e then some (q, m, event) else none
      | .error _ => none
    | _ => none)

theorem delivered_event {w : World} {t : Tid} {e : UUID}
    {x : RabbitQueue × Message × PaymentEvent} (h : deliveredTo w t e = some x) :
    .delivered x.1 x.2.1 ∈ w.story t ∧ eventOf x.1 x.2.1 = .ok x.2.2 ∧ x.2.2.id = e := by
  obtain ⟨o, ho, h⟩ := List.exists_of_findSome?_eq_some h
  split at h
  · rename_i q m
    split at h
    · rename_i event he
      split at h
      · rename_i hid
        cases h
        exact ⟨ho, he, hid⟩
      · cases h
    · cases h
  · cases h

/-- No call of a use case is told. -/
def uncalled (os : List Obs) : Bool :=
  os.all (fun o => match o with | .entered _ => false | _ => true)

theorem not_entered {os : List Obs} (h : uncalled os = true) (e : UUID) : .entered e ∉ os :=
  fun hm => by cases List.all_eq_true.mp h _ hm

/-- The steps without failures in which no claim finds its row locked. -/
def unlockedClaims (w : World) (mv : Move Op Choice Req Env) : Bool :=
  works mv &&
    match mv with
    | .run t (.selectPendingId e) _ => w.Free t (.outbox e)
    | _ => true

theorem unblocked_of_unlocked {w : World} {mv : Move Op Choice Req Env}
    (h : unlockedClaims w mv = true) : Unblocked w mv := by
  obtain ⟨hworks, h⟩ := Bool.and_eq_true_iff.mp h
  refine ⟨hworks, ?_⟩
  split
  · rintro - u hu hl
    rcases (by simpa using h : World.Free w _ _) with hf | hf
    · rw [hl] at hf
      cases hf
    · rw [hl] at hf
      exact absurd (Option.some.inj hf) hu
  · trivial

/-- A creation that commits and loses its publish. -/
def unannouncedRun : Schedule :=
  (createRun 0 (uid 1) (uid 10) (uid 11)).take 13 ++ [.run 0 (.fault .amqp), .exit 0]

set_option maxRecDepth 20000 in
theorem unannouncedRun_some : (after {} unannouncedRun).isSome = true := by decide +kernel

/-- A payment is committed, and its created event was never published. -/
def unannounced : Config World Op Op.Res Exc Reply := (after {} unannouncedRun).get unannouncedRun_some

set_option maxRecDepth 20000 in
theorem unannounced_quiet (t : Tid) : unannounced.threads t = none :=
  @quiet_of_started sample {} _ (reachable_after unannouncedRun_some) (by decide +kernel) t

/-- The event is published by two polls, the first message is handled, and the claim of the
second finds the event confirmed. -/
def handledRun : Schedule :=
  pollRun 1 [uid 11] ++ pollRun 2 [uid 11] ++ processRun 3 0 (uid 12) ++
    [.start (.deliver 0), .run 4 .ok, .run 4 (.time sampleTime)] ++ oks 4 2

/-- The poll has published the event, and before it closes its unit of work the message is
delivered and its claim does not get the row. -/
def droppedRun : Schedule :=
  [.start .poll, .run 1 .ok, .run 1 (.order [uid 11]), .run 1 .ok, .start (.deliver 0), .run 2 .ok,
    .run 2 (.time sampleTime)] ++ oks 2 2

/-- The configuration after a schedule whose steps meet a condition. -/
def onward (ok : World → Move Op Choice Req Env → Bool) (as : Schedule) :
    Option (Config World Op Op.Res Exc Reply) :=
  (sampleService {}).play ok as unannounced

set_option maxRecDepth 20000 in
theorem handledRun_some : (onward unlockedClaims handledRun).isSome = true := by decide +kernel

set_option maxRecDepth 20000 in
theorem droppedRun_some : (onward (fun _ mv => works mv) droppedRun).isSome = true := by
  decide +kernel

/-- The second message is about to be acknowledged. -/
def handled : Config World Op Op.Res Exc Reply := (onward unlockedClaims handledRun).get handledRun_some

/-- The message of the poll is about to be acknowledged. -/
def dropped : Config World Op Op.Res Exc Reply :=
  (onward (fun _ mv => works mv) droppedRun).get droppedRun_some

theorem handled_reach : (sampleService {}).Reach Unblocked unannounced handled :=
  Sys.reach_of_play (fun _ _ h => unblocked_of_unlocked h) (Option.some_get handledRun_some).symm

theorem dropped_reach : (sampleService {}).Reach (fun _ mv => works mv = true) unannounced dropped :=
  Sys.reach_of_play (fun _ _ h => h) (Option.some_get droppedRun_some).symm

set_option maxRecDepth 20000 in
theorem handled_acking : acking (handled.threads 4) = true ∧
    (deliveredTo handled.shared 4 (uid 11)).isSome = true ∧
    uncalled (handled.shared.story 4) = true := by decide +kernel

set_option maxRecDepth 20000 in
theorem dropped_acking : acking (dropped.threads 2) = true ∧
    (deliveredTo dropped.shared 2 (uid 11)).isSome = true ∧
    uncalled (dropped.shared.trace.map Prod.snd) = true ∧
    ∃ o ∈ dropped.shared.db.outbox.rows, o.id = uid 11 ∧ o.status = .pending := by decide +kernel

theorem republished_not_dropped_handled :
    ∃ d : Config World Op Op.Res Exc Reply, ∃ t event,
      (∃ q m, .delivered q m ∈ d.shared.story t) ∧ .entered event ∉ d.shared.story t ∧
      ((∀ o ∈ d.shared.db.outbox.rows, o.id = event → o.status ≠ .pending) ∨
        ∃ u, u ≠ t ∧ Executing d u event) := by
  obtain ⟨hacking, hdelivered, huncalled⟩ := handled_acking
  obtain ⟨d', hs⟩ := @step_of_acking {} _ _ hacking
  obtain ⟨x, hx⟩ := Option.isSome_iff_exists.mp hdelivered
  obtain ⟨hm, he, hid⟩ := delivered_event hx
  have hn := not_entered huncalled x.2.2.id
  refine ⟨handled, 4, x.2.2.id, ⟨x.1, x.2.1, hm⟩, hn, ?_⟩
  exact @republished_not_dropped sample {} 4 x.1 x.2.1 unannounced handled d'
    (reachable_after unannouncedRun_some) unannounced_quiet handled_reach .ok ⟨rfl, trivial⟩ hs
    x.2.2 hm he hn

theorem republished_and_dropped : ∃ c d d' : Config World Op Op.Res Exc Reply, ∃ t q m event,
    @Reachable sample {} c ∧ (∀ t, c.threads t = none) ∧
      (sampleService {}).Reach (fun _ mv => works mv = true) c d ∧
      (sampleService {}).Step d (.run t .ack .ok) d' ∧ .delivered q m ∈ d.shared.story t ∧
      eventOf q m = .ok event ∧ (∀ u, .entered event.id ∉ d.shared.story u) ∧
      ∃ o ∈ d.shared.db.outbox.rows, o.id = event.id ∧ o.status = .pending := by
  obtain ⟨hacking, hdelivered, huncalled, o, ho, hoid, hst⟩ := dropped_acking
  obtain ⟨d', hs⟩ := @step_of_acking {} _ _ hacking
  obtain ⟨x, hx⟩ := Option.isSome_iff_exists.mp hdelivered
  obtain ⟨hm, he, hid⟩ := delivered_event hx
  refine ⟨unannounced, dropped, d', 2, x.1, x.2.1, x.2.2, reachable_after unannouncedRun_some,
    unannounced_quiet, dropped_reach, hs, hm, he, fun u hu => ?_, o, ho, hoid.trans hid.symm, hst⟩
  have hcall : (u, .entered x.2.2.id) ∈ dropped.shared.trace := (World.mem_story.mp hu).1
  exact not_entered huncalled x.2.2.id (List.mem_map.mpr ⟨_, hcall, rfl⟩)

end Payments
