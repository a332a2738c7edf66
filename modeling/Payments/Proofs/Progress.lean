import Payments.Lib.Progress
import Payments.Proofs.Transactions

namespace Payments

open Lib

/-- The service goes on with what it has begun: no new thread, no failure and nothing that the
broker does by itself. A webhook that the client cannot call is refused. -/
def carriesOn : Move Op Choice Req Env → Bool
  | .run _ (.send url _ _) (.fault _) => !Op.supportedUrl url
  | .run _ _ (.fault _) | .run _ _ (.lost _) => false
  | .run _ _ _ | .exit _ => true
  | _ => false

/-- The effect draws an identifier. -/
def Op.draws : Op → Bool
  | .uuid4 => true
  | _ => false

namespace World

/-- What a thread locks is stored, or is what it has drawn an identifier for. -/
def Anchors (w : World) (t : Tid) : Resource → Prop
  | .payment id => (∃ r ∈ w.db.payments.rows, r.id = id) ∨ w.drawn id = some t
  | .outbox id => (∃ o ∈ w.db.outbox.rows, o.id = id) ∨ w.drawn id = some t
  | .paymentKey _ => True

def Anchored (w : World) : Prop := ∀ x t, w.lock x = some t → w.Anchors t x

variable {lim : Limits} {t u : Tid} {op : Op} {ch : Choice} {w w' : World}
  {r : Except Exc op.Res} {x : Resource}

theorem Anchors.mono (h : w.Anchors t x)
    (hp : ∀ r ∈ w.db.payments.rows, ∃ r' ∈ w'.db.payments.rows, r'.id = r.id)
    (ho : ∀ o ∈ w.db.outbox.rows, ∃ o' ∈ w'.db.outbox.rows, o'.id = o.id)
    (hd : ∀ v, w.drawn v = some t → w'.drawn v = some t) : w'.Anchors t x := by
  cases x with
  | payment id =>
    rcases h with ⟨r, hr, rfl⟩ | h
    · exact .inl (hp r hr)
    · exact .inr (hd id h)
  | outbox id =>
    rcases h with ⟨o, ho', rfl⟩ | h
    · exact .inl (ho o ho')
    · exact .inr (hd id h)
  | paymentKey => trivial

/-- What a session sees is anchored. -/
theorem anchors_payment (hi : w.Inv) {row : PaymentRow} (hr : row ∈ (w.view t).payments.rows) :
    w.Anchors t (.payment row.id) :=
  Db.forall_applyAll_payments (p := fun row => w.Anchors t (.payment row.id))
    (fun r hr => .inl ⟨r, hr, rfl⟩) (fun row hm => .inr (hi.payment t row hm))
    (fun _ _ _ h => h) row hr

theorem anchors_event (hi : w.Inv) {o : OutboxRow} (ho : o ∈ (w.view t).outbox.rows) :
    w.Anchors t (.outbox o.id) :=
  Db.forall_applyAll_outbox (p := fun o => w.Anchors t (.outbox o.id))
    (fun o ho => .inl ⟨o, ho, rfl⟩) (fun o hm => .inr (hi.event t o hm))
    (fun _ _ _ _ _ _ h => h) o ho

/-- What an effect that is due newly locks is anchored. -/
theorem does_anchors (hi : w.Inv) (hdue : w.Due lim t op) (hd : Does lim t w op ch r w')
    (hx : w'.lock x = some t) : w.lock x = some t ∨ w.Anchors t x := by
  have hhold : ∀ rs, (∀ y ∈ rs, w.Anchors t y) → (w.hold t rs).lock x = some t →
      w.lock x = some t ∨ w.Anchors t x := by
    intro rs hrs hl
    rw [hold_lock] at hl
    split at hl
    · exact .inr (hrs x ‹_›)
    · exact .inl hl
  have hdrop : (w.drop t).lock x = some t → w.lock x = some t ∨ w.Anchors t x :=
    fun hl => absurd hl drop_unlocks
  cases hd with
  | fault =>
    cases op <;> first
      | exact .inl hx
      | exact hdrop hx
  | lockPayment hr | lockKey hr =>
    refine hhold _ (fun y hy => ?_) hx
    cases List.mem_singleton.mp hy
    exact anchors_payment hi hr
  | insertPayment hv =>
    rw [write_lock] at hx
    refine hhold _ (fun y hy => ?_) hx
    obtain ⟨hid, _⟩ := toRow_id hv
    rcases (by simpa [Write.resources] using hy : y = _ ∨ y = _) with rfl | rfl
    · exact .inr (hid ▸ hdue.1)
    · trivial
  | insertOutbox hv =>
    rw [write_lock] at hx
    refine hhold _ (fun y hy => ?_) hx
    obtain ⟨z, hz, hy⟩ := List.mem_flatMap.mp hy
    obtain ⟨o, ho, rfl⟩ := List.mem_map.mp hz
    cases List.mem_singleton.mp hy
    obtain ⟨s, hs, hrow⟩ := mem_mapM_ok hv (List.mem_filter.mp ho).1
    exact .inr (hdue s hs o hrow)
  | updatePayment hr =>
    rw [write_lock] at hx
    refine hhold _ (fun y hy => ?_) hx
    obtain ⟨hm, rfl⟩ := Table.find_some.mp hr
    cases List.mem_singleton.mp hy
    exact anchors_payment hi hm
  | updateOutbox ho =>
    rw [write_lock] at hx
    refine hhold _ (fun y hy => ?_) hx
    obtain ⟨hm, rfl⟩ := Table.find_some.mp ho
    cases List.mem_singleton.mp hy
    exact anchors_event hi hm
  | lockEvent ho hid | claim ho hid =>
    refine hhold [.outbox _] (fun y hy => ?_) hx
    cases List.mem_singleton.mp hy
    exact hid ▸ anchors_event hi ho
  | @pendings limit offset ids hs =>
    refine hhold _ (fun y hy => ?_) hx
    obtain ⟨id, hid, rfl⟩ := List.mem_map.mp hy
    obtain ⟨o, ho, rfl⟩ := List.mem_map.mp (hs.1.subset (List.mem_of_mem_take hid))
    exact anchors_event hi (List.mem_filter.mp ho).1
  | commit | lostCommit | rollback | close => exact hdrop hx
  | _ => exact .inl hx

/-- What nobody else has locked is free. -/
theorem free_of_lock (hx : ∀ u, w.lock x = some u → u = t) : w.Free t x := by
  cases hl : w.lock x with
  | none => exact .inl hl
  | some u => exact .inr (hx u hl ▸ hl)

/-- The insert of a payment waits for the lock on its key only. -/
theorem insertPayment_answers {values : PaymentValues} (ha : w.Anchored)
    (hd : w.drawn values.id = some t)
    (hk : ∀ u, w.lock (.paymentKey values.idempotencyKey) = some u → u = t) :
    (w.insertPayment t values).isSome = true := by
  unfold insertPayment
  cases hv : values.toRow with
  | error e => rfl
  | ok row =>
    obtain ⟨hid, hkey⟩ := toRow_id hv
    simp only
    split
    · rfl
    · rename_i hconflict
      have hrow : w.Free t (.payment row.id) := by
        apply free_of_lock
        intro u hl
        rcases ha _ _ hl with ⟨r, hr, hrid⟩ | hdrawn
        · obtain ⟨r', hr', hid', _⟩ : ∃ r' ∈ (w.view t).payments.rows, r'.id = r.id ∧
              r'.idempotencyKey = r.idempotencyKey := Db.payment_applyAll hr
          refine absurd (List.any_eq_true.mpr ⟨r', hr', ?_⟩) hconflict
          simp [hid'.trans hrid]
        · rw [hid, hd] at hdrawn
          exact (Option.some.inj hdrawn).symm
      have hfree : w.Free t (.paymentKey row.idempotencyKey) := free_of_lock (hkey ▸ hk)
      simp [Write.resources, hrow, hfree]

theorem insertOutbox_answers {events : List SerializedEvent} (ha : w.Anchored)
    (hd : ∀ e ∈ events, ∀ o, e.toRow = .ok o → w.drawn o.id = some t) :
    (w.insertOutbox t events).isSome = true := by
  unfold insertOutbox
  cases hv : events.mapM SerializedEvent.toRow with
  | error e => rfl
  | ok rows =>
    have hfree : ∀ o ∈ rows.filter (fun o => ((w.view t).outbox.find? o.id).isNone),
        w.Free t (.outbox o.id) := by
      intro o ho
      obtain ⟨hm, hnone⟩ := List.mem_filter.mp ho
      apply free_of_lock
      intro u hl
      rcases ha _ _ hl with ⟨o', ho', hid⟩ | hdrawn
      · obtain ⟨y, hy, hyid⟩ : ∃ y ∈ (w.view t).outbox.rows, y.id = o.id :=
          Db.event_applyAll ⟨o', ho', hid⟩
        exact absurd hyid (Table.find_none.mp (Option.isNone_iff_eq_none.mp hnone) y hy)
      · obtain ⟨s, hs, hrow⟩ := mem_mapM_ok hv hm
        rw [hd s hs o hrow] at hdrawn
        exact (Option.some.inj hdrawn).symm
    simp only
    rw [if_pos (List.all_eq_true.mpr (fun o ho => decide_eq_true (hfree o ho)))]
    rfl

theorem updatePayment_answers {id : UUID} {status : PaymentStatus} {now : DateTime}
    (hl : w.lock (.payment id) = some t) : (w.updatePayment t id status now).isSome = true := by
  unfold updatePayment
  split
  · rfl
  · rw [if_pos (.inr hl)]
    rfl

theorem updateOutbox_answers {id : UUID} {status : TaskStatus} {handledAt : Option DateTime}
    (hl : w.lock (.outbox id) = some t) : (w.updateOutbox t id status handledAt).isSome = true := by
  unfold updateOutbox
  split
  · rfl
  · rw [if_pos (.inr hl)]
    rfl

/-- An effect that is due can be performed without a failure, unless it inserts a payment under a
key that another thread has locked. -/
theorem due_performs (ha : w.Anchored) (hdue : w.Due lim t op)
    (hu : op.draws = true → ∃ u, w.Unused u) :
    (∃ ch r w', carriesOn (.run t op ch) = true ∧ exec lim t op ch w = some (r, w')) ∨
      ∃ values u, op = .insertPayment values ∧ t ≠ u ∧
        w.lock (.paymentKey values.idempotencyKey) = some u := by
  have hok : (exec lim t op .ok w).isSome = true →
      ∃ ch r w', carriesOn (.run t op ch) = true ∧ exec lim t op ch w = some (r, w') := by
    intro hs
    obtain ⟨⟨r, w'⟩, he⟩ := Option.isSome_iff_exists.mp hs
    exact ⟨.ok, r, w', by cases op <;> rfl, he⟩
  cases op with
  | insertPayment values =>
    by_cases hkey : ∃ u, t ≠ u ∧ w.lock (.paymentKey values.idempotencyKey) = some u
    · obtain ⟨u, hne, hl⟩ := hkey
      exact .inr ⟨values, u, rfl, hne, hl⟩
    · refine .inl (hok (insertPayment_answers ha hdue.1 (fun u hl => ?_)))
      by_contra hne
      exact hkey ⟨u, Ne.symm hne, hl⟩
  | insertOutbox events => exact .inl (hok (insertOutbox_answers ha hdue))
  | updatePayment id status now => exact .inl (hok (updatePayment_answers hdue))
  | updateOutbox id status handledAt => exact .inl (hok (updateOutbox_answers hdue))
  | selectPendings limit offset =>
    left
    obtain ⟨ids, hs⟩ := exists_sorted (w.pendings t) (w.pendings_nodup t)
    refine ⟨.order ids, .ok (w.selectPendings t limit offset ids).1,
      (w.selectPendings t limit offset ids).2, rfl, ?_⟩
    exact if_pos hs
  | uuid4 =>
    left
    obtain ⟨u, hu⟩ := hu rfl
    exact ⟨.uuid u, .ok u, w.draw t u, rfl, if_pos hu⟩
  | now => exact .inl ⟨.time sampleTime, .ok sampleTime, w, rfl, rfl⟩
  | random => exact .inl ⟨.coin true, .ok true, w, rfl, rfl⟩
  | send url payload timeout =>
    left
    by_cases hurl : Op.supportedUrl url = true
    · exact ⟨.ok, .ok (), w.note t (.posted url payload), rfl, if_pos hurl⟩
    · refine ⟨.fault .webhookUrlInvalid, .error .webhookUrlInvalid, w.note t (.posted url payload),
        by simpa [carriesOn] using hurl, ?_⟩
      exact if_pos (by simp [Op.Raises, Exc.isWebhook])
  | _ => exact .inl (hok rfl)

end World

section Reach

variable [Externals] {lim : Limits} {c c' : Config World Op Op.Res Exc Reply}
  {mv : Move Op Choice Req Env} {t : Tid}

/-- The locks of every reachable state are anchored. -/
theorem anchored_reach (h : Reachable lim c) : c.shared.Anchored := by
  induction h with
  | init => exact fun _ _ hl => by cases hl
  | @step c c' m hr _ hs ih =>
    have hi := (reachable_holds hr).inv
    have hstep : (service lim).Reach (fun _ _ => True) c c' := .step .init trivial hs
    have hgrows := reach_grows hr hstep
    have hkeep : ∀ x u, (∀ v, c.shared.drawn v = some u → c'.shared.drawn v = some u) →
        c.shared.Anchors u x → c'.shared.Anchors u x := by
      intro x u hd hx
      refine hx.mono (fun r hm => ?_) (fun o hm => ?_) hd
      · obtain ⟨r', hr', he⟩ := hgrows.payment r hm
        exact ⟨r', hr', by rw [he.1]⟩
      · obtain ⟨o', ho', he⟩ := hgrows.event o hm
        exact ⟨o', ho', he.same.1⟩
    have hdrop : ∀ {u x v}, (c.shared.drop u).lock x = some v → c.shared.lock x = some v := by
      intro u x v hl
      rw [World.drop_lock] at hl
      split at hl
      · cases hl
      · exact hl
    intro x u hl
    cases hs with
    | @run t op k ch r w ht he =>
      have hd := World.exec_does he
      apply hkeep x u (fun v => World.does_drawn hd)
      by_cases hu : u = t
      · subst hu
        rcases World.does_anchors hi (due_reach hr ht) hd hl with hl | hx
        · exact ih x u hl
        · exact hx
      · exact ih x u ((World.does_lock hd hl).resolve_right hu)
    | exit | kill => exact hkeep x u (fun _ h => h) (ih x u (hdrop hl))
    | start he =>
      obtain ⟨_, _, _, rfl⟩ := World.start_same he
      exact ih x u hl
    | env he =>
      obtain ⟨_, _, rfl⟩ := World.environment_same he
      exact ih x u hl

/-- The service does not deadlock. A thread that has not ended can go on without a failure, or it
waits for the lock that another thread has on an idempotency key, and that one can go on. -/
theorem no_deadlock (h : Reachable lim c) (hu : ∃ u, c.shared.Unused u)
    (ht : c.threads t ≠ none) : Sys.Moves (service lim) (fun _ m => carriesOn m = true) c t ∨
      ∃ values k u, c.threads t = some (.call (.insertPayment values) k) ∧ t ≠ u ∧
        c.shared.lock (.paymentKey values.idempotencyKey) = some u ∧
        Sys.Moves (service lim) (fun _ m => carriesOn m = true) c u := by
  -- a thread that runs can go on or is at the insert of a payment
  have hmoves : ∀ t p, c.threads t = some p →
      Sys.Moves (service lim) (fun _ m => carriesOn m = true) c t ∨
        ∃ values k u, p = .call (.insertPayment values) k ∧ t ≠ u ∧
          c.shared.lock (.paymentKey values.idempotencyKey) = some u := by
    intro t p ht
    cases p with
    | ret a => exact .inl ⟨.exit t, _, rfl, rfl, .exit ht rfl⟩
    | raise e => exact .inl ⟨.exit t, _, rfl, rfl, .exit ht rfl⟩
    | call op k =>
      rcases World.due_performs (anchored_reach h) (due_reach h ht) (fun _ => hu) with
        ⟨ch, r, w, hc, he⟩ | ⟨values, u, rfl, hne, hl⟩
      · exact .inl ⟨.run t op ch, _, rfl, hc, .run ht he⟩
      · exact .inr ⟨values, k, u, rfl, hne, hl⟩
  obtain ⟨p, hp⟩ := Option.ne_none_iff_exists'.mp ht
  rcases hmoves t p hp with hgo | ⟨values, k, u, rfl, hne, hl⟩
  · exact .inl hgo
  · obtain ⟨q, hq⟩ := Option.ne_none_iff_exists'.mp (lock_running h _ u hl)
    refine .inr ⟨values, k, u, hp, hne, hl, ?_⟩
    rcases hmoves u q hq with hgo | ⟨values', k', _, rfl, _, _⟩
    · exact hgo
    · -- the holder of a key is past its insert
      have hdue : World.Due lim u c.shared (.insertPayment values') := due_reach h hq
      exact absurd hl (hdue.2 _)

end Reach

/-- Two creations under one key. The first has inserted its payment and the second is about to. -/
def collidingRun : Schedule :=
  (createRun 0 (uid 1) (uid 10) (uid 11)).take 8 ++
    [.start (.create (sampleCommand (uid 1))), .run 1 .ok, .run 1 (.uuid (uid 20))] ++
    stamps 1 (uid 21) ++ [.run 1 .ok]

set_option maxRecDepth 20000 in
theorem collidingRun_some : (after {} collidingRun).isSome = true := by decide +kernel

/-- The configuration in which the second creation waits for the first. -/
def colliding : Config World Op Op.Res Exc Reply := (after {} collidingRun).get collidingRun_some

set_option maxRecDepth 20000 in
theorem no_deadlock_colliding : @Reachable sample {} colliding ∧
    colliding.shared.lock (.paymentKey (uid 1)) = some 0 ∧
    (Sys.Moves (sampleService {}) (fun _ m => carriesOn m = true) colliding 1 ∨
      ∃ values k u, colliding.threads 1 = some (.call (.insertPayment values) k) ∧ 1 ≠ u ∧
        colliding.shared.lock (.paymentKey values.idempotencyKey) = some u ∧
        Sys.Moves (sampleService {}) (fun _ m => carriesOn m = true) colliding u) := by
  have hr : @Reachable sample {} colliding := reachable_after collidingRun_some
  have hlock : colliding.shared.lock (.paymentKey (uid 1)) = some 0 := by decide +kernel
  have hunused : colliding.shared.Unused (uid 99) := by decide +kernel
  have hruns : (colliding.threads 1).isSome = true := by decide +kernel
  exact ⟨hr, hlock, @no_deadlock sample _ _ _ hr ⟨uid 99, hunused⟩ (Option.isSome_iff_ne_none.mp hruns)⟩

end Payments
