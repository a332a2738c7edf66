import Payments.Proofs.Idempotency
import Payments.Proofs.Requests
import Payments.Proofs.Transactions

namespace Payments

open Lib

/-- The body of a created event is not one that `handle_notify_client` accepts. -/
theorem created_not_notified {r : PaymentRow} {o : OutboxRow} (h : r.Created o)
    (e : PaymentEvent) : decodeNotify o.body ≠ .ok e := by
  obtain ⟨_, hp⟩ := h
  simp [decodeNotify, EventData.validate, OutboxRow.body, Json.text, hp, createdPayload,
    NotifyData.validate, Except.bind, bind]

/-- Only the thread that has settled a payment confirms its created event. -/
theorem confirmed_by_settler {lim : Limits} {t : Tid} {w : World} {r : PaymentRow} {o : OutboxRow}
    (hi : w.Inv) (ho : o ∈ w.db.outbox.rows) (hc : r.Created o)
    (he : w.Entitled lim t [.updateOutbox o.id .confirmed none]) : ∃ status now x,
      (t, .committed [.updatePayment r.id status now, .insertOutbox x]) ∈ w.trace := by
  generalize hid : o.id = id at he
  cases he with
  | @confirm q m event hs hdone =>
    obtain ⟨y, hy, hbody, hyid⟩ := hs.stored hi
    obtain rfl : y = o := Table.eq_of_key hy ho (hyid.trans hid.symm)
    have hdec := hs.decoded
    unfold eventOf at hdec
    rw [hbody] at hdec
    split at hdec
    · rename_i hq
      cases hdec.symm.trans (decode_created hc)
      obtain ⟨pid, status, now, x, hpid, hm⟩ := hdone hq
      rw [payment_id_value hpid] at hm
      exact ⟨status, now, x, hm⟩
    · exact absurd hdec (created_not_notified hc event)

/-- The event has the end state. -/
def Db.Ended (db : Db) (id : UUID) (status : TaskStatus) : Prop :=
  ∃ o ∈ db.outbox.rows, o.id = id ∧ o.status = status

/-- An event gets an end state by the transaction that writes it. -/
theorem ended_by_mark {lim : Limits} {t : Tid} {w : World} {id : UUID} {status : TaskStatus}
    (hst : status.Terminal) (he : w.Entitled lim t (w.pend t)) (hf : w.Fresh)
    (hn : ¬ w.db.Ended id status) (hend : (w.view t).Ended id status) :
    w.pend t = [.updateOutbox id status none] := by
  obtain ⟨o, ho, hid, hs⟩ := hend
  have hfresh : ∀ x ∈ w.pend t, x.Fresh w.db := hf t
  unfold World.view at ho
  generalize w.pend t = ws at he hfresh ho
  cases he with
  | @register _ row x _ _ _ _ hx =>
    have hnew := (hfresh (.insertOutbox x) (by simp)).1
    rcases (Db.mem_outbox_create (Table.find_none.mpr hnew)).mp ho with ho | rfl
    · exact absurd ⟨o, ho, hid, hs⟩ hn
    · rw [hs] at hx
      exact absurd hx hst.ne_pending
  | @settle _ _ _ _ _ _ x _ _ _ _ _ _ _ _ hx =>
    have hnew := (hfresh (.insertOutbox x) (by simp)).1
    rcases (Db.mem_outbox_settle (Table.find_none.mpr hnew)).mp ho with ho | rfl
    · exact absurd ⟨o, ho, hid, hs⟩ hn
    · rw [hs] at hx
      exact absurd hx hst.ne_pending
  | confirm | bury =>
    rcases Db.mem_outbox_mark.mp ho with ⟨ho, _⟩ | ⟨y, _, hy, rfl⟩
    · exact absurd ⟨o, ho, hid, hs⟩ hn
    · rw [← hid, ← hs]
      exact congrArg (fun i => [Write.updateOutbox i _ none]) hy.symm

section

variable [Externals] {lim : Limits} {c c' : Config World Op Op.Res Exc Reply} {t : Tid}
  {r : PaymentRow} {o : OutboxRow}

/-- A run that brings an event to an end state does so in a step of a thread that is entitled
to it. -/
theorem ended_step {id : UUID} {status : TaskStatus} (h : Reachable lim c)
    (hst : status.Terminal) (h' : (service lim).Reach (fun _ _ => True) c c')
    (hn : ¬ c.shared.db.Ended id status) (hend : c'.shared.db.Ended id status) :
    ∃ c₁ k t, (service lim).Reach (fun _ _ => True) c c₁ ∧
      c₁.threads t = some (.call .commit k) ∧
      c₁.shared.Entitled lim t [.updateOutbox id status none] ∧
      (service lim).Reach (fun _ _ => True) c₁ c' := by
  obtain ⟨c₁, m, c₂, h₁, hs, hn, hend, h₂⟩ := h'.onset
    (P := fun c => c.shared.db.Ended id status) hn hend
  have hr₁ := h.trans h₁
  rcases step_ledger hs with ⟨_, hdb⟩ | ⟨t, _, k, _, ht, _, hdb⟩
  · exact absurd (hdb ▸ hend) hn
  · have hdue : c₁.shared.Entitled lim t (c₁.shared.pend t) := due_reach hr₁ ht
    have hpend := ended_by_mark hst hdue (fresh_reach hr₁) hn (hdb ▸ hend)
    exact ⟨c₁, k, t, h₁, ht, hpend ▸ hdue, (Sys.Reach.init.step trivial hs).trans h₂⟩

/-- When the thread that has settled a payment is gone and has not confirmed the created event,
nobody ever will: no delivery, retry or poll can settle the payment again. -/
theorem orphan_never_confirmed (h : Reachable lim c) (hr : r ∈ c.shared.db.payments.rows)
    (hset : r.status ≠ .pending) (ho : o ∈ c.shared.db.outbox.rows) (hc : r.Created o)
    (hs : o.status ≠ .confirmed)
    (hgone : ∀ t status now x, (t, .committed [.updatePayment r.id status now, .insertOutbox x]) ∈
      c.shared.trace → c.threads t = none)
    (h' : (service lim).Reach (fun _ _ => True) c c') :
    ∀ o' ∈ c'.shared.db.outbox.rows, o'.id = o.id → o'.status ≠ .confirmed := by
  intro o' ho' hid' hs'
  have hn : ¬ c.shared.db.Ended o.id .confirmed := by
    rintro ⟨x, hx, hxid, hxs⟩
    exact hs (Table.eq_of_key hx ho hxid ▸ hxs)
  obtain ⟨c₁, k, t, h₁, ht, he, _⟩ := ended_step h (.inl rfl) h' hn ⟨o', ho', hid', hs'⟩
  have hr₁ := h.trans h₁
  obtain ⟨o₁, ho₁, hev⟩ := (reach_grows h h₁).event o ho
  obtain ⟨hid, hq, hp, _⟩ := hev.same
  have hc₁ : r.Created o₁ := ⟨hq.trans hc.1, hp.trans hc.2⟩
  obtain ⟨status, now, x, hm⟩ := confirmed_by_settler (reachable_holds hr₁).inv ho₁ hc₁ (hid ▸ he)
  by_cases hold : (t, Obs.committed [.updatePayment r.id status now, .insertOutbox x]) ∈ c.shared.trace
  · -- the thread that settled the payment has ended
    have hlt : t < c.next := trace_numbered h _ hold
    have hnone := (idle_told (o := .acked) (hgone t status now x hold) hlt h₁).2.1
    rw [hnone] at ht
    cases ht
  · -- a settled payment is not settled again
    obtain ⟨c₂, _, _, h₂, _, _, _, he₂, _⟩ := committed_step h h₁ hold hm
    have hr₂ := h.trans h₂
    have hsame := (reach_grows h h₂).settled hr hset
    generalize hwid : r.id = id at he₂
    cases he₂ with
    | settle _ _ _ hrow _ hpend =>
      exact hset (Table.eq_of_key hrow hsame hwid.symm ▸ hpend)

end

/-- The handler of a created event crashes after it has settled the payment. -/
def orphanedRun : Schedule :=
  createRun 0 (uid 1) (uid 10) (uid 11) ++ [.start (.deliver 0), .run 1 .ok] ++ claimRun 1 ++
    oks 1 2 ++ [.run 1 (.coin true)] ++ stamps 1 (uid 12) ++ oks 1 5 ++ [.kill 1]

/-- The message is delivered again, and its handler ends without an error. -/
def redeliveredRun : Schedule :=
  [.env (.requeue 1), .start (.deliver 0), .run 2 .ok] ++ claimRun 2 ++ oks 2 2 ++
    [.run 2 (.coin true)] ++ oks 2 3 ++ [.exit 2]

set_option maxRecDepth 20000 in
theorem orphanedRun_some : (after {} orphanedRun).isSome = true := by decide +kernel

/-- The payment is settled, and its created event is still pending. -/
def orphaned : Config World Op Op.Res Exc Reply := (after {} orphanedRun).get orphanedRun_some

set_option maxRecDepth 20000 in
theorem redeliveredRun_some : (follow {} redeliveredRun orphaned).isSome = true := by decide +kernel

set_option maxRecDepth 20000 in
theorem orphan_never_confirmed_redelivered : ∃ r ∈ orphaned.shared.db.payments.rows,
    r.status = .confirmed ∧ ∃ o, r.Created o ∧
      ∃ c', (sampleService {}).Reach (fun _ _ => True) orphaned c' ∧
        (2, .acked) ∈ c'.shared.trace ∧
        ∀ o' ∈ c'.shared.db.outbox.rows, o'.id = o.id → o'.status ≠ .confirmed := by
  have hr : @Reachable sample {} orphaned := reachable_after orphanedRun_some
  have hquiet : ∀ t, orphaned.threads t = none :=
    @quiet_of_started sample {} _ hr (by decide +kernel)
  obtain ⟨r, hrow, hst⟩ : ∃ r ∈ orphaned.shared.db.payments.rows, r.status = .confirmed := by
    decide +kernel
  have hpend : ∀ o ∈ orphaned.shared.db.outbox.rows, o.status ≠ .confirmed := by decide +kernel
  obtain ⟨o, ho, hc, _⟩ := (@reachable_holds sample _ _ hr).inv.agree.created r hrow
  have hacks : acks 2 ((follow {} redeliveredRun orphaned).get redeliveredRun_some).shared.trace =
      true := by
    decide +kernel
  have hreach := reach_of_follow (Option.some_get redeliveredRun_some).symm
  refine ⟨r, hrow, hst, o, hc, _, hreach, mem_of_acks hacks, ?_⟩
  exact @orphan_never_confirmed sample _ _ _ _ _ hr hrow (by simp [hst]) ho hc (hpend o ho)
    (fun t _ _ _ _ => hquiet t) hreach

end Payments
