import Payments.Proofs.Scenarios

namespace Payments

open Lib

/-- The stored event is in the queue of a class and carries the identifier of a payment. -/
def OutboxRow.Reports (o : OutboxRow) (queue : String) (id : UUID) : Prop :=
  o.queue = queue ∧ o.Names id

theorem body_inj {o o' : OutboxRow} (h : o.body = o'.body) :
    o.queue = o'.queue ∧ o.payload = o'.payload := by
  simp only [OutboxRow.body, Json.obj.injEq, List.cons.injEq, Prod.mk.injEq, Json.str.injEq] at h
  exact ⟨h.2.2.1.2, h.2.2.2.1.2⟩

/-- An event reports the same payment wherever its row is. -/
theorem OutboxRow.Reports.of_body {o o' : OutboxRow} {queue : String} {id : UUID}
    (h : o.Reports queue id) (hb : o.body = o'.body) : o'.Reports queue id := by
  obtain ⟨hq, hp⟩ := body_inj hb
  exact ⟨hq.symm.trans h.1, by simpa only [OutboxRow.Names, hp] using h.2⟩

/-- The payload of the stored event has the values of the payment. -/
structure OutboxRow.Matches (o : OutboxRow) (r : PaymentRow) : Prop where
  status : o.payload.text "status" = some r.status.value
  amount : ∃ text amount q, o.payload.text "amount" = some text ∧
    Decimal.parse text = some amount ∧ amount.num = some q ∧ r.amount.num = some q
  currency : o.payload.text "currency" = some r.currency.value
  webhookUrl : o.payload.text "webhook_url" = some r.webhookUrl

/-- What the tables say about one payment. -/
structure Db.Accounts (db : Db) (r : PaymentRow) : Prop where
  created : ∃! o, o ∈ db.outbox.rows ∧ o.Reports "payments.new" r.id
  stamped : r.status = .pending ↔ r.processedAt = none
  unprocessed : r.processedAt = none ↔
    ¬ ∃ o ∈ db.outbox.rows, o.Reports "payments.processed" r.id
  processed : r.status ≠ .pending →
    ∃! o, o ∈ db.outbox.rows ∧ o.Reports "payments.processed" r.id
  outcome : ∀ o ∈ db.outbox.rows, o.Reports "payments.processed" r.id → o.Matches r

theorem PaymentRow.Processed.matches {r : PaymentRow} {o : OutboxRow} (h : r.Processed o)
    (ha : ∃ neg coeff exp, r.amount = .finite neg coeff exp) : o.Matches r := by
  obtain ⟨_, reason, hp⟩ := h
  obtain ⟨hparse, q, hnum⟩ := amount_parses ha
  constructor
  · simp [hp, processedPayload, Json.text]
  · exact ⟨r.amount.str, r.amount, q, by simp [hp, processedPayload, Json.text], hparse, hnum, hnum⟩
  · simp [hp, processedPayload, Json.text]
  · simp [hp, processedPayload, Json.text]

/-- The agreement of the tables, payment by payment. -/
theorem Db.Agree.accounts {db : Db} (h : db.Agree) {r : PaymentRow}
    (hr : r ∈ db.payments.rows) : db.Accounts r := by
  have hreports : ∀ o ∈ db.outbox.rows, o.Reports "payments.processed" r.id →
      r.status ≠ .pending ∧ r.Processed o :=
    fun o ho hrep => h.processed_of_names ho hr hrep.1 hrep.2
  refine ⟨?_, h.stamped r hr, ?_, ?_,
    fun o ho hrep => (hreports o ho hrep).2.matches (h.amount r hr)⟩
  · obtain ⟨o, ho, hc, hu⟩ := h.created r hr
    refine ⟨o, ⟨ho, hc.1, hc.names⟩, fun o' ⟨ho', hq, hn⟩ => ?_⟩
    exact hu o' ho' (h.created_of_names ho' hr hq hn)
  · rw [← h.stamped r hr]
    constructor
    · rintro hs ⟨o, ho, hrep⟩
      exact (hreports o ho hrep).1 hs
    · intro hn
      by_contra hs
      obtain ⟨o, ho, hp, _⟩ := h.processed r hr hs
      exact hn ⟨o, ho, hp.1, hp.names⟩
  · intro hs
    obtain ⟨o, ho, hp, hu⟩ := h.processed r hr hs
    exact ⟨o, ⟨ho, hp.1, hp.names⟩, fun o' ⟨ho', hrep⟩ => hu o' ho' (hreports o' ho' hrep).2⟩

section

variable [Externals] {lim : Limits} {c c' : Config World Op Op.Res Exc Reply}

/-- The tables only grow along a run. -/
theorem reach_grows {allow : World → Move Op Choice Req Env → Prop} (h : Reachable lim c)
    (h' : (service lim).Reach allow c c') : c.shared.db.Grows c'.shared.db := by
  obtain ⟨n, hn⟩ := contract_valid.reach_rely (reachable_holds h)
    (h'.mono (fun _ _ _ => trivial))
  exact (hn n (Nat.le_refl n)).grows

/-- In every reachable state the payments agree with the outbox, and a settled payment keeps
its row, its status included, in every state that follows. -/
theorem payments_agree_with_outbox (h : Reachable lim c)
    (h' : (service lim).Reach (fun _ _ => True) c c') :
    ∀ r ∈ c.shared.db.payments.rows, c.shared.db.Accounts r ∧
      (r.status ≠ .pending → c'.shared.db.payments.find? r.id = some r) := by
  intro r hr
  refine ⟨(reachable_holds h).inv.agree.accounts hr, fun hs => ?_⟩
  exact Table.find_mem ((reach_grows h h').settled hr hs)

end

/-- A creation and a first delivery that settles the payment. -/
def settledRun : Schedule := createRun 0 (uid 1) (uid 10) (uid 11) ++ processRun 1 0 (uid 12)

set_option maxRecDepth 20000 in
theorem settledRun_some : (after {} settledRun).isSome = true := by decide +kernel

set_option maxRecDepth 20000 in
theorem payments_agree_with_outbox_settled : ∃ c, @Reachable sample {} c ∧
    ∃ r ∈ c.shared.db.payments.rows, r.status = .confirmed ∧ c.shared.db.Accounts r := by
  have hr := reachable_after settledRun_some
  refine ⟨_, hr, ?_⟩
  have hex : ∃ r ∈ ((after {} settledRun).get settledRun_some).shared.db.payments.rows,
      r.status = .confirmed := by decide +kernel
  obtain ⟨r, hm, hs⟩ := hex
  exact ⟨r, hm, hs, (@payments_agree_with_outbox sample _ _ _ hr .init r hm).1⟩

end Payments
