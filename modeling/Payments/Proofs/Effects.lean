import Payments.Proofs.Ledger

namespace Payments

open Lib

namespace World

variable {lim : Limits} {t : Tid} {op : Op} {ch : Choice} {w w' : World}

/-- An effect fails without effect, fails although it took effect, or answers. -/
theorem exec_cases {r : Except Exc op.Res} (h : exec lim t op ch w = some (r, w')) :
    (∃ e, ch = .fault e ∧ op.Raises e = true ∧ r = .error e ∧ w' = w.failed t op) ∨
      (∃ e, ch = .lost e ∧ op.Raises e = true ∧ r = .error e ∧ w.lost t lim op = some w') ∨
      w.answer t lim ch op = some (r, w') := by
  unfold exec at h
  split at h
  · rename_i e
    split at h
    · rename_i he
      cases h
      exact .inl ⟨e, rfl, he, rfl, rfl⟩
    · cases h
  · rename_i e
    split at h
    · rename_i he
      obtain ⟨w₁, hl, hp⟩ := Option.map_eq_some_iff.mp h
      cases hp
      exact .inr (.inl ⟨e, rfl, he, rfl, hl⟩)
    · cases h
  · exact .inr (.inr h)

theorem select_payment {p : PaymentRow → Bool} {row : Option PaymentRow}
    (h : w.selectPayment t p = (row, w')) :
    (row = none ∧ w' = w ∧ ∀ r ∈ (w.view t).payments.rows, p r = true → ¬ w.Free t (.payment r.id)) ∨
      ∃ r, row = some r ∧ r ∈ (w.view t).payments.rows ∧ p r = true ∧ w.Free t (.payment r.id) ∧
        w' = w.hold t [.payment r.id] := by
  unfold selectPayment at h
  split at h
  · rename_i r hr
    cases h
    have hp := List.find?_some hr
    simp only [decide_eq_true_eq] at hp
    exact .inr ⟨r, rfl, List.mem_of_find?_eq_some hr, hp.1, hp.2, rfl⟩
  · rename_i hn
    cases h
    refine .inl ⟨rfl, rfl, fun r hr hp hf => ?_⟩
    have := List.find?_eq_none.mp hn r hr
    simp [hp, hf] at this

theorem select_outbox {id : UUID} {p : OutboxRow → Bool} {r : Option UUID}
    (h : w.selectOutbox t id p = (r, w')) :
    (r = none ∧ w' = w ∧ ∀ o ∈ (w.view t).outbox.rows, o.id = id → p o = true →
        ¬ w.Free t (.outbox id)) ∨
      ∃ o, o ∈ (w.view t).outbox.rows ∧ o.id = id ∧ p o = true ∧ w.Free t (.outbox id) ∧
        r = some id ∧ w' = w.hold t [.outbox id] := by
  unfold selectOutbox at h
  split at h
  · rename_i o ho
    obtain ⟨hm, hid⟩ := Table.find_some.mp ho
    split at h
    · rename_i hp
      cases h
      exact .inr ⟨o, hm, hid, hp.1, hp.2, rfl, rfl⟩
    · rename_i hp
      cases h
      refine .inl ⟨rfl, rfl, fun x hx hxi hpx hf => hp ⟨?_, hf⟩⟩
      rwa [Table.eq_of_key hx hm (hxi.trans hid.symm)] at hpx
  · rename_i hn
    cases h
    exact .inl ⟨rfl, rfl, fun x hx hxi => absurd hxi (Table.find_none.mp hn x hx)⟩

/-- What an effect can do: its answer to a choice and the state it leaves. -/
inductive Does (lim : Limits) (t : Tid) (w : World) :
    (op : Op) → Choice → Except Exc op.Res → World → Prop where
  | fault {op : Op} {e : Exc} (he : op.Raises e = true) :
      Does lim t w op (.fault e) (.error e) (w.failed t op)
  | lostCommit {e : Exc} (he : Op.commit.Raises e = true) :
      Does lim t w .commit (.lost e) (.error e) (w.commit t)
  | lostPublish {x k : String} {m : Message} {e : Exc} (he : (Op.publish x k m).Raises e = true) :
      Does lim t w (.publish x k m) (.lost e) (.error e) (w.accept t lim x k m)
  | lockPayment {id : UUID} {r : PaymentRow} (hr : r ∈ (w.view t).payments.rows) (hid : r.id = id)
      (hf : w.Free t (.payment r.id)) :
      Does lim t w (.selectPaymentById id) .ok (.ok (some r)) (w.hold t [.payment r.id])
  | skipPayment {id : UUID}
      (hn : ∀ r ∈ (w.view t).payments.rows, r.id = id → ¬ w.Free t (.payment r.id)) :
      Does lim t w (.selectPaymentById id) .ok (.ok none) w
  | lockKey {key : UUID} {r : PaymentRow} (hr : r ∈ (w.view t).payments.rows)
      (hk : r.idempotencyKey = key) (hf : w.Free t (.payment r.id)) :
      Does lim t w (.selectPaymentByKey key) .ok (.ok (some r)) (w.hold t [.payment r.id])
  | skipKey {key : UUID}
      (hn : ∀ r ∈ (w.view t).payments.rows, r.idempotencyKey = key → ¬ w.Free t (.payment r.id)) :
      Does lim t w (.selectPaymentByKey key) .ok (.ok none) w
  | readKey {key : UUID} {r : PaymentRow} (hr : r ∈ (w.view t).payments.rows)
      (hk : r.idempotencyKey = key) :
      Does lim t w (.selectPaymentIdByKey key) .ok (.ok (some r.id)) w
  | missKey {key : UUID} (hn : ∀ r ∈ (w.view t).payments.rows, r.idempotencyKey ≠ key) :
      Does lim t w (.selectPaymentIdByKey key) .ok (.ok none) w
  | refusePayment {values : PaymentValues} {e : Exc} (hv : values.toRow = .error e) :
      Does lim t w (.insertPayment values) .ok (.error e) w
  | conflict {values : PaymentValues} {row r : PaymentRow} (hv : values.toRow = .ok row)
      (hr : r ∈ (w.view t).payments.rows)
      (hk : r.id = row.id ∨ r.idempotencyKey = row.idempotencyKey) :
      Does lim t w (.insertPayment values) .ok (.error .integrity) w
  | insertPayment {values : PaymentValues} {row : PaymentRow} (hv : values.toRow = .ok row)
      (hn : ∀ r ∈ (w.view t).payments.rows,
        r.id ≠ row.id ∧ r.idempotencyKey ≠ row.idempotencyKey)
      (hf : ∀ x ∈ (Write.insertPayment row).resources, w.Free t x) :
      Does lim t w (.insertPayment values) .ok (.ok ()) (w.write t [.insertPayment row])
  | refuseOutbox {events : List SerializedEvent} {e : Exc}
      (hv : events.mapM SerializedEvent.toRow = .error e) :
      Does lim t w (.insertOutbox events) .ok (.error e) w
  | insertOutbox {events : List SerializedEvent} {rows : List OutboxRow}
      (hv : events.mapM SerializedEvent.toRow = .ok rows)
      (hf : ∀ o ∈ rows.filter (fun o => ((w.view t).outbox.find? o.id).isNone),
        w.Free t (.outbox o.id)) :
      Does lim t w (.insertOutbox events) .ok (.ok ()) (w.write t
        ((rows.filter (fun o => ((w.view t).outbox.find? o.id).isNone)).map .insertOutbox))
  | missPayment {id : UUID} {status : PaymentStatus} {processedAt : DateTime}
      (hn : (w.view t).payments.find? id = none) :
      Does lim t w (.updatePayment id status processedAt) .ok (.ok none) w
  | updatePayment {id : UUID} {status : PaymentStatus} {processedAt : DateTime} {r : PaymentRow}
      (hr : (w.view t).payments.find? id = some r) (hf : w.Free t (.payment id)) :
      Does lim t w (.updatePayment id status processedAt) .ok (.ok (some id))
        (w.write t [.updatePayment id status processedAt])
  | lockEvent {id : UUID} {o : OutboxRow} (ho : o ∈ (w.view t).outbox.rows) (hid : o.id = id)
      (hf : w.Free t (.outbox id)) :
      Does lim t w (.selectOutboxId id) .ok (.ok (some id)) (w.hold t [.outbox id])
  | skipEvent {id : UUID}
      (hn : ∀ o ∈ (w.view t).outbox.rows, o.id = id → ¬ w.Free t (.outbox id)) :
      Does lim t w (.selectOutboxId id) .ok (.ok none) w
  | pendings {limit offset : Nat} {ids : List UUID} (hs : Sorted (w.pendings t) ids) :
      Does lim t w (.selectPendings limit offset) (.order ids)
        (.ok (named (w.pendings t) ((ids.drop offset).take limit)))
        (w.hold t ((ids.take (offset + limit)).map .outbox))
  | claim {id : UUID} {o : OutboxRow} (ho : o ∈ (w.view t).outbox.rows) (hid : o.id = id)
      (hp : o.status = .pending) (hf : w.Free t (.outbox id)) :
      Does lim t w (.selectPendingId id) .ok (.ok (some id))
        ((w.hold t [.outbox id]).note t (.claimed id))
  | skipClaim {id : UUID} (hn : ∀ o ∈ (w.view t).outbox.rows, o.id = id →
        o.status = .pending → ¬ w.Free t (.outbox id)) :
      Does lim t w (.selectPendingId id) .ok (.ok none) w
  | missEvent {id : UUID} {status : TaskStatus} {handledAt : Option DateTime}
      (hn : (w.view t).outbox.find? id = none) :
      Does lim t w (.updateOutbox id status handledAt) .ok (.ok ()) w
  | updateOutbox {id : UUID} {status : TaskStatus} {handledAt : Option DateTime} {o : OutboxRow}
      (ho : (w.view t).outbox.find? id = some o) (hf : w.Free t (.outbox id)) :
      Does lim t w (.updateOutbox id status handledAt) .ok (.ok ())
        (w.write t [.updateOutbox id status handledAt])
  | flush : Does lim t w .flush .ok (.ok ()) w
  | commit : Does lim t w .commit .ok (.ok ()) (w.commit t)
  | rollback : Does lim t w .rollback .ok (.ok ()) (w.drop t)
  | close : Does lim t w .close .ok (.ok ()) (w.drop t)
  | uuid4 {u : UUID} (hu : w.Unused u) :
      Does lim t w .uuid4 (.uuid u) (.ok u) (w.draw t u)
  | now {now : DateTime} : Does lim t w .now (.time now) (.ok now) w
  | random {b : Bool} : Does lim t w .random (.coin b) (.ok b) w
  | connect : Does lim t w .connect .ok (.ok ()) w
  | publish {x k : String} {m : Message} :
      Does lim t w (.publish x k m) .ok (.ok ()) (w.accept t lim x k m)
  | send {url : String} {payload : List (String × PyVal)} {timeout : Nat} :
      Does lim t w (.send url payload timeout) .ok (.ok ()) (w.note t (.posted url payload))
  | enter {event : UUID} : Does lim t w (.enter event) .ok (.ok ()) (w.note t (.entered event))
  | ack : Does lim t w .ack .ok (.ok ()) (w.ackDelivery t)

section Inversion

variable {r : Except Exc op.Res}

theorem does_insert_payment {values : PaymentValues} {r : Except Exc Unit}
    (h : w.insertPayment t values = some (r, w')) :
    Does lim t w (.insertPayment values) .ok r w' := by
  unfold insertPayment at h
  split at h
  · rename_i e hv
    cases h
    exact .refusePayment hv
  · rename_i row hv
    split at h
    · rename_i hc
      obtain ⟨x, hx, hk⟩ := List.any_eq_true.mp hc
      cases h
      exact .conflict hv hx (by simpa using hk)
    · rename_i hc
      split at h
      · rename_i hf
        cases h
        refine .insertPayment hv (fun x hx => ?_) (fun x hx => ?_)
        · exact not_or.mp (fun hk => hc (List.any_eq_true.mpr ⟨x, hx, by simpa using hk⟩))
        · simpa using List.all_eq_true.mp hf x hx
      · cases h

theorem does_insert_outbox {events : List SerializedEvent} {r : Except Exc Unit}
    (h : w.insertOutbox t events = some (r, w')) :
    Does lim t w (.insertOutbox events) .ok r w' := by
  unfold insertOutbox at h
  split at h
  · rename_i e hv
    cases h
    exact .refuseOutbox hv
  · rename_i rows hv
    simp only at h
    split at h
    · rename_i hf
      cases h
      exact .insertOutbox hv (fun x hx => by simpa using List.all_eq_true.mp hf x hx)
    · cases h

theorem does_update_payment {id : UUID} {status : PaymentStatus} {processedAt : DateTime}
    {r : Except Exc (Option UUID)} (h : w.updatePayment t id status processedAt = some (r, w')) :
    Does lim t w (.updatePayment id status processedAt) .ok r w' := by
  unfold updatePayment at h
  split at h
  · rename_i hn
    cases h
    exact .missPayment hn
  · rename_i hr
    split at h
    · rename_i hf
      cases h
      exact .updatePayment hr hf
    · cases h

theorem does_update_outbox {id : UUID} {status : TaskStatus} {handledAt : Option DateTime}
    {r : Except Exc Unit} (h : w.updateOutbox t id status handledAt = some (r, w')) :
    Does lim t w (.updateOutbox id status handledAt) .ok r w' := by
  unfold updateOutbox at h
  split at h
  · rename_i hn
    cases h
    exact .missEvent hn
  · rename_i ho
    split at h
    · rename_i hf
      cases h
      exact .updateOutbox ho hf
    · cases h

theorem does_select_pending {id : UUID} {x : Option UUID}
    (h : w.selectPendingId t id = (x, w')) :
    Does lim t w (.selectPendingId id) .ok (.ok x) w' := by
  unfold selectPendingId at h
  split at h
  · rename_i y v hs
    cases h
    rcases select_outbox hs with ⟨h, _⟩ | ⟨o, ho, hid, hp, hf, hy, rfl⟩
    · cases h
    · cases hy
      exact .claim ho hid (by simpa using hp) hf
  · rename_i v hs
    cases h
    rcases select_outbox hs with ⟨_, rfl, hn⟩ | ⟨_, _, _, _, _, h, _⟩
    · exact .skipClaim (fun o ho hid hp => hn o ho hid (by simpa using hp))
    · cases h

theorem answered_eq {α : Type} {x : α × World} {r : Except Exc α}
    (h : answered x = some (r, w')) : Except.ok x.1 = r ∧ x.2 = w' := by
  cases h
  exact ⟨rfl, rfl⟩

theorem whenOk_eq {α : Type} {x : Option (Except Exc α × World)} {y : Except Exc α × World}
    (h : whenOk ch x = some y) : ch = .ok ∧ x = some y := by
  cases ch <;> simp_all [whenOk]

theorem whenOk_answered {α : Type} {x : α × World} {r : Except Exc α}
    (h : whenOk ch (answered x) = some (r, w')) : ch = .ok ∧ Except.ok x.1 = r ∧ x.2 = w' :=
  ⟨(whenOk_eq h).1, answered_eq (whenOk_eq h).2⟩

theorem answer_does (h : w.answer t lim ch op = some (r, w')) : Does lim t w op ch r w' := by
  cases op <;> simp only [answer] at h
  case selectPaymentById id =>
    obtain ⟨rfl, rfl, rfl⟩ := whenOk_answered h
    rcases hs : w.selectPayment t (fun r => r.id = id) with ⟨row, v⟩
    rcases select_payment hs with ⟨rfl, rfl, hn⟩ | ⟨x, rfl, hx, hp, hf, rfl⟩
    · exact .skipPayment (fun x hx hid => hn x hx (by simpa using hid))
    · exact .lockPayment hx (by simpa using hp) hf
  case selectPaymentByKey key =>
    obtain ⟨rfl, rfl, rfl⟩ := whenOk_answered h
    rcases hs : w.selectPayment t (fun r => r.idempotencyKey = key) with ⟨row, v⟩
    rcases select_payment hs with ⟨rfl, rfl, hn⟩ | ⟨x, rfl, hx, hp, hf, rfl⟩
    · exact .skipKey (fun x hx hid => hn x hx (by simpa using hid))
    · exact .lockKey hx (by simpa using hp) hf
  case selectPaymentIdByKey key =>
    obtain ⟨rfl, rfl, rfl⟩ := whenOk_answered h
    cases hs : (w.view t).payments.rows.find? (fun r => r.idempotencyKey = key) with
    | none => exact .missKey (fun x hx => by simpa using List.find?_eq_none.mp hs x hx)
    | some x =>
      exact .readKey (List.mem_of_find?_eq_some hs) (by simpa using List.find?_some hs)
  case insertPayment =>
    obtain ⟨rfl, h⟩ := whenOk_eq h
    exact does_insert_payment h
  case updatePayment =>
    obtain ⟨rfl, h⟩ := whenOk_eq h
    exact does_update_payment h
  case insertOutbox =>
    obtain ⟨rfl, h⟩ := whenOk_eq h
    exact does_insert_outbox h
  case selectOutboxId id =>
    obtain ⟨rfl, rfl, rfl⟩ := whenOk_answered h
    rcases hs : w.selectOutbox t id (fun _ => true) with ⟨x, v⟩
    rcases select_outbox hs with ⟨rfl, rfl, hn⟩ | ⟨o, ho, hid, _, hf, rfl, rfl⟩
    · exact .skipEvent (fun o ho hid => hn o ho hid rfl)
    · exact .lockEvent ho hid hf
  case selectPendings =>
    split at h
    · split at h
      · rename_i hs
        obtain ⟨rfl, rfl⟩ := answered_eq h
        exact .pendings hs
      · cases h
    · cases h
  case selectPendingId id =>
    obtain ⟨rfl, rfl, rfl⟩ := whenOk_answered h
    exact does_select_pending rfl
  case updateOutbox =>
    obtain ⟨rfl, h⟩ := whenOk_eq h
    exact does_update_outbox h
  case uuid4 =>
    split at h
    · split at h
      · rename_i hu
        obtain ⟨rfl, rfl⟩ := answered_eq h
        exact .uuid4 hu
      · cases h
    · cases h
  case now =>
    split at h
    · obtain ⟨rfl, rfl⟩ := answered_eq h
      exact .now
    · cases h
  case random =>
    split at h
    · obtain ⟨rfl, rfl⟩ := answered_eq h
      exact .random
    · cases h
  case send =>
    split at h
    · obtain ⟨rfl, rfl, rfl⟩ := whenOk_answered h
      exact .send
    · cases h
  all_goals
    obtain ⟨rfl, rfl, rfl⟩ := whenOk_answered h
    constructor

/-- What an effect does, whatever the choice. -/
theorem exec_does (h : exec lim t op ch w = some (r, w')) : Does lim t w op ch r w' := by
  rcases exec_cases h with ⟨e, rfl, he, rfl, rfl⟩ | ⟨e, rfl, he, rfl, hl⟩ | ha
  · exact .fault he
  · cases op <;> simp only [lost, reduceCtorEq] at hl <;> cases hl
    · exact .lostCommit he
    · exact .lostPublish he
  · exact answer_does ha

end Inversion

section Frame

variable {r : Except Exc op.Res}

theorem free_hold {rs : List Resource} {x : Resource} (h : w.Free t x) :
    (w.hold t rs).Free t x := by
  simp only [Free, hold_lock]
  split
  · exact .inr rfl
  · exact h

theorem free_write {ws : List Write} {x : Resource} (h : w.Free t x) :
    (w.write t ws).Free t x :=
  @free_hold t w (ws.flatMap Write.resources) x h

theorem free_drop {x : Resource} (h : w.Free t x) : (w.drop t).Free t x := by
  simp only [Free, drop_lock]
  split
  · exact .inl rfl
  · exact h

/-- No effect of a thread keeps it from what it could lock before. -/
theorem does_free (h : Does lim t w op ch r w') {x : Resource} (hx : w.Free t x) :
    w'.Free t x := by
  cases h with
  | fault =>
    cases op <;> first
      | exact hx
      | exact free_drop hx
  | lockPayment | lockKey | lockEvent | pendings | claim => exact free_hold hx
  | insertPayment | insertOutbox | updatePayment | updateOutbox => exact free_write hx
  | commit | lostCommit | rollback | close => exact free_drop hx
  | _ => exact hx

/-- A thread locks for itself only. -/
theorem does_lock (h : Does lim t w op ch r w') {x : Resource} {u : Tid}
    (hx : w'.lock x = some u) : w.lock x = some u ∨ u = t := by
  have hhold : ∀ rs, (w.hold t rs).lock x = some u → w.lock x = some u ∨ u = t := by
    intro rs hx
    simp only [hold_lock] at hx
    split at hx
    · exact .inr (Option.some.inj hx).symm
    · exact .inl hx
  have hdrop : (w.drop t).lock x = some u → w.lock x = some u ∨ u = t := by
    intro hx
    simp only [drop_lock] at hx
    split at hx
    · cases hx
    · exact .inl hx
  cases h with
  | fault =>
    cases op <;> first
      | exact .inl hx
      | exact hdrop hx
  | lockPayment | lockKey | lockEvent | pendings | claim => exact hhold _ hx
  | insertPayment | insertOutbox | updatePayment | updateOutbox => exact hhold _ hx
  | commit | lostCommit | rollback | close => exact hdrop hx
  | _ => exact .inl hx

/-- Only a commit changes the committed tables. -/
theorem does_db (h : Does lim t w op ch r w') (ho : op ≠ .commit) : w'.db = w.db := by
  cases h with
  | fault => cases op <;> rfl
  | commit | lostCommit => exact absurd rfl ho
  | _ => rfl

/-- What can be seen of an effect. -/
def Shows : Op → Obs → Prop
  | .selectPendingId id, .claimed event => event = id
  | .enter id, .entered event => event = id
  | .commit, .committed _ => True
  | .publish x k m, .accepted x' k' m' => x' = x ∧ k' = k ∧ m' = m
  | .send url payload _, .posted url' payload' => url' = url ∧ payload' = payload
  | .ack, .acked => True
  | _, _ => False

theorem does_trace (h : Does lim t w op ch r w') :
    w'.trace = w.trace ∨ ∃ o, Shows op o ∧ w'.trace = (t, o) :: w.trace := by
  cases h with
  | fault =>
    cases op with
    | send url payload timeout => exact .inr ⟨.posted url payload, ⟨rfl, rfl⟩, rfl⟩
    | _ => exact .inl rfl
  | commit | lostCommit => exact .inr ⟨.committed (w.pend t), trivial, rfl⟩
  | publish | lostPublish => exact .inr ⟨.accepted _ _ _, ⟨rfl, rfl, rfl⟩, rfl⟩
  | claim => exact .inr ⟨.claimed _, rfl, rfl⟩
  | send => exact .inr ⟨.posted _ _, ⟨rfl, rfl⟩, rfl⟩
  | enter => exact .inr ⟨.entered _, rfl, rfl⟩
  | ack => exact .inr ⟨.acked, trivial, rfl⟩
  | _ => exact .inl rfl

/-- What an effect adds to the open transaction. -/
def Writes : Op → Write → Prop
  | .insertPayment values, .insertPayment row => values.toRow = .ok row
  | .updatePayment id status processedAt, x => x = .updatePayment id status processedAt
  | .insertOutbox events, .insertOutbox o =>
    ∃ rows, events.mapM SerializedEvent.toRow = .ok rows ∧ o ∈ rows
  | .updateOutbox id status handledAt, x => x = .updateOutbox id status handledAt
  | _, _ => False

/-- A change of an open transaction is an old one, or one that the effect adds. -/
theorem does_pend (h : Does lim t w op ch r w') {u : Tid} {x : Write} (hx : x ∈ w'.pend u) :
    x ∈ w.pend u ∨ u = t ∧ Writes op x := by
  have hdrop : x ∈ (w.drop t).pend u → x ∈ w.pend u := by
    intro hx
    by_cases hu : u = t
    · subst hu
      simp at hx
    · simpa [Function.update_of_ne hu] using hx
  have hwrite : ∀ ws, x ∈ (w.write t ws).pend u → x ∈ w.pend u ∨ u = t ∧ x ∈ ws := by
    intro ws hx
    by_cases hu : u = t
    · subst hu
      rcases List.mem_append.mp (by simpa using hx) with hx | hx
      · exact .inl hx
      · exact .inr ⟨rfl, hx⟩
    · exact .inl (by simpa [Function.update_of_ne hu] using hx)
  cases h with
  | fault =>
    cases op <;> first
      | exact .inl hx
      | exact .inl (hdrop hx)
  | commit | lostCommit | rollback | close => exact .inl (hdrop hx)
  | insertPayment hv =>
    refine (hwrite _ hx).imp_right (And.imp_right (fun hx => ?_))
    rw [List.mem_singleton.mp hx]
    exact hv
  | insertOutbox hv =>
    refine (hwrite _ hx).imp_right (And.imp_right (fun hx => ?_))
    obtain ⟨o, ho, rfl⟩ := List.mem_map.mp hx
    exact ⟨_, hv, (List.mem_filter.mp ho).1⟩
  | updatePayment | updateOutbox =>
    exact (hwrite _ hx).imp_right (And.imp_right (fun hx => List.mem_singleton.mp hx))
  | _ => exact .inl hx

end Frame

end World

end Payments
