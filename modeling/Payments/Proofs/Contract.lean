import Payments.Lib.RelyGuarantee
import Payments.Proofs.Effects
import Payments.Proofs.Routing

namespace Payments

open Lib

/-- The message carries a committed event. -/
def Message.Carried (m : Message) (db : Db) : Prop := ∃ o ∈ db.outbox.rows, m.body = o.body

/-- The message in a queue carries a committed event of the kind that the handler at the end
of the queue expects. -/
def Carries (db : Db) (q : RabbitQueue) (m : Message) : Prop :=
  q.Returns ∧ ∃ o ∈ db.outbox.rows, m.body = o.body ∧
    (q.topic = "" ∨ o.queue = "payments." ++ q.topic)

/-- A notification tells what the row of a settled payment says. -/
def Truthful (db : Db) (url : String) (payload : List (String × PyVal)) : Prop :=
  ∃ r ∈ db.payments.rows, r.status ≠ .pending ∧ url = r.webhookUrl ∧
    payload.lookup "payment_id" = some (.str r.id.str) ∧
    payload.lookup "status" = some (.str r.status.value) ∧
    (r.status = .confirmed →
      (∃ text amount q, payload.lookup "amount" = some (.str text) ∧
        Decimal.parse text = some amount ∧ amount.num = some q ∧ r.amount.num = some q) ∧
      payload.lookup "currency" = some (.str r.currency.value))

namespace World

/-- What holds of every reachable state. -/
structure Inv (w : World) : Prop where
  agree : w.db.Agree
  sound : w.db.Sound
  version : ∀ u t, w.drawn u = some t → u.version = some 4
  locked : ∀ t, ∀ x ∈ w.pend t, ∀ r ∈ x.resources, w.lock r = some t
  payment : ∀ t row, .insertPayment row ∈ w.pend t → w.drawn row.id = some t
  event : ∀ t o, .insertOutbox o ∈ w.pend t → w.drawn o.id = some t
  ready : ∀ d ∈ w.ready, Carries w.db d.1 d.2
  unacked : ∀ d ∈ w.unacked, Carries w.db d.2.1 d.2.2
  delivered : ∀ t q m, (t, .delivered q m) ∈ w.trace → Carries w.db q m
  posted : ∀ t url payload, (t, .posted url payload) ∈ w.trace → Truthful w.db url payload

/-- The locks and the identifiers of a thread stay its own, and the tables only grow: what
others do, and what the thread does before it commits. -/
structure Keeps (t : Tid) (w w' : World) : Prop where
  lock : ∀ r, w.lock r = some t → w'.lock r = some t
  drawn : ∀ u, w.drawn u = some t → w'.drawn u = some t
  unusedPayment : ∀ u, w.drawn u = some t → w.db.payments.find? u = none →
    w'.db.payments.find? u = none
  unusedEvent : ∀ u, w.drawn u = some t → w.db.outbox.find? u = none → w'.db.outbox.find? u = none
  payment : ∀ r ∈ w.db.payments.rows, w.lock (.payment r.id) = some t → r ∈ w'.db.payments.rows
  event : ∀ o ∈ w.db.outbox.rows, w.lock (.outbox o.id) = some t → o ∈ w'.db.outbox.rows
  key : ∀ k, w.lock (.paymentKey k) = some t →
    (∀ r ∈ w.db.payments.rows, r.idempotencyKey ≠ k) →
    ∀ r ∈ w'.db.payments.rows, r.idempotencyKey ≠ k
  grows : w.db.Grows w'.db

/-- What a thread may assume of the steps of the others: its open transaction stays too. -/
structure Rely (t : Tid) (w w' : World) : Prop extends Keeps t w w' where
  pend : w'.pend t = w.pend t

/-- What a step promises: to the other threads what they rely on, and that the messages it
publishes carry events that were committed before. -/
structure Guar (t : Tid) (w w' : World) : Prop where
  others : ∀ u, t ≠ u → Rely u w w'
  published : ∃ new, w'.trace = new ++ w.trace ∧
    ∀ u x k m, (u, .accepted x k m) ∈ new → m.Carried w.db

/-- What an effect asks of the program that performs it. -/
def Obliged (lim : Limits) (t : Tid) (w : World) : Op → Prop
  | .insertPayment values => w.drawn values.id = some t
  | .insertOutbox events => ∀ e ∈ events, ∀ o, e.toRow = .ok o → w.drawn o.id = some t
  | .commit => w.db.Change (w.pend t)
  | .publish x k m => m.Carried w.db ∧ ∀ q ∈ route lim x k, Carries w.db q m
  | .send url payload _ => Truthful w.db url payload
  | _ => True

/-- The contract of the service. -/
def contract : Contract World where
  inv := Inv
  rely := Rely
  guar := Guar
  fresh := fun t w => w.pend t = []

theorem Keeps.refl (t : Tid) (w : World) : Keeps t w w where
  lock := fun _ h => h
  drawn := fun _ h => h
  unusedPayment := fun _ _ h => h
  unusedEvent := fun _ _ h => h
  payment := fun _ h _ => h
  event := fun _ h _ => h
  key := fun _ _ h => h
  grows := .refl _

theorem Keeps.trans {t : Tid} {w w' w'' : World} (h : Keeps t w w') (h' : Keeps t w' w'') :
    Keeps t w w'' where
  lock := fun r hl => h'.lock r (h.lock r hl)
  drawn := fun u hd => h'.drawn u (h.drawn u hd)
  unusedPayment := fun u hd hn => h'.unusedPayment u (h.drawn u hd) (h.unusedPayment u hd hn)
  unusedEvent := fun u hd hn => h'.unusedEvent u (h.drawn u hd) (h.unusedEvent u hd hn)
  payment := fun r hr hl => h'.payment r (h.payment r hr hl) (h.lock _ hl)
  event := fun o ho hl => h'.event o (h.event o ho hl) (h.lock _ hl)
  key := fun k hl hk => h'.key k (h.lock _ hl) (h.key k hl hk)
  grows := h.grows.trans h'.grows

theorem Rely.refl (t : Tid) (w : World) : Rely t w w := ⟨.refl t w, rfl⟩

theorem Rely.trans {t : Tid} {w w' w'' : World} (h : Rely t w w') (h' : Rely t w' w'') :
    Rely t w w'' :=
  ⟨h.toKeeps.trans h'.toKeeps, h'.pend.trans h.pend⟩

/-- A step that leaves the tables alone keeps what a thread has when it keeps its locks and
identifiers. -/
theorem Keeps.of_db_eq {t : Tid} {w w' : World} (hd : w'.db = w.db)
    (hl : ∀ r, w.lock r = some t → w'.lock r = some t)
    (hu : ∀ u, w.drawn u = some t → w'.drawn u = some t) : Keeps t w w' where
  lock := hl
  drawn := hu
  unusedPayment := fun _ _ h => hd ▸ h
  unusedEvent := fun _ _ h => hd ▸ h
  payment := fun _ h _ => hd ▸ h
  event := fun _ h _ => hd ▸ h
  key := fun _ _ h => hd ▸ h
  grows := hd ▸ .refl _

theorem Rely.of_db_eq {t : Tid} {w w' : World} (hd : w'.db = w.db) (hp : w'.pend t = w.pend t)
    (hl : ∀ r, w.lock r = some t → w'.lock r = some t)
    (hu : ∀ u, w.drawn u = some t → w'.drawn u = some t) : Rely t w w' :=
  ⟨.of_db_eq hd hl hu, hp⟩

end World

theorem Message.Carried.grows {m : Message} {db db' : Db} (h : m.Carried db)
    (hg : db.Grows db') : m.Carried db' := by
  obtain ⟨o, ho, hb⟩ := h
  obtain ⟨o', ho', he⟩ := hg.event o ho
  exact ⟨o', ho', hb.trans he.same.2.2.2.symm⟩

theorem Carries.grows {db db' : Db} {q : RabbitQueue} {m : Message} (h : Carries db q m)
    (hg : db.Grows db') : Carries db' q m := by
  obtain ⟨hr, o, ho, hb, ht⟩ := h
  obtain ⟨o', ho', he⟩ := hg.event o ho
  exact ⟨hr, o', ho', hb.trans he.same.2.2.2.symm, he.same.2.1.symm ▸ ht⟩

theorem Truthful.grows {db db' : Db} {url : String} {payload : List (String × PyVal)}
    (h : Truthful db url payload) (hg : db.Grows db') : Truthful db' url payload := by
  obtain ⟨r, hr, hs, h⟩ := h
  exact ⟨r, hg.settled hr hs, hs, h⟩

namespace World

variable {lim : Limits} {w : World} {t u : Tid}

section Hold

variable {rs : List Resource}

theorem hold_lock_kept (hf : ∀ r ∈ rs, w.Free t r) {r : Resource} {v : Tid}
    (h : w.lock r = some v) : (w.hold t rs).lock r = some v := by
  simp only [hold_lock]
  split
  · rename_i hr
    rcases hf r hr with h' | h'
    · rw [h'] at h
      cases h
    · rw [← h, h']
  · exact h

theorem Rely.hold (hf : ∀ r ∈ rs, w.Free t r) : Rely u w (w.hold t rs) :=
  .of_db_eq rfl rfl (fun _ h => hold_lock_kept hf h) (fun _ h => h)

theorem Inv.hold (h : w.Inv) (hf : ∀ r ∈ rs, w.Free t r) : (w.hold t rs).Inv :=
  { h with locked := fun v x hx r hr => hold_lock_kept hf (h.locked v x hx r hr) }

end Hold

section Note

variable {o : Obs}

theorem Rely.note : Rely u w (w.note t o) :=
  .of_db_eq rfl rfl (fun _ h => h) (fun _ h => h)

theorem Inv.note (h : w.Inv) (hd : ∀ q m, o = .delivered q m → Carries w.db q m)
    (hp : ∀ url payload, o = .posted url payload → Truthful w.db url payload) :
    (w.note t o).Inv :=
  { h with
    delivered := fun v q m hm => by
      rcases List.mem_cons.mp hm with he | hm
      · exact hd q m (Prod.mk.inj he).2.symm
      · exact h.delivered v q m hm
    posted := fun v url payload hm => by
      rcases List.mem_cons.mp hm with he | hm
      · exact hp url payload (Prod.mk.inj he).2.symm
      · exact h.posted v url payload hm }

end Note

section Write

variable {ws : List Payments.Write}

theorem Keeps.write (hf : ∀ x ∈ ws, ∀ r ∈ x.resources, w.Free t r) :
    Keeps u w (w.write t ws) := by
  refine .of_db_eq rfl (fun r h => ?_) (fun _ h => h)
  rw [write_lock]
  refine hold_lock_kept (fun r hr => ?_) h
  obtain ⟨x, hx, hr⟩ := List.mem_flatMap.mp hr
  exact hf x hx r hr

theorem Rely.write (hf : ∀ x ∈ ws, ∀ r ∈ x.resources, w.Free t r) (hu : t ≠ u) :
    Rely u w (w.write t ws) :=
  ⟨.write hf, by simp [Function.update_of_ne (Ne.symm hu)]⟩

theorem Inv.write (h : w.Inv) (hf : ∀ x ∈ ws, ∀ r ∈ x.resources, w.Free t r)
    (hp : ∀ row, .insertPayment row ∈ ws → w.drawn row.id = some t)
    (ho : ∀ o, .insertOutbox o ∈ ws → w.drawn o.id = some t) : (w.write t ws).Inv := by
  have hf' : ∀ r ∈ ws.flatMap Write.resources, w.Free t r := by
    intro r hr
    obtain ⟨x, hx, hr⟩ := List.mem_flatMap.mp hr
    exact hf x hx r hr
  refine { h with locked := ?_, payment := ?_, event := ?_ }
  · intro v x hx r hr
    rw [write_lock]
    simp only [write_pend] at hx
    by_cases hv : v = t
    · subst hv
      rcases List.mem_append.mp (by simpa using hx) with hx | hx
      · exact hold_lock_kept hf' (h.locked v x hx r hr)
      · simp only [hold_lock, List.mem_flatMap]
        rw [if_pos ⟨x, hx, hr⟩]
    · rw [Function.update_of_ne hv] at hx
      exact hold_lock_kept hf' (h.locked v x hx r hr)
  · intro v row hx
    simp only [write_pend] at hx
    by_cases hv : v = t
    · subst hv
      rcases List.mem_append.mp (by simpa using hx) with hx | hx
      · exact h.payment v row hx
      · exact hp row hx
    · rw [Function.update_of_ne hv] at hx
      exact h.payment v row hx
  · intro v o hx
    simp only [write_pend] at hx
    by_cases hv : v = t
    · subst hv
      rcases List.mem_append.mp (by simpa using hx) with hx | hx
      · exact h.event v o hx
      · exact ho o hx
    · rw [Function.update_of_ne hv] at hx
      exact h.event v o hx

end Write

section Drop

theorem drop_lock_other (hu : t ≠ u) {r : Resource} (h : w.lock r = some u) :
    (w.drop t).lock r = some u := by
  simp [h, Ne.symm hu]

theorem view_nil (h : w.pend t = []) : w.view t = w.db := by
  rw [view, h]
  rfl

theorem drop_pend_other (hu : t ≠ u) : (w.drop t).pend u = w.pend u := by
  simp [Function.update_of_ne (Ne.symm hu)]

theorem Rely.drop (hu : t ≠ u) : Rely u w (w.drop t) :=
  .of_db_eq rfl (drop_pend_other hu) (fun _ h => drop_lock_other hu h) (fun _ h => h)

theorem mem_drop_pend {v : Tid} {x : Payments.Write} (hx : x ∈ (w.drop t).pend v) :
    t ≠ v ∧ x ∈ w.pend v := by
  by_cases hv : v = t
  · subst hv
    simp at hx
  · rw [drop_pend_other (Ne.symm hv)] at hx
    exact ⟨Ne.symm hv, hx⟩

theorem Inv.drop (h : w.Inv) : (w.drop t).Inv :=
  { h with
    locked := fun v x hx r hr => by
      obtain ⟨hv, hx⟩ := mem_drop_pend hx
      exact drop_lock_other hv (h.locked v x hx r hr)
    payment := fun v row hx => h.payment v row (mem_drop_pend hx).2
    event := fun v o hx => h.event v o (mem_drop_pend hx).2 }

end Drop

/-- The effects of a thread leave the locks of the others alone. -/
theorem does_lock_kept {w' : World} {op : Op} {ch : Choice} {r : Except Exc op.Res}
    (h : Does lim t w op ch r w') (hu : u ≠ t) {x : Resource} (hl : w.lock x = some u) :
    w'.lock x = some u := by
  have hhold : ∀ rs, (∀ r ∈ rs, w.Free t r) → (w.hold t rs).lock x = some u :=
    fun rs hf => hold_lock_kept hf hl
  have hdrop : (w.drop t).lock x = some u := drop_lock_other (Ne.symm hu) hl
  cases h with
  | fault =>
    cases op <;> first
      | exact hl
      | exact hdrop
  | lockPayment _ _ hf | lockKey _ _ hf | lockEvent _ _ hf | claim _ _ _ hf =>
    exact hhold _ (fun r hr => by cases List.mem_singleton.mp hr; exact hf)
  | pendings hs =>
    refine hhold _ (fun x hx => ?_)
    obtain ⟨id, hid, rfl⟩ := List.mem_map.mp hx
    obtain ⟨o, ho, rfl⟩ := List.mem_map.mp (hs.1.subset (List.mem_of_mem_take hid))
    exact (by simpa using (List.mem_filter.mp ho).2 : _ ∧ _).2
  | insertPayment _ _ hf =>
    rw [write_lock]
    exact hhold _ (by simpa using hf)
  | insertOutbox _ hf =>
    rw [write_lock]
    refine hhold _ (fun x hx => ?_)
    obtain ⟨y, hy, hx⟩ := List.mem_flatMap.mp hx
    obtain ⟨o, ho, rfl⟩ := List.mem_map.mp hy
    cases List.mem_singleton.mp hx
    exact hf o ho
  | updatePayment _ hf | updateOutbox _ hf =>
    rw [write_lock]
    exact hhold _ (by simpa [Write.resources] using hf)
  | commit | lostCommit | rollback | close => exact hdrop
  | _ => exact hl

section Commit

theorem Rely.commit (h : w.Inv) (hg : w.db.Grows (w.view t)) (hu : t ≠ u) :
    Rely u w (w.commit t) where
  pend := drop_pend_other hu
  lock := fun _ h => drop_lock_other hu h
  drawn := fun _ h => h
  unusedPayment := fun v hv hn => by
    refine Table.find_none.mpr (Db.forall_applyAll_payments (Table.find_none.mp hn) ?_ ?_)
    · intro row hrow he
      have := h.payment t row hrow
      rw [he, hv] at this
      exact hu (Option.some.inj this).symm
    · exact fun r _ _ hr => hr
  unusedEvent := fun v hv hn => by
    refine Table.find_none.mpr (Db.forall_applyAll_outbox (Table.find_none.mp hn) ?_ ?_)
    · intro o ho he
      have := h.event t o ho
      rw [he, hv] at this
      exact hu (Option.some.inj this).symm
    · exact fun o _ _ _ _ _ ho => ho
  payment := fun r hr hl => by
    refine Db.mem_applyAll_payments hr (fun x hx hm => ?_)
    have := h.locked t x hx _ hm
    rw [hl] at this
    exact hu (Option.some.inj this).symm
  event := fun o ho hl => by
    refine Db.mem_applyAll_outbox ho (fun x hx hm => ?_)
    have := h.locked t x hx _ hm
    rw [hl] at this
    exact hu (Option.some.inj this).symm
  key := fun k hl hk => by
    refine Db.forall_applyAll_payments hk ?_ ?_
    · rintro row hrow rfl
      have := h.locked t _ hrow (.paymentKey row.idempotencyKey) (by simp [Write.resources])
      rw [hl] at this
      exact hu (Option.some.inj this).symm
    · exact fun r _ _ hr => hr
  grows := hg

theorem Inv.commit (h : w.Inv) (hc : w.db.Change (w.pend t)) : (w.commit t).Inv where
  agree := hc.agree h.agree
  sound := hc.sound h.sound
  version := h.version
  locked := h.drop.locked
  payment := h.drop.payment
  event := h.drop.event
  ready := fun d hd => (h.ready d hd).grows hc.grows
  unacked := fun d hd => (h.unacked d hd).grows hc.grows
  delivered := fun v q m hm => by
    rcases List.mem_cons.mp hm with he | hm
    · cases he
    · exact (h.delivered v q m hm).grows hc.grows
  posted := fun v url payload hm => by
    rcases List.mem_cons.mp hm with he | hm
    · cases he
    · exact (h.posted v url payload hm).grows hc.grows

end Commit

section Accept

variable {x k : String} {m : Message}

theorem Rely.accept : Rely u w (w.accept t lim x k m) :=
  .of_db_eq rfl rfl (fun _ h => h) (fun _ h => h)

theorem Inv.accept (h : w.Inv) (hq : ∀ q ∈ route lim x k, Carries w.db q m) :
    (w.accept t lim x k m).Inv :=
  { h with
    ready := fun d hd => by
      rcases List.mem_append.mp hd with hd | hd
      · exact h.ready d hd
      · obtain ⟨q, hq', rfl⟩ := List.mem_map.mp hd
        exact hq q hq'
    delivered := fun v q m' hm => by
      rcases List.mem_cons.mp hm with he | hm
      · cases he
      · exact h.delivered v q m' hm
    posted := fun v url payload hm => by
      rcases List.mem_cons.mp hm with he | hm
      · cases he
      · exact h.posted v url payload hm }

end Accept

section Draw

variable {v : UUID}

theorem draw_drawn_kept (hv : w.Unused v) {a : UUID} {s : Tid} (h : w.drawn a = some s) :
    (w.draw t v).drawn a = some s := by
  by_cases ha : a = v
  · subst ha
    rw [hv.2.1] at h
    cases h
  · simpa [Function.update_of_ne ha] using h

theorem does_drawn {op : Op} {ch : Choice} {r : Except Exc op.Res} {w' : World}
    (h : Does lim t w op ch r w') {a : UUID} {s : Tid} (ha : w.drawn a = some s) :
    w'.drawn a = some s := by
  cases h with
  | uuid4 hu => exact draw_drawn_kept hu ha
  | fault => cases op <;> exact ha
  | _ => exact ha

theorem Rely.draw (hv : w.Unused v) : Rely u w (w.draw t v) :=
  .of_db_eq rfl rfl (fun _ h => h) (fun _ h => draw_drawn_kept hv h)

theorem Inv.draw (h : w.Inv) (hv : w.Unused v) : (w.draw t v).Inv :=
  { h with
    version := fun a s ha => by
      by_cases he : a = v
      · subst he
        exact hv.1
      · exact h.version a s (by simpa [Function.update_of_ne he] using ha)
    payment := fun s row hm => draw_drawn_kept hv (h.payment s row hm)
    event := fun s o hm => draw_drawn_kept hv (h.event s o hm) }

end Draw

theorem Rely.ackDelivery : Rely u w (w.ackDelivery t) :=
  .of_db_eq rfl rfl (fun _ h => h) (fun _ h => h)

theorem Inv.ackDelivery (h : w.Inv) : (w.ackDelivery t).Inv :=
  { h with
    unacked := fun d hd => h.unacked d (List.mem_filter.mp hd).1
    delivered := fun v q m hm => by
      rcases List.mem_cons.mp hm with he | hm
      · cases he
      · exact h.delivered v q m hm
    posted := fun v url payload hm => by
      rcases List.mem_cons.mp hm with he | hm
      · cases he
      · exact h.posted v url payload hm }

/-- A step that publishes nothing keeps the guarantee when it keeps the relies. -/
theorem Guar.silent {w' : World} (hr : ∀ u, t ≠ u → Rely u w w') (ht : w'.trace = w.trace) :
    Guar t w w' :=
  ⟨hr, [], ht, fun _ _ _ _ h => by cases h⟩

theorem Guar.noted {w' : World} {o : Obs} (hr : ∀ u, t ≠ u → Rely u w w')
    (ht : w'.trace = (t, o) :: w.trace)
    (ho : ∀ x k m, o = .accepted x k m → m.Carried w.db) : Guar t w w' := by
  refine ⟨hr, [(t, o)], ht, fun u x k m h => ?_⟩
  cases List.mem_singleton.mp h
  exact ho x k m rfl

theorem keeps_note {o : Obs} (h : w.Inv) (hd : ∀ q m, o ≠ .delivered q m)
    (hp : ∀ url payload, o = .posted url payload → Truthful w.db url payload)
    (ha : ∀ x k m, o ≠ .accepted x k m) : (w.note t o).Inv ∧ Guar t w (w.note t o) :=
  ⟨h.note (fun q m he => absurd he (hd q m)) hp,
    .noted (fun _ _ => .note) rfl (fun x k m he => absurd he (ha x k m))⟩

theorem keeps_hold {rs : List Resource} (h : w.Inv) (hf : ∀ r ∈ rs, w.Free t r) :
    (w.hold t rs).Inv ∧ Guar t w (w.hold t rs) :=
  ⟨h.hold hf, .silent (fun _ _ => .hold hf) rfl⟩

theorem keeps_write {ws : List Payments.Write} (h : w.Inv)
    (hf : ∀ x ∈ ws, ∀ r ∈ x.resources, w.Free t r)
    (hp : ∀ row, .insertPayment row ∈ ws → w.drawn row.id = some t)
    (ho : ∀ o, .insertOutbox o ∈ ws → w.drawn o.id = some t) :
    (w.write t ws).Inv ∧ Guar t w (w.write t ws) :=
  ⟨h.write hf hp ho, .silent (fun _ hu => .write hf hu) rfl⟩

theorem keeps_drop (h : w.Inv) : (w.drop t).Inv ∧ Guar t w (w.drop t) :=
  ⟨h.drop, .silent (fun _ hu => .drop hu) rfl⟩

theorem keeps_commit (h : w.Inv) (hc : w.db.Change (w.pend t)) :
    (w.commit t).Inv ∧ Guar t w (w.commit t) :=
  ⟨h.commit hc, .noted (fun _ hu => .commit h hc.grows hu) rfl (fun _ _ _ he => by cases he)⟩

theorem keeps_accept {x k : String} {m : Message} (h : w.Inv) (hm : m.Carried w.db)
    (hq : ∀ q ∈ route lim x k, Carries w.db q m) :
    (w.accept t lim x k m).Inv ∧ Guar t w (w.accept t lim x k m) :=
  ⟨h.accept hq, .noted (fun _ _ => .accept) rfl (fun _ _ _ he => by cases he; exact hm)⟩

theorem toRow_id {values : PaymentValues} {row : PaymentRow} (h : values.toRow = .ok row) :
    row.id = values.id ∧ row.idempotencyKey = values.idempotencyKey := by
  unfold PaymentValues.toRow at h
  split at h
  · cases h
    exact ⟨rfl, rfl⟩
  · cases h
  · cases h

/-- What the driver raises for values that it does not store. -/
theorem toRow_error {values : PaymentValues} {e : Exc} (h : values.toRow = .error e) :
    (∃ cause, e = .statement cause) ∨ e = .dataError := by
  unfold PaymentValues.toRow storeJson at h
  split at h
  · cases h
  · rename_i hs
    split at hs
    · cases hs
      cases h
      exact .inl ⟨_, rfl⟩
    · split at hs <;> cases hs
      cases h
      exact .inr rfl
  · cases h
    exact .inr rfl

/-- An effect whose obligation is met keeps the invariant and the guarantee. -/
theorem exec_keeps {op : Op} {ch : Choice} {r : Except Exc op.Res} {w' : World} (h : w.Inv)
    (ho : Obliged lim t w op) (he : exec lim t op ch w = some (r, w')) :
    w'.Inv ∧ Guar t w w' := by
  have hsame : w.Inv ∧ Guar t w w := ⟨h, .silent (fun u _ => .refl u w) rfl⟩
  cases exec_does he with
  | fault hr =>
    cases op with
    | close => exact keeps_drop h
    | send url payload timeout =>
      exact keeps_note h (fun _ _ he => by cases he) (fun _ _ he => by cases he; exact ho)
        (fun _ _ _ he => by cases he)
    | _ => exact hsame
  | lostCommit => exact keeps_commit h ho
  | lostPublish => exact keeps_accept h ho.1 ho.2
  | lockPayment hr hid hf => exact keeps_hold h (by simpa using hf)
  | lockKey hr hk hf => exact keeps_hold h (by simpa using hf)
  | lockEvent hr hid hf => exact keeps_hold h (by simpa using hf)
  | pendings hs =>
    refine keeps_hold h (fun x hx => ?_)
    obtain ⟨id, hid, rfl⟩ := List.mem_map.mp hx
    obtain ⟨o, ho, rfl⟩ := List.mem_map.mp (hs.1.subset (List.mem_of_mem_take hid))
    exact (by simpa using (List.mem_filter.mp ho).2 : _ ∧ _).2
  | @claim id _ _ _ _ hf =>
    obtain ⟨hi, hg⟩ : (w.hold t [.outbox id]).Inv ∧ Guar t w (w.hold t [.outbox id]) :=
      keeps_hold h (by simpa using hf)
    refine ⟨hi.note (fun _ _ he => by cases he) (fun _ _ he => by cases he), .noted
      (fun u hu => (hg.others u hu).trans .note) rfl (fun _ _ _ he => by cases he)⟩
  | insertPayment hv hn hf =>
    refine keeps_write h (by simpa using hf) (fun row hm => ?_) (fun o hm => by simp at hm)
    cases List.mem_singleton.mp hm
    rw [(toRow_id hv).1]
    exact ho
  | insertOutbox hv hf =>
    refine keeps_write h (fun x hx r hr => ?_) (fun row hm => ?_) (fun o hm => ?_)
    · obtain ⟨o, hm, rfl⟩ := List.mem_map.mp hx
      cases List.mem_singleton.mp hr
      exact hf o hm
    · obtain ⟨o, _, hm⟩ := List.mem_map.mp hm
      cases hm
    · obtain ⟨o', hm, he⟩ := List.mem_map.mp hm
      cases he
      obtain ⟨e, he, hr⟩ := mem_mapM_ok hv (List.mem_filter.mp hm).1
      exact ho e he o hr
  | updatePayment hr hf =>
    exact keeps_write h (by simpa [Write.resources] using hf) (fun _ hm => by simp at hm)
      (fun _ hm => by simp at hm)
  | updateOutbox hr hf =>
    exact keeps_write h (by simpa [Write.resources] using hf) (fun _ hm => by simp at hm)
      (fun _ hm => by simp at hm)
  | commit => exact keeps_commit h ho
  | rollback => exact keeps_drop h
  | close => exact keeps_drop h
  | uuid4 hu => exact ⟨h.draw hu, .silent (fun _ _ => .draw hu) rfl⟩
  | publish => exact keeps_accept h ho.1 ho.2
  | send =>
    exact keeps_note h (fun _ _ he => by cases he) (fun _ _ he => by cases he; exact ho)
      (fun _ _ _ he => by cases he)
  | enter =>
    exact keeps_note h (fun _ _ he => by cases he) (fun _ _ he => by cases he)
      (fun _ _ _ he => by cases he)
  | ack =>
    exact ⟨h.ackDelivery, .noted (fun _ _ => .ackDelivery) rfl (fun _ _ _ he => by cases he)⟩
  | _ => exact hsame

end World

end Payments
