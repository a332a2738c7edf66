import Payments.Proofs.Failures
import Payments.Proofs.Republication

namespace Payments

open Lib

namespace World

/-- The payment that a created event names is settled. -/
def Resolved (w : World) (e : UUID) : Prop :=
  ∃ o ∈ w.db.outbox.rows, o.id = e ∧ ∃ r ∈ w.db.payments.rows,
    o.Reports EventClass.paymentCreatedEvent.queue r.id ∧ r.status ≠ .pending

/-- The thread handles a payment on its last attempt. -/
def Final (lim : Limits) (w : World) (t : Tid) : Prop :=
  ∃ m, .delivered newPaymentsQ m ∈ w.story t ∧ lim.process ≤ m.attempt

/-- No other transaction locks the row that a `SELECT` of one row asks for. -/
def Finds (w : World) (t : Tid) : Op → Prop
  | .selectPaymentById id => w.Free t (.payment id)
  | .selectOutboxId id => w.Free t (.outbox id)
  | _ => True

/-- The commit of the outcome of a payment raises although it took effect. -/
def Slips (w : World) (t : Tid) (op : Op) (ch : Choice) : Prop :=
  op = .commit ∧ (∃ x, ch = .lost x) ∧
    ∃ id status processedAt, .updatePayment id status processedAt ∈ w.pend t

end World

/-- The steps by which no created event fails whose payment is settled. The use case is not
called for a created event that has failed, and calls for one event do not overlap when one of
them is the last attempt at its payment. Where the payment of a last attempt is settled, no
effect of the attempt raises, but a rollback or the acknowledgement, and no `SELECT` of it finds
its row locked, and the commit that settles the payment in a last attempt does not raise. -/
def Attentive (lim : Limits) (w : World) : Move Op Choice Req Env → Prop
  | .run t (.enter e) _ =>
    (∀ o ∈ w.db.outbox.rows, o.id = e → o.queue = EventClass.paymentCreatedEvent.queue →
      o.status ≠ .failed) ∧ ∀ u, u ≠ t → w.Active u e → ¬ w.Final lim u ∧ ¬ w.Final lim t
  | .run _ .rollback _ | .run _ .ack _ => True
  | .run t op ch => w.Final lim t → ¬ w.Slips t op ch ∧ ∀ e, .entered e ∈ w.story t →
    w.Resolved e → works (.run t op ch) = true ∧ w.Finds t op
  | _ => True

namespace World

/-- No active call is for a created event that has failed, and a last attempt is alone. -/
structure Untroubled (lim : Limits) (w : World) : Prop where
  notFailed : ∀ t e, w.Active t e → ∀ o ∈ w.db.outbox.rows, o.id = e →
    o.queue = EventClass.paymentCreatedEvent.queue → o.status ≠ .failed
  alone : ∀ t u e, t ≠ u → w.Active t e → w.Active u e → ¬ w.Final lim t

/-- What a step does to created events and their payments: only an active call on its last
attempt fails an event, and its payment is not settled then; only an active call settles the
payment of an event, and not while another is on its last attempt. -/
structure Judges (lim : Limits) (t : Tid) (w w' : World) : Prop where
  fails : ∀ o' ∈ w'.db.outbox.rows, o'.queue = EventClass.paymentCreatedEvent.queue →
    o'.status = .failed → (∃ o ∈ w.db.outbox.rows, o.id = o'.id ∧ o.queue = o'.queue ∧
      o.status = .failed) ∨
      w.Active t o'.id ∧ ¬ w'.Active t o'.id ∧ w.Final lim t ∧ ¬ w'.Resolved o'.id
  settles : ∀ o ∈ w.db.outbox.rows, w'.Resolved o.id → w.Resolved o.id ∨ w.Active t o.id
  spares : ∀ u, t ≠ u → ∀ o ∈ w.db.outbox.rows, w.Active u o.id → w.Final lim u →
    w'.Resolved o.id → w.Resolved o.id

variable {lim : Limits} {w w' : World} {t : Tid} {op : Op} {ch : Choice} {r : Except Exc op.Res}

theorem Judges.of_alone (h : w.Untroubled lim)
    (hf : ∀ o' ∈ w'.db.outbox.rows, o'.queue = EventClass.paymentCreatedEvent.queue →
      o'.status = .failed → (∃ o ∈ w.db.outbox.rows, o.id = o'.id ∧ o.queue = o'.queue ∧
        o.status = .failed) ∨
        w.Active t o'.id ∧ ¬ w'.Active t o'.id ∧ w.Final lim t ∧ ¬ w'.Resolved o'.id)
    (hs : ∀ o ∈ w.db.outbox.rows, w'.Resolved o.id → w.Resolved o.id ∨ w.Active t o.id) :
    Judges lim t w w' where
  fails := hf
  settles := hs
  spares := fun u hu o ho hact hfinal hr =>
    (hs o ho hr).resolve_right (fun ht => h.alone u t o.id hu.symm hact ht hfinal)

theorem Judges.of_db (h : w'.db = w.db) : Judges lim t w w' := by
  have hr : ∀ e, w'.Resolved e → w.Resolved e := fun e he => by simpa only [Resolved, h] using he
  exact ⟨fun o' ho' _ hs => .inl ⟨o', h ▸ ho', rfl, rfl, hs⟩, fun o _ he => .inl (hr _ he),
    fun _ _ o _ _ _ he => hr _ he⟩

/-- The payment of a stored event is settled by a commit that updates it. -/
theorem resolved_commit (hi : w.Inv) {o : OutboxRow} (ho : o ∈ w.db.outbox.rows)
    (h : (w.commit t).Resolved o.id) : w.Resolved o.id ∨ ∃ id status processedAt,
      o.Reports EventClass.paymentCreatedEvent.queue id ∧
        .updatePayment id status processedAt ∈ w.pend t := by
  obtain ⟨o', ho', hid, r, hr, hrep, hs⟩ := h
  obtain ⟨x, hx, hxid, _, hb⟩ := @kept_applyAll w.db (w.pend t) o ho
  obtain rfl := Table.eq_of_key ho' hx (hid.trans hxid.symm)
  have hreport := hrep.of_body hb
  by_cases hu : ∃ status processedAt, .updatePayment r.id status processedAt ∈ w.pend t
  · obtain ⟨status, processedAt, hm⟩ := hu
    exact .inr ⟨_, _, _, hreport, hm⟩
  obtain ⟨y, hy, hc | ⟨_, hp⟩⟩ := hi.agree.origin o ho
  · have hyid : y.id = r.id := hc.names.unique hreport.2
    have hkept : y ∈ (w.view t).payments.rows :=
      Db.kept_applyAll_payments hy (fun s p hm => hu ⟨s, p, hyid ▸ hm⟩)
    rw [Table.eq_of_key hkept hr hyid] at hy
    exact .inl ⟨o, ho, rfl, r, hy, hreport, hs⟩
  · exact absurd (hp.1.symm.trans hreport.1) (by simp [EventClass.queue])

/-- A transaction that stays apart fails no event, and settles only for an active call. -/
theorem Judges.commit_apart (h : w.Untroubled lim) (hi : w.Inv) (hp : w.Apart t)
    (hu : ∀ id status processedAt, .updatePayment id status processedAt ∈ w.pend t →
      ∀ o ∈ w.db.outbox.rows, o.Reports EventClass.paymentCreatedEvent.queue id →
        w.Active t o.id) : Judges lim t w (w.commit t) := by
  refine .of_alone h (fun o' ho' _ hs => .inl ?_) (fun o ho hr => ?_)
  · rcases (aside_commit hp).rows o' ho' with hm | ⟨hpending, _⟩
    · exact ⟨o', hm, rfl, rfl, hs⟩
    · rw [hs] at hpending
      cases hpending
  · refine (resolved_commit hi ho hr).imp_right ?_
    rintro ⟨id, status, processedAt, hrep, hm⟩
    exact hu id status processedAt hm o ho hrep

/-- Marks change nothing of an event but its status. -/
theorem applyAll_marks {db : Db} {ws : List Payments.Write}
    (hw : ∀ x ∈ ws, ∃ e s at', x = .updateOutbox e s at') : ∀ o' ∈ (db.applyAll ws).outbox.rows,
      ∃ o ∈ db.outbox.rows, o.id = o'.id ∧ o.queue = o'.queue ∧
        (o.status = o'.status ∨ Sets ws o'.id o'.status) := by
  refine Db.forall_applyAll_outbox (fun o ho => ⟨o, ho, rfl, rfl, .inl rfl⟩) (fun o hm => ?_) ?_
  · obtain ⟨_, _, _, he⟩ := hw _ hm
    cases he
  · rintro o _ status handledAt hm rfl ⟨x, hx, hid, hq, _⟩
    exact ⟨x, hx, hid, hq, .inr ⟨handledAt, hm⟩⟩

/-- A transaction of marks settles nothing. -/
theorem Judges.commit_marks (h : w.Untroubled lim) (hi : w.Inv)
    (hp : ∀ x ∈ w.pend t, ∃ e s at', x = .updateOutbox e s at')
    (hm : ∀ o ∈ w.db.outbox.rows, o.queue = EventClass.paymentCreatedEvent.queue →
      Sets (w.pend t) o.id .failed → w.Active t o.id ∧ w.Final lim t ∧ ¬ w.Resolved o.id) :
    Judges lim t w (w.commit t) := by
  have hresolved : ∀ o ∈ w.db.outbox.rows, (w.commit t).Resolved o.id → w.Resolved o.id := by
    intro o ho hr
    refine (resolved_commit hi ho hr).resolve_right ?_
    rintro ⟨id, status, processedAt, _, hx⟩
    obtain ⟨_, _, _, he⟩ := hp _ hx
    cases he
  refine .of_alone h (fun o' ho' hq hs => ?_) (fun o ho hr => .inl (hresolved o ho hr))
  obtain ⟨o, ho, hid, hoq, hsame | hset⟩ := applyAll_marks hp o' ho'
  · exact .inl ⟨o, ho, hid, hoq, hsame.trans hs⟩
  · rw [hs, ← hid] at hset
    obtain ⟨hact, hfinal, hn⟩ := hm o ho (hoq.trans hq) hset
    refine .inr (hid ▸ ⟨hact, fun hact' => ?_, hfinal, fun hr => hn (hresolved o ho hr)⟩)
    -- the commit of the mark is told
    have hstory : (w.commit t).story t = .committed (w.pend t) :: w.story t := by
      refine story_told rfl ?_
      obtain ⟨at', hx⟩ := hset
      have hmark : (w.pend t).any Write.marks = true := List.any_eq_true.mpr ⟨_, hx, rfl⟩
      simp [Obs.aside, hmark]
    exact hact'.2 (.committed (w.pend t)) (hstory ▸ List.mem_cons_self) trivial

/-- An effect judges as the commit of the transaction does. -/
theorem Judges.does (hd : Does lim t w op ch r w') (hc : Judges lim t w (w.commit t)) :
    Judges lim t w w' := by
  by_cases ho : op = .commit
  · subst ho
    cases hd with
    | fault => exact .of_db rfl
    | commit | lostCommit => exact hc
  · exact .of_db (does_db hd ho)

end World

/-- The effects of a call whose failures matter. -/
def Op.Heeded : Op → Prop
  | .enter _ | .rollback | .ack => False
  | _ => True

/-- The effects that change an open transaction and do not end it. -/
def Op.Drafts : Op → Prop
  | .random | .now | .uuid4 | .flush | .updatePayment _ _ _ | .insertOutbox _ => True
  | _ => False

/-- The duty to fail no event whose payment is settled. -/
def verdict (lim : Limits) : Duty where
  rely := fun t w w' => w'.story t = w.story t ∧ w.db.Grows w'.db ∧ ∀ o ∈ w.db.outbox.rows,
    w.Active t o.id → w.Final lim t → w'.Resolved o.id → w.Resolved o.id
  guar := World.Judges lim

/-- The steps of a run in which a last attempt is alone. -/
def Heard (lim : Limits) (w : World) (mv : Move Op Choice Req Env) : Prop :=
  Attentive lim w mv ∧ w.Untroubled lim

/-- The event `e` is stored as the created event of the payment `pid`. -/
def Tasked (e pid : UUID) (db : Db) : Prop :=
  ∃ o ∈ db.outbox.rows, o.id = e ∧ o.Reports EventClass.paymentCreatedEvent.queue pid ∧
    ∃ r ∈ db.payments.rows, r.id = pid

theorem Tasked.grows {e pid : UUID} {db db' : Db} (h : Tasked e pid db) (hg : db.Grows db') :
    Tasked e pid db' := by
  obtain ⟨o, ho, hid, hrep, r, hr, hrid⟩ := h
  obtain ⟨o', ho', he⟩ := hg.event o ho
  obtain ⟨r', hr', hev⟩ := hg.payment r hr
  refine ⟨o', ho', he.same.1.trans hid, hrep.of_body he.same.2.2.2.symm, r', hr', ?_⟩
  rw [hev.1]
  exact hrid

/-- The event is resolved exactly when its payment is settled. -/
theorem Tasked.resolved_iff {e pid : UUID} {w : World} (h : Tasked e pid w.db) :
    w.Resolved e ↔ ∃ r ∈ w.db.payments.rows, r.id = pid ∧ r.status ≠ .pending := by
  obtain ⟨o, ho, hid, hrep, _⟩ := h
  constructor
  · rintro ⟨o', ho', hid', r, hr, hrep', hs⟩
    obtain rfl := Table.eq_of_key ho' ho (hid'.trans hid.symm)
    exact ⟨r, hr, hrep'.2.unique hrep.2, hs⟩
  · rintro ⟨r, hr, rfl, hs⟩
    exact ⟨o, ho, hid, r, hr, hrep, hs⟩

/-- The thread has called the use case for the created event of a payment. -/
structure Trying (t : Tid) (m : Message) (e pid : UUID) (w : World) : Prop
    extends Calling t newPaymentsQ m e w where
  tasked : Tasked e pid w.db

/-- If this is the last attempt, then the payment is not settled. -/
def Unsettled (lim : Limits) (m : Message) (e : UUID) (w : World) : Prop :=
  lim.process ≤ m.attempt → ¬ w.Resolved e

section

variable {lim : Limits} {t : Tid} {w w' : World} {op : Op} {ch : Choice} {r : Except Exc op.Res}
  {e pid : UUID} {m : Message}

theorem World.final_iff (h : ∀ q' m', .delivered q' m' ∈ w.story t ↔ q' = newPaymentsQ ∧ m' = m) :
    w.Final lim t ↔ lim.process ≤ m.attempt := by
  constructor
  · rintro ⟨m', hm, hle⟩
    obtain ⟨_, rfl⟩ := (h _ _).mp hm
    exact hle
  · exact fun hle => ⟨m, (h _ _).mpr ⟨rfl, rfl⟩, hle⟩

theorem World.Resolved.grows {w w' : World} (h : w.Resolved e) (hg : w.db.Grows w'.db) :
    w'.Resolved e := by
  obtain ⟨o, ho, hid, r, hr, hrep, hs⟩ := h
  obtain ⟨o', ho', he⟩ := hg.event o ho
  exact ⟨o', ho', he.same.1.trans hid, r, hg.settled hr hs, hrep.of_body he.same.2.2.2.symm, hs⟩

theorem Trying.of_same (h : Trying t m e pid w) (hs : w'.story t = w.story t)
    (hd : w'.db = w.db) : Trying t m e pid w' :=
  ⟨h.toCalling.of_story hs, hd ▸ h.tasked⟩

theorem Unsettled.of_db (h : Unsettled lim m e w) (hd : w'.db = w.db) : Unsettled lim m e w' := by
  simpa only [Unsettled, World.Resolved, hd] using h

theorem Trying.does (h : Trying t m e pid w) (hd : World.Does lim t w op ch r w')
    (hc : op ≠ .commit) (ha : op ≠ .ack) : Trying t m e pid w' :=
  ⟨h.toCalling.does hd hc ha, World.does_db hd hc ▸ h.tasked⟩

theorem Trying.stable : (verdict lim).Stable t (Trying t m e pid) :=
  fun _ _ h hr hs _ => ⟨h.toCalling.of_story hs, h.tasked.grows hr.grows⟩

/-- Others do not settle the payment of a last attempt. -/
theorem unsettled_stable :
    (verdict lim).Stable t (fun w => Trying t m e pid w ∧ Unsettled lim m e w) := by
  intro w w' h hr hs hd
  refine ⟨Trying.stable w w' h.1 hr hs hd, fun hle hres => h.2 hle ?_⟩
  obtain ⟨o, ho, rfl, _⟩ := h.1.tasked
  exact hd.2.2 o ho h.1.toCalling.active ((World.final_iff h.1.message).mpr hle) hres

/-- What is asked of an effect of a last attempt. -/
theorem heeded_asks (ha : Attentive lim w (.run t op ch)) (ho : op.Heeded)
    (hf : w.Final lim t) : ¬ w.Slips t op ch ∧ ∀ e, .entered e ∈ w.story t → w.Resolved e →
      works (.run t op ch) = true ∧ w.Finds t op := by
  cases op <;> first
    | exact ha hf
    | exact ho.elim

/-- Where an effect of a last attempt raises or misses a locked row, the payment is not settled. -/
theorem unsettled_of_heeded (h : Trying t m e pid w) (ha : Attentive lim w (.run t op ch))
    (ho : op.Heeded) (hf : works (.run t op ch) = true → ¬ w.Finds t op) :
    Unsettled lim m e w := by
  intro hle hres
  obtain ⟨hworks, hfinds⟩ :=
    (heeded_asks ha ho ((World.final_iff h.message).mpr hle)).2 e h.entered hres
  exact hf hworks hfinds

/-- A payment that is held pending is not settled. -/
theorem unsettled_of_holds {row : PaymentRow} (h : Trying t m e pid w) (hh : Holds t row w)
    (hid : row.id = pid) (hp : row.status = .pending) : Unsettled lim m e w := by
  intro _ hres
  obtain ⟨r, hr, hrid, hs⟩ := h.tasked.resolved_iff.mp hres
  rw [Table.eq_of_key hr hh.2 (hrid.trans hid.symm)] at hs
  exact hs hp

/-- The lock on a payment stays until the transaction ends. -/
theorem holds_does {row : PaymentRow} (hh : Holds t row w) (hd : World.Does lim t w op ch r w')
    (ho : op.Drafts) : Holds t row w' := by
  have hdb : w'.db = w.db := World.does_db hd (by rintro rfl; exact ho)
  refine ⟨?_, hdb ▸ hh.2⟩
  have hhold : ∀ rs, (w.hold t rs).lock (.payment row.id) = some t := by
    intro rs
    simp only [World.hold_lock]
    split
    · rfl
    · exact hh.1
  cases hd with
  | fault => cases op <;> first | exact hh.1 | exact ho.elim
  | insertOutbox | updatePayment => exact hhold _
  | uuid4 | now | random | flush | missPayment | refuseOutbox => exact hh.1
  | _ => exact ho.elim

end

section

variable [Externals] {lim : Limits} {t : Tid} {w : World} {e pid : UUID} {m : Message} {α : Type}

/-- The end of a program of a call: what it raises is a business rule, or the payment of a last
attempt is not settled. -/
def Excused (lim : Limits) (t : Tid) (m : Message) (e pid : UUID) (r : Except Exc α) (w : World) :
    Prop :=
  Trying t m e pid w ∧ ∀ x, r = .error x → x.isBusinessRule = true ∨ Unsettled lim m e w

omit [Externals] in
theorem Excused.stable {r : Except Exc α} : (verdict lim).Stable t (Excused lim t m e pid r) := by
  intro w w' h hr hs hd
  exact ⟨Trying.stable w w' h.1 hr hs hd, fun x hx => (h.2 x hx).imp_right
    (fun hu => (unsettled_stable w w' ⟨h.1, hu⟩ hr hs hd).2)⟩

omit [Externals] in
theorem Excused.of_same {w' : World} {r : Except Exc α} (h : Excused lim t m e pid r w)
    (hs : w'.story t = w.story t) (hd : w'.db = w.db) : Excused lim t m e pid r w' :=
  ⟨h.1.of_same hs hd, fun x hx => (h.2 x hx).imp_right (fun hu => hu.of_db hd)⟩

/-- What the query for the payment leaves: a row that can be loaded, or no settlement. -/
def Loading (lim : Limits) (m : Message) (e : UUID) (w : World) :
    Except Exc (Option PaymentRow) → Prop
  | .ok (some row) => ∃ p, PaymentRepository.toDomain row = .ok p
  | _ => Unsettled lim m e w

/-- The load of the payment, which raises only where the payment may not be settled. -/
theorem load_verdict (hp : w.pend t = []) (h : Trying t m e pid w) :
    Tells (verdict lim) lim (Heard lim) t (PaymentRepository.getById { value := pid })
      (Excused lim t m e pid) w := by
  refine wp_seq (fun r w => Trying t m e pid w ∧ Loading lim m e w r)
    (tells_op _ ⟨hp, h⟩ Trying.stable.during ?_) (fun row w hw => ?_)
    (fun _ _ hw => ⟨hw.1, fun _ _ => .inr hw.2⟩)
  · intro w₁ ch r w₂ hw₁ hi _ ha hd
    refine ⟨trivial, .of_db (World.does_db hd (by simp)), hw₁.2.does hd (by simp) (by simp), ?_⟩
    cases hd with
    | fault => exact unsettled_of_heeded hw₁.2 ha.1 trivial (by simp [works])
    | lockPayment hr =>
      rw [World.view_nil hw₁.1] at hr
      exact toDomain_obj (hi.sound.metadata _ hr)
    | skipPayment hn =>
      obtain ⟨_, _, _, _, r, hr, hrid⟩ := hw₁.2.tasked
      rw [World.view_nil hw₁.1] at hn
      refine unsettled_of_heeded hw₁.2 ha.1 trivial (fun _ hf => hn r hr hrid ?_)
      rw [hrid]
      exact hf
  · cases row with
    | none => exact ⟨hw.1, fun _ _ => .inr hw.2⟩
    | some row =>
      obtain ⟨hw, p, hd⟩ := hw
      exact (wp_ofExcept _).mpr (hd ▸ ⟨hw, fun _ he => by cases he⟩)

omit [Externals] in
theorem Excused.cast {β : Type} {x : Exc} (h : Excused lim t m e pid (.error x : Except Exc α) w) :
    Excused lim t m e pid (.error x : Except Exc β) w :=
  ⟨h.1, fun y hy => by cases hy; exact h.2 x rfl⟩

/-- What follows the load leaves the open transaction and the lock. -/
theorem draft_verdict {p : Service α} {row : PaymentRow} (hp : p.Only Op.Drafts)
    (h : Trying t m e pid w) (hh : Holds t row w) :
    Tells (verdict lim) lim (Heard lim) t p (fun _ w => Trying t m e pid w ∧ Holds t row w) w := by
  refine tells_only hp ⟨h, hh⟩ (fun w w' hw hr hs hd => ?_) (fun op ho w₁ ch r w₂ hw₁ _ _ _ hd => ?_)
  · exact ⟨Trying.stable w w' hw.1 hr hs hd, firm_holds row w w' hw.2 hr.toKeeps⟩
  · have hc : op ≠ .commit := by rintro rfl; exact ho
    have ha : op ≠ .ack := by rintro rfl; exact ho
    exact ⟨trivial, .of_db (World.does_db hd hc), hw₁.1.does hd hc ha, holds_does hw₁.2 hd ho⟩

omit [Externals] in
/-- The created event of a payment is the only one that names it. -/
theorem Tasked.unique {db : Db} (h : Tasked e pid db) (ha : db.Agree) {o : OutboxRow}
    (ho : o ∈ db.outbox.rows) (hrep : o.Reports EventClass.paymentCreatedEvent.queue pid) :
    o.id = e := by
  obtain ⟨o', ho', hid, hrep', r, hr, rfl⟩ := h
  obtain ⟨x, _, _, hx⟩ := ha.created r hr
  have hc := hx o ho (ha.created_of_names ho hr hrep.1 hrep.2)
  have hc' := hx o' ho' (ha.created_of_names ho' hr hrep'.1 hrep'.2)
  rw [hc, ← hc', hid]

/-- The commit of the outcome of a pending payment. -/
theorem commit_verdict {row : PaymentRow} {status : PaymentStatus} {now : DateTime} {o : OutboxRow}
    (hid : row.id = pid) (hs : row.status = .pending) (hset : status ≠ .pending)
    (ho : (Db.settleRow status now row).Processed o) (hop : o.status = .pending)
    (hd : During t [.updatePayment row.id status now, .insertOutbox o]
      (fun w => Holds t row w ∧ Drawn t o.id w) w) (h : Trying t m e pid w) :
    Tells (verdict lim) lim (Heard lim) t Uow.commit (Excused lim t m e pid) w := by
  have hF := (firm_holds (t := t) row).and (firm_drawn o.id)
  have hkeep : ∀ w, Trying t m e pid w ∧ Unsettled lim m e w →
      World.Judges lim t w (w.drop t) ∧ Trying t m e pid (w.drop t) ∧ Unsettled lim m e (w.drop t) :=
    fun w hw => ⟨.of_db rfl, hw.1.of_same rfl rfl, hw.2.of_db rfl⟩
  refine wp_mono (tells_commit (R := Trying t m e pid)
    (fun w => Trying t m e pid w ∧ Unsettled lim m e w) unsettled_stable
    (fun w hw _ => ⟨trivial, hkeep w hw⟩) (fun _ => .of_db rfl)
    (tells_op (fun w => During t [.updatePayment row.id status now, .insertOutbox o]
      (fun w => Holds t row w ∧ Drawn t o.id w) w ∧ Trying t m e pid w) ⟨hd, h⟩
      (fun w w' hw hr hst hdu => ⟨hF.during _ w w' hw.1 hr, Trying.stable w w' hw.2 hr hst hdu⟩) ?_))
    (fun r w hw => ?_)
  · intro w₁ ch r w₂ hw₁ hi _ ha hdoes
    obtain ⟨⟨hp, hh, hdrawn⟩, htry⟩ := hw₁
    have hgrows : w₁.db.Grows (w₁.commit t).db := by
      rw [World.commit_db, World.view, hp]
      exact (Db.Change.settle row status now o hh.2 hs hset hdrawn.2.2 ho hop).grows
    have happ : w₁.Apart t := by
      intro x hx
      rw [hp] at hx
      rcases List.mem_cons.mp hx with rfl | hx
      · trivial
      · cases List.mem_singleton.mp hx
        exact hop
    have hjudges : World.Judges lim t w₁ (w₁.commit t) := by
      refine .commit_apart ha.2 hi happ (fun id s at' hm x hx hrep => ?_)
      have heq : id = pid := by
        rw [hp] at hm
        simp only [List.mem_cons, Write.updatePayment.injEq, reduceCtorEq, List.not_mem_nil,
          or_false] at hm
        exact hm.1.trans hid
      rw [htry.tasked.unique hi.agree hx (heq ▸ hrep)]
      exact htry.toCalling.active
    have hafter : Trying t m e pid (w₁.commit t) :=
      ⟨htry.toCalling.of_story ((World.aside_commit happ).story t), htry.tasked.grows hgrows⟩
    refine ⟨trivial, hjudges.does hdoes, ?_⟩
    cases hdoes with
    | fault => exact ⟨htry, unsettled_of_holds htry hh hid hs⟩
    | commit => exact hafter
    | lostCommit =>
      refine ⟨hafter, fun hle => ?_⟩
      have hslip := (heeded_asks ha.1 trivial ((World.final_iff htry.message).mpr hle)).1
      exact absurd ⟨rfl, ⟨_, rfl⟩, _, _, _, hp ▸ List.mem_cons_self⟩ hslip
  · cases r with
    | ok _ => exact ⟨hw, fun _ he => by cases he⟩
    | error x => exact ⟨hw.1, fun _ _ => .inr hw.2⟩

/-- What a call settles or why it does not. -/
theorem settlement_verdict {event : PaymentEvent} (hattr : event.attr "payment_id" = .uuid pid)
    (hv : pid.version = some 4) (hp : w.pend t = []) (h : Trying t m e pid w) :
    Tells (verdict lim) lim (Heard lim) t (settlement event) (Excused lim t m e pid) w := by
  simp only [settlement, Prog.bind_eq, Prog.pure_eq, hattr, PaymentID.new, if_pos hv,
    Prog.ofExcept_ok_bind]
  refine wp_seq _ (wp_under (wp_restrict (meets_getById _ hp)) (load_verdict hp h))
    (fun p w hw => ?_) (fun _ _ hw => hw.2.cast)
  obtain ⟨row, hd, hid, hdur⟩ := hw.1 p rfl
  have htry := hw.2.1
  by_cases hs : row.status = .pending
  swap
  · -- a settled payment raises a business rule, whatever is drawn
    have hrule : p.ensurePending = .error (.businessRule "Already processed") :=
      if_pos ((toDomain_ok hd).2.2.2.2.1 ▸ hs)
    refine wp_seq (fun r w => Trying t m e pid w ∧ ∃ x, r = .error x ∧ x.isBusinessRule = true) ?_
      (by rintro _ _ ⟨_, _, he, _⟩; cases he)
      (fun _ _ hw => ⟨hw.1, fun y hy => .inl ?_⟩)
    swap
    · obtain ⟨-, x, he, hb⟩ := hw
      cases he
      cases hy
      exact hb
    refine wp_seq (fun r w => Trying t m e pid w ∧ ∀ x, r ≠ .error x) (tells_op _ htry
      Trying.stable (fun w₁ ch r w₂ hw₁ _ _ _ hdoes => ?_)) (fun success w hw => ?_)
      (fun _ _ hw => absurd rfl (hw.2 _))
    · refine ⟨trivial, .of_db (World.does_db hdoes (by simp)),
        hw₁.does hdoes (by simp) (by simp), ?_⟩
      cases hdoes with
      | fault he => cases he
      | random => simp
    · simp only [Prog.bind_eq, hrule]
      exact ⟨hw.1, _, rfl, rfl⟩
  have hun : ∀ {β : Type} {x : Exc} {w : World}, Trying t m e pid w ∧ Holds t row w →
      Excused lim t m e pid (.error x : Except Exc β) w :=
    fun hw => ⟨hw.1, fun _ _ => .inr (unsettled_of_holds hw.1 hw.2 hid hs)⟩
  refine wp_seq _ (wp_under (wp_restrict (meets_emulate hd hdur)) (draft_verdict
    (only_emulateProcessing trivial trivial trivial p) htry hdur.2)) (fun p' w hw => ?_)
    (fun _ _ hw => hun hw.2)
  obtain ⟨status, now, eventId, occurredAt, reason, hset, hdur⟩ := hw.1 p' rfl
  have hF := (firm_holds (t := t) row).and (firm_drawn eventId)
  have hst := processed_stored (Db.settleRow status now row) eventId occurredAt reason
  refine wp_seq (fun r w => (Trying t m e pid w ∧ Holds t row w) ∧ ∀ q, r = .ok q → q = p' ∧
      During t [.updatePayment row.id status now] (fun w => Holds t row w ∧ Drawn t eventId w) w)
    ?_ (fun q w hq => ?_) (fun _ _ hw => hun hw.1)
  · refine wp_seq _ (wp_under (wp_restrict (meets_update hF hset hdur)) (draft_verdict
      (only_update (fun _ _ _ => trivial) trivial p') hw.2.1 hw.2.2)) (fun _ w hw => ?_)
      (fun _ _ hw => ⟨hw.2, fun _ he => by cases he⟩)
    exact ⟨hw.2, fun q he => by cases he; exact ⟨rfl, hw.1 rfl⟩⟩
  obtain ⟨htry, hq⟩ := hq
  obtain ⟨rfl, hdur⟩ := hq q rfl
  simp only [Payment.pullEvents, hset.recorded]
  refine wp_seq _ (wp_under (wp_restrict (meets_add_event hst (fun _ => rfl) hF (fun _ hw => hw.2)
    hdur)) (draft_verdict (only_add_events (fun _ => trivial) trivial _) htry.1 htry.2))
    (fun _ w hw => ?_) (fun _ _ hw => hun hw.2)
  refine wp_seq _ (commit_verdict hid hs hset.isSettled ⟨rfl, reason, rfl⟩ rfl (hw.1 rfl) hw.2.1)
    (fun _ _ hw => ⟨hw.1, fun _ he => by cases he⟩) (fun _ _ hw => hw.cast)

/-- The report of a settled payment: where the publish raises, this is not the last attempt. -/
theorem report_verdict {event : PaymentEvent} {events : List PaymentEvent}
    (ho : event.Outcome events w.db) (h : Trying t m e pid w) :
    Tells (verdict lim) lim (Heard lim) t (EventBus.publishPaymentEvents events)
      (Excused lim t m e pid) w := by
  obtain ⟨id, row, eventId, occurredAt, reason, _, _, _, _, rfl, o, _, _, hb⟩ := ho
  have hq : EventBus.queueRegistry (processedEvent row eventId occurredAt reason).cls =
    some notifyPaymentsQ := rfl
  refine wp_seq (Excused lim t m e pid) ?_ (fun _ _ hw => hw) (fun _ _ hw => hw)
  simp only [EventBus.publishPaymentEvent, hq, hb]
  refine wp_catch (fun r w => Trying t m e pid w ∧ ∀ x, r = .error x → Unsettled lim m e w)
    (tells_op _ h Trying.stable (fun w₁ ch r w₂ hw₁ _ _ ha hd => ?_))
    (fun _ _ hw => ⟨hw.1, fun _ hx => by cases hx⟩) (fun _ _ hw => ⟨hw.1, fun _ _ => .inr (hw.2 _ rfl)⟩)
  refine ⟨trivial, .of_db (World.does_db hd (by simp)), hw₁.does hd (by simp) (by simp),
    fun x hx => ?_⟩
  have hdb := World.does_db hd (by simp)
  cases hd with
  | fault | lostPublish =>
    exact (unsettled_of_heeded hw₁ ha.1 trivial (by simp [works])).of_db hdb
  | publish => cases hx

/-- Where the use case of a payment returns the payment is settled, and what it raises is
excused. -/
theorem process_verdict {event : PaymentEvent} (hattr : event.attr "payment_id" = .uuid pid)
    (hv : pid.version = some 4) (hp : w.pend t = []) (h : Trying t m e pid w) :
    Tells (verdict lim) lim (Heard lim) t (processPayment event)
      (fun r w => w.pend t = [] ∧ Excused lim t m e pid r w ∧ (r = .ok () → w.Resolved e)) w := by
  refine wp_under (wp_restrict (meets_process_payment event hp)) ?_
  rw [process_payment_eq]
  refine wp_seq _ (wp_under (wp_restrict (meets_settlement event hp)) (tells_within
      (Excused lim t m e pid) (fun _ => Excused.stable) (settlement_verdict hattr hv hp h)
      (fun _ _ hw _ => ⟨trivial, .of_db rfl, hw.of_same rfl rfl⟩) (fun _ => .of_db rfl)
      (fun _ _ hw => hw) (fun _ x w hw hw' ha => ?_)))
    (fun events w hw => ?_) (fun _ _ hw => ⟨hw.2.cast, fun he => by cases he⟩)
  · have hun := unsettled_of_heeded hw.1 ha.1 trivial (by simp [works])
    exact ⟨hw'.1, fun _ _ => .inr (hun.of_db rfl)⟩
  · obtain ⟨⟨_, houtcome⟩, htry, _⟩ := hw
    have hdone := houtcome events rfl
    obtain ⟨id, row, _, _, _, hid, hrow, hr, hs, _⟩ := hdone
    have hsettled : ∃ r ∈ w.db.payments.rows, r.id = pid ∧ r.status ≠ .pending :=
      ⟨row, hr, hrow.trans (payment_id_value (hattr ▸ hid)), hs⟩
    refine wp_mono (tells_frame (H := fun db => ∃ r ∈ db.payments.rows, r.id = pid ∧
      r.status ≠ .pending) ((only_publish events).mono ?_) ?_
      (report_verdict (houtcome events rfl) htry) hsettled)
      (fun r w hw => ⟨hw.1, fun _ => hw.1.1.tasked.resolved_iff.mpr hw.2⟩)
    · rintro op ⟨_, _, rfl⟩
      simp
    · rintro db db' ⟨r, hr, hrid, hs⟩ hg
      exact ⟨r, hg.settled hr hs, hrid, hs⟩

/-- The thread confirms the event of a payment that is settled. -/
structure Sealing (t : Tid) (m : Message) (e : UUID) (w : World) : Prop where
  message : ∀ q' m', .delivered q' m' ∈ w.story t ↔ q' = newPaymentsQ ∧ m' = m
  entered : .entered e ∈ w.story t
  resolved : w.Resolved e
  pend : ∀ x ∈ w.pend t, ∃ at', x = .updateOutbox e .confirmed at'

omit [Externals] in
theorem Sealing.stable : (verdict lim).Stable t (Sealing t m e) :=
  fun w w' h hr hs _ => ⟨fun q' m' => hs ▸ h.message q' m', by rw [hs]; exact h.entered,
    h.resolved.grows hr.grows, hr.pend ▸ h.pend⟩

omit [Externals] in
theorem Sealing.drop (h : Sealing t m e w) : Sealing t m e (w.drop t) :=
  ⟨h.message, h.entered, h.resolved, by simp⟩

omit [Externals] in
/-- A transaction of marks leaves what is settled. -/
theorem resolved_marks (h : w.Resolved e)
    (hp : ∀ x ∈ w.pend t, ∃ e s at', x = .updateOutbox e s at') : (w.commit t).Resolved e := by
  obtain ⟨o, ho, hid, r, hr, hrep, hs⟩ := h
  obtain ⟨o', ho', hid', _, hb⟩ := @World.kept_applyAll w.db (w.pend t) o ho
  refine ⟨o', ho', hid'.trans hid, r, Db.kept_applyAll_payments hr (fun s p hm => ?_),
    hrep.of_body hb.symm, hs⟩
  obtain ⟨_, _, _, he⟩ := hp _ hm
  cases he

omit [Externals] in
/-- An effect of the confirmation raises only where this is not the last attempt. -/
theorem sealing_op {op : Op} {ch : Choice} {r : Except Exc op.Res} {w' : World}
    (ho : op.Concludes e .confirmed) (h : Sealing t m e w) (hi : w.Inv)
    (ha : Heard lim w (.run t op ch)) (hd : World.Does lim t w op ch r w') :
    World.Judges lim t w w' ∧ Sealing t m e w' ∧
      (op ≠ .rollback → (works (.run t op ch) = true → ¬ w.Finds t op) →
        ¬ lim.process ≤ m.attempt) := by
  have hmarks : ∀ x ∈ w.pend t, ∃ e s at', x = .updateOutbox e s at' := fun x hx => by
    obtain ⟨at', hx⟩ := h.pend x hx
    exact ⟨e, .confirmed, at', hx⟩
  refine ⟨.does hd (.commit_marks ha.2 hi hmarks (fun o _ _ hset => ?_)), ⟨fun q' m' => ?_,
    World.does_tells hd h.entered, ?_, fun x hx => ?_⟩, fun hr hf hle => ?_⟩
  · obtain ⟨at', hx⟩ := hset
    obtain ⟨_, he⟩ := h.pend _ hx
    cases he
  · rw [← h.message q' m']
    exact ⟨World.does_delivered hd, World.does_tells hd⟩
  · by_cases hc : op = .commit
    · subst hc
      cases hd with
      | fault => exact h.resolved
      | commit | lostCommit => exact resolved_marks h.resolved hmarks
    · have hdb := World.does_db hd hc
      simpa only [World.Resolved, hdb] using h.resolved
  · rcases World.does_pend hd hx with hx | ⟨_, hx⟩
    · exact h.pend x hx
    · cases op <;> first
        | exact ho.elim
        | exact hx.elim
        | (obtain ⟨rfl, rfl, rfl⟩ := ho; exact ⟨_, hx⟩)
  · have hheed : op.Heeded := by
      cases op <;> trivial
    obtain ⟨hworks, hfinds⟩ := (heeded_asks ha.1 hheed ((World.final_iff h.message).mpr hle)).2 e
      h.entered h.resolved
    exact hf hworks hfinds

/-- One effect of the confirmation that answers nothing. -/
theorem sealing_unit {op : Op} (ho : op.Concludes e .confirmed) (hr : op ≠ .rollback)
    (h : Sealing t m e w) :
    Tells (verdict lim) lim (Heard lim) t (perform op)
      (fun r w => Sealing t m e w ∧ ∀ x, r = .error x → ¬ lim.process ≤ m.attempt) w := by
  refine tells_op _ h Sealing.stable (fun w₁ ch r w₂ hw₁ hi _ ha hd => ?_)
  obtain ⟨hj, hs, hn⟩ := sealing_op ho hw₁ hi ha hd
  refine ⟨trivial, hj, hs, fun x hx => hn hr (fun hw => ?_)⟩
  subst hx
  cases hd <;> first
    | exact ho.elim
    | cases hw

/-- Where the confirmation of a settled payment raises, this is not the last attempt. -/
theorem confirm_verdict (hp : w.pend t = [])
    (hm : ∀ q' m', .delivered q' m' ∈ w.story t ↔ q' = newPaymentsQ ∧ m' = m)
    (he : .entered e ∈ w.story t) (hres : w.Resolved e) :
    Tells (verdict lim) lim (Heard lim) t (conclude e .confirmed)
      (fun r w => w.pend t = [] ∧ ∀ x, r = .error x → ¬ lim.process ≤ m.attempt) w := by
  let R : Except Exc Unit → World → Prop := fun r w =>
    Sealing t m e w ∧ ∀ x, r = .error x → ¬ lim.process ≤ m.attempt
  have hR : ∀ r, (verdict lim).Stable t (R r) := fun r w w' hw hr hs hd =>
    ⟨Sealing.stable w w' hw.1 hr hs hd, hw.2⟩
  refine tells_within R hR ?_ (fun _ _ hw _ => ⟨trivial, .of_db rfl, hw.1.drop, hw.2⟩)
    (fun _ => .of_db rfl) (fun _ _ hw => ⟨by simp, hw.2⟩) (fun _ x w hw _ ha => ?_)
  · refine wp_seq R ?_ (fun _ w hw => ?_) (fun _ _ hw => hw)
    · refine wp_seq (fun r w => Sealing t m e w ∧ ((∀ id, r ≠ .ok (some id)) →
          ¬ lim.process ≤ m.attempt)) (tells_op (fun w => w.pend t = [] ∧ Sealing t m e w)
          ⟨hp, hm, he, hres, by simp [hp]⟩ Sealing.stable.during ?_) (fun result w hw => ?_)
        (fun _ _ hw => ⟨hw.1, fun _ _ => hw.2 (by simp)⟩)
      · intro w₁ ch r w₂ hw₁ hi _ ha hd
        have ho : Op.Concludes e .confirmed (.selectOutboxId e) := rfl
        obtain ⟨hj, hs, hn⟩ := sealing_op ho hw₁.2 hi ha hd
        refine ⟨trivial, hj, hs, fun hnone => hn (by simp) (fun hw hf => ?_)⟩
        cases hd with
        | fault => cases hw
        | lockEvent => exact hnone _ rfl
        | skipEvent hskip =>
          obtain ⟨o, ho, hid, _⟩ := hw₁.2.resolved
          rw [World.view_nil hw₁.1] at hskip
          exact hskip o ho hid hf
      · cases result with
        | none => exact ⟨hw.1, fun _ _ => hw.2 (by simp)⟩
        | some _ =>
          exact wp_seq R (sealing_unit ⟨rfl, rfl, rfl⟩ (by simp) hw.1)
            (fun _ w hw => sealing_unit trivial (by simp) hw.1) (fun _ _ hw => hw)
    · refine wp_mono (tells_commit (R := Sealing t m e)
        (fun w => Sealing t m e w ∧ ¬ lim.process ≤ m.attempt)
        (fun w w' hw hr hs hd => ⟨Sealing.stable w w' hw.1 hr hs hd, hw.2⟩)
        (fun w hw _ => ⟨trivial, .of_db rfl, hw.1.drop, hw.2⟩) (fun _ => .of_db rfl)
        (wp_mono (sealing_unit trivial (by simp) hw.1) (fun r w hw => ?_))) (fun r w hw => ?_)
      · cases r with
        | ok _ => exact hw.1
        | error x => exact ⟨hw.1, hw.2 x rfl⟩
      · cases r with
        | ok _ => exact ⟨hw, fun _ he => by cases he⟩
        | error x => exact ⟨hw.1, fun _ _ => hw.2⟩
  · refine ⟨by simp, fun _ _ hle => ?_⟩
    obtain ⟨hworks, _⟩ := (heeded_asks ha.1 trivial ((World.final_iff hw.1.message).mpr hle)).2 e
      hw.1.entered hw.1.resolved
    cases hworks

/-- An effect other than a commit judges nothing. -/
theorem plain_verdict {op : Op} (hc : op ≠ .commit) :
    Tells (verdict lim) lim (Heard lim) t (perform op) (fun _ _ => True) w :=
  tells_op _ trivial (Duty.stable_true _)
    (fun _ _ _ _ _ _ _ _ hd => ⟨trivial, .of_db (World.does_db hd hc), trivial⟩)

/-- On the last attempt an event fails whose payment is not settled. -/
theorem fail_verdict (hp : w.pend t = []) (h : Trying t m e pid w) (hu : Unsettled lim m e w)
    (hle : lim.process ≤ m.attempt) :
    Tells (verdict lim) lim (Heard lim) t (conclude e .failed) (fun _ _ => True) w := by
  let A : World → Prop := fun w => (Trying t m e pid w ∧ Unsettled lim m e w) ∧
    ∀ x ∈ w.pend t, ∃ at', x = .updateOutbox e .failed at'
  have hA : (verdict lim).Stable t A := fun w w' hw hr hs hd =>
    ⟨unsettled_stable w w' hw.1 hr hs hd, hr.pend ▸ hw.2⟩
  refine tells_within (fun _ _ => True) (fun _ => Duty.stable_true _) ?_
    (fun _ _ _ _ => ⟨trivial, .of_db rfl, trivial⟩) (fun _ => .of_db rfl) (fun _ _ _ => trivial)
    (fun _ _ _ _ _ _ => trivial)
  refine wp_seq (fun _ => A) (tells_only (@only_markProcessed (fun op => op ≠ .commit ∧ op ≠ .ack ∧
      ∀ x, World.Writes op x → x = .updateOutbox e .failed none) e .failed
      ⟨by simp, by simp, fun _ hx => hx.elim⟩ ⟨by simp, by simp, fun _ hx => hx⟩
      ⟨by simp, by simp, fun _ hx => hx.elim⟩) ⟨⟨h, hu⟩, by simp [hp]⟩ hA
      (fun op ho w₁ ch r w₂ hw₁ _ _ _ hd => ?_)) (fun _ w hw => ?_) (fun _ _ _ => trivial)
  · have hdb := World.does_db hd ho.1
    refine ⟨trivial, .of_db hdb, ⟨hw₁.1.1.does hd ho.1 ho.2.1, hw₁.1.2.of_db hdb⟩, fun x hx => ?_⟩
    rcases World.does_pend hd hx with hx | ⟨_, hx⟩
    · exact hw₁.2 x hx
    · exact ⟨none, ho.2.2 x hx⟩
  · refine wp_mono (tells_commit (R := fun _ => True) (fun _ => True) (Duty.stable_true _)
      (fun _ _ _ => ⟨trivial, .of_db rfl, trivial⟩) (fun _ => .of_db rfl)
      (tells_op A hw hA (fun w₁ ch r w₂ hw₁ hi _ ha hd => ?_))) (fun _ _ _ => trivial)
    refine ⟨trivial, .does hd (.commit_marks ha.2 hi (fun x hx => ?_) (fun o _ _ hset => ?_)), ?_⟩
    · obtain ⟨at', hx⟩ := hw₁.2 x hx
      exact ⟨e, .failed, at', hx⟩
    · obtain ⟨at', hx⟩ := hset
      obtain ⟨_, hx⟩ := hw₁.2 _ hx
      cases hx
      exact ⟨hw₁.1.1.toCalling.active, (World.final_iff hw₁.1.1.message).mpr hle, hw₁.1.2 hle⟩
    · cases r <;> trivial

/-- What a call raises that is excused. -/
theorem retryOrBury_verdict {deadKey : String} {deadHeaders : Option Nat} (hp : w.pend t = [])
    (h : lim.process ≤ m.attempt → Trying t m e pid w ∧ Unsettled lim m e w) :
    Tells (verdict lim) lim (Heard lim) t
      (retryOrBury newPaymentsQ lim.process m e deadKey deadHeaders) (fun _ _ => True) w := by
  have hstable : (verdict lim).Stable t (fun w => lim.process ≤ m.attempt →
      Trying t m e pid w ∧ Unsettled lim m e w) :=
    fun w w' hw hr hs hd hle => unsettled_stable w w' (hw hle) hr hs hd
  refine wp_seq (fun _ w => w.pend t = [] ∧ (lim.process ≤ m.attempt →
      Trying t m e pid w ∧ Unsettled lim m e w)) (tells_op _ ⟨hp, h⟩ hstable.during
      (fun w₁ ch r w₂ hw₁ _ _ _ hd => ?_)) (fun _ w hw => ?_) (fun _ _ _ => trivial)
  · cases hd <;> exact ⟨trivial, .of_db rfl, hw₁⟩
  · by_cases hlt : m.attempt < lim.process
    · rw [if_pos hlt]
      cases (retryRoutingQueues newPaymentsQ lim.process)[m.attempt]? with
      | none => trivial
      | some retry => exact plain_verdict (by simp)
    · rw [if_neg hlt]
      have hle := Nat.not_lt.mp hlt
      exact wp_seq (fun _ _ => True) (fail_verdict hw.1 (hw.2 hle).1 (hw.2 hle).2 hle)
        (fun _ _ _ => plain_verdict (by simp)) (fun _ _ _ => trivial)

/-- The guarded part of the handler. -/
theorem execute_verdict {event : PaymentEvent} (hid : event.id = e)
    (hattr : event.attr "payment_id" = .uuid pid) (hv : pid.version = some 4)
    (hp : w.pend t = []) (h : w.Undecided t newPaymentsQ m) (ht : Tasked e pid w.db) :
    Tells (verdict lim) lim (Heard lim) t (executePayment lim.process m event)
      (fun _ _ => True) w := by
  subst hid
  have hstable : (verdict lim).Stable t (fun w => w.Undecided t newPaymentsQ m ∧
      Tasked event.id pid w.db) :=
    fun _ _ hw hr hs _ => ⟨hw.1.of_story hs, hw.2.grows hr.grows⟩
  refine wp_catch (fun r w => ∀ x, r = .error x → w.pend t = [] ∧ (x.isBusinessRule = true ∨
      (lim.process ≤ m.attempt → Trying t m event.id pid w ∧ Unsettled lim m event.id w))) ?_
    (fun _ _ _ => trivial) (fun x w hw => ?_)
  · refine wp_seq (fun r w => (∀ x, r ≠ .error x) ∧ w.pend t = [] ∧ Trying t m event.id pid w)
      (tells_op _ ⟨hp, h, ht⟩ hstable.during (fun w₁ ch r w₂ hw₁ _ _ _ hd => ?_)) (fun _ w hw => ?_)
      (fun _ _ hw => absurd rfl (hw.1 _))
    · have hun := hw₁.2.1.does hd (by simp) (by simp)
      refine ⟨trivial, .of_db (World.does_db hd (by simp)), ?_⟩
      cases hd with
      | fault he => cases he
      | enter =>
        refine ⟨by simp, hw₁.1, ⟨hun, ?_⟩, hw₁.2.2⟩
        rw [World.story_told rfl rfl]
        exact List.mem_cons_self
    · refine wp_seq _ (process_verdict hattr hv hw.2.1 hw.2.2) (fun _ w hw => ?_)
        (fun x w hw y hy => ?_)
      · refine wp_mono (confirm_verdict hw.1 hw.2.1.1.message hw.2.1.1.entered (hw.2.2 rfl))
          (fun r w hw x hx => ?_)
        exact ⟨hw.1, .inr (fun hle => absurd hle (hw.2 x hx))⟩
      · cases hy
        exact ⟨hw.1, (hw.2.1.2 x rfl).imp_right (fun hu _ => ⟨hw.2.1.1, hu⟩)⟩
  · obtain ⟨hp, hx⟩ := hw x rfl
    split
    · trivial
    · rename_i hb
      exact retryOrBury_verdict hp (hx.resolve_left hb)

/-- The claim of an event decides nothing. -/
theorem claim_verdict (h : w.Undecided t newPaymentsQ m) :
    Tells (verdict lim) lim (Heard lim) t (claim e)
      (fun _ w => w.pend t = [] ∧ w.Undecided t newPaymentsQ m) w := by
  have hstable : (verdict lim).Stable t (World.Undecided t newPaymentsQ m) :=
    fun _ _ hw _ hs _ => hw.of_story hs
  exact tells_within (fun _ w => w.Undecided t newPaymentsQ m) (fun _ => hstable)
    (tells_only (only_markInProcess e) h hstable (fun op ho w₁ ch r w₂ hu _ _ _ hd =>
      ⟨trivial, .of_db (World.does_db hd ho.silent.1), hu.does hd ho.silent.1 ho.silent.2⟩))
    (fun _ w hw _ => ⟨trivial, .of_db rfl, hw.of_story (World.story_same rfl)⟩)
    (fun w => .of_db rfl) (fun _ _ hw => ⟨by simp, hw⟩) (fun _ _ _ _ hw _ => ⟨by simp, hw⟩)

theorem payment_verdict {i : Nat} (hi : w.Inv) (hr : w.ready[i]? = some (newPaymentsQ, m))
    (hs : w.story t = []) :
    Tells (verdict lim) lim (Heard lim) t (handlePaymentProcessing lim.process m)
      (fun _ _ => True) (w.deliver t i newPaymentsQ m) := by
  have hconnect : (perform .connect).Only (fun op => op ≠ .commit ∧ op ≠ .ack) := only_op (by simp)
  have hstable : (verdict lim).Stable t (World.Undecided t newPaymentsQ m) :=
    fun _ _ hw _ hst _ => hw.of_story hst
  simp only [handlePaymentProcessing, Prog.bind_eq, Prog.pure_eq]
  cases hd : decodeNew m.body with
  | error x => exact wp_seq _ (plain_verdict (by simp)) (fun _ _ _ => trivial) (fun _ _ _ => trivial)
  | ok event =>
    obtain ⟨o, ho, hb, hq, hid⟩ := decodedNew_backed (hi.ready _ (List.mem_of_getElem? hr)) hd
    obtain ⟨row, hrow, hc | ⟨_, hp⟩⟩ := hi.agree.origin o ho
    swap
    · exact absurd (hp.1.symm.trans hq) (by simp [EventClass.queue, newPaymentsQ])
    have htask : Tasked event.id row.id w.db := ⟨o, ho, hid, ⟨hc.1, hc.names⟩, row, hrow, rfl⟩
    have hattr : event.attr "payment_id" = .uuid row.id := by
      rw [hb, decode_created hc] at hd
      cases hd
      rfl
    have hgrow : ∀ db db', Tasked event.id row.id db → db.Grows db' → Tasked event.id row.id db' :=
      fun _ _ h hg => h.grows hg
    refine wp_seq _ (tells_frame (hconnect.mono (fun _ h => h.1)) hgrow (tells_only hconnect
      (deliver_undecided hs) hstable (fun op hop w₁ ch r w₂ hw₁ _ _ _ hdo =>
        ⟨trivial, .of_db (World.does_db hdo hop.1), hw₁.does hdo hop.1 hop.2⟩)) htask)
      (fun _ w hw => ?_) (fun _ _ _ => trivial)
    rw [Prog.ofExcept_ok_bind]
    refine wp_seq _ (tells_frame ((only_claim event.id).mono (fun _ h => h.silent.1)) hgrow
      (claim_verdict hw.1) hw.2) (fun claimed w hw => ?_) (fun _ _ _ => trivial)
    exact tells_gated (fun _ => True) (fun _ _ _ => trivial) (fun _ => execute_verdict rfl hattr
      (hi.sound.version row hrow) hw.1.1 hw.1.2 hw.2) (fun _ => trivial)
      (fun _ _ => plain_verdict (by simp))

/-- A handler of notifications marks processed events only. -/
theorem notify_verdict {i : Nat} (hi : w.Inv) (hr : w.ready[i]? = some (notifyPaymentsQ, m))
    (hp : w.pend t = []) :
    Tells (verdict lim) lim (Heard lim) t (handleNotifyClient lim.notify m)
      (fun _ _ => True) (w.deliver t i notifyPaymentsQ m) := by
  cases hd : decodeNotify m.body with
  | error x =>
    simp only [handleNotifyClient, hd]
    trivial
  | ok event =>
    obtain ⟨o, ho, _, hq, hid⟩ := decodedNotify_backed (hi.ready _ (List.mem_of_getElem? hr)) hd
    let A : World → Prop := fun w => (∀ x ∈ w.pend t, ∃ s at', x = .updateOutbox event.id s at') ∧
      ∃ o ∈ w.db.outbox.rows, o.id = event.id ∧ o.queue = EventClass.paymentProcessedEvent.queue
    have hA : (verdict lim).Stable t A := by
      rintro w w' ⟨hw, o, ho, hid, hq⟩ hr _ _
      obtain ⟨o', ho', he⟩ := hr.grows.event o ho
      exact ⟨hr.pend ▸ hw, o', ho', he.same.1.trans hid, he.same.2.1.trans hq⟩
    have honly : (handleNotifyClient lim.notify m).Only (fun op => ∀ x, World.Writes op x →
        ∃ s at', x = .updateOutbox event.id s at') := by
      refine only_handleNotifyClient (fun event' hd' op ho x hx => ?_)
      obtain rfl : event = event' := Except.ok.inj (hd.symm.trans hd')
      cases ho with
      | claims h | concludes h =>
        cases op <;> first
          | exact h.elim
          | exact hx.elim
          | exact ⟨_, _, h.1 ▸ hx⟩
      | enters | acks => exact hx.elim
      | uses h =>
        obtain ⟨_, _, _, rfl⟩ := h
        exact hx.elim
      | buries h =>
        rcases h with rfl | ⟨_, _, _, rfl⟩ | ⟨_, h | rfl⟩
        · exact hx.elim
        · exact hx.elim
        · cases op <;> first
            | exact h.elim
            | exact hx.elim
            | exact ⟨_, _, h.1 ▸ hx⟩
        · exact hx.elim
    refine wp_mono (tells_only honly (A := A) ⟨fun x hx => ?_, o, ho, hid, hq⟩ hA
      (fun op hop w₁ ch r w₂ hw₁ hi _ ha hd => ?_)) (fun _ _ _ => trivial)
    · exact absurd (hp ▸ hx) List.not_mem_nil
    · obtain ⟨hpend, o, ho, hid, hq⟩ := hw₁
      refine ⟨trivial, .does hd (.commit_marks ha.2 hi (fun x hx => ?_) (fun y hy hyq hset => ?_)),
        fun x hx => ?_, ?_⟩
      · obtain ⟨s, at', hx⟩ := hpend x hx
        exact ⟨_, s, at', hx⟩
      · -- the event of a notification is no created one
        obtain ⟨at', hx⟩ := hset
        obtain ⟨_, _, hx⟩ := hpend _ hx
        cases Table.eq_of_key hy ho ((Write.updateOutbox.inj hx).1.trans hid.symm)
        exact absurd (hyq.symm.trans hq) (by simp [EventClass.queue])
      · rcases World.does_pend hd hx with hx | ⟨_, hx⟩
        · exact hpend x hx
        · exact hop x hx
      · obtain ⟨o', ho', hid', hq', _⟩ := World.does_kept hd ho
        exact ⟨o', ho', hid'.trans hid, hq'.trans hq⟩

/-- Every program keeps the duty, where a last attempt is alone. -/
theorem verdict_met : (verdict lim).Met lim (Heard lim) where
  refl := fun _ w => ⟨rfl, .refl _, fun _ _ _ _ h => h⟩
  trans := by
    rintro t w w' w'' ⟨hs, hg, h⟩ ⟨hs', hg', h'⟩
    refine ⟨hs'.trans hs, hg.trans hg', fun o ho hact hfin hres => h o ho hact hfin ?_⟩
    obtain ⟨o', ho', he⟩ := hg.event o ho
    have hid : o'.id = o.id := he.same.1
    rw [← hid]
    refine h' o' ho' ?_ ?_ (hid ▸ hres)
    · simpa only [World.Active, hs, hid] using hact
    · simpa only [World.Final, hs] using hfin
  compat := fun t u w w' ht hg hs hj =>
    ⟨hs u ht, (hg.others u ht).grows, fun o ho hact hfin hres => hj.spares u ht o ho hact hfin hres⟩
  idle := fun _ => Duty.stable_true _
  aside := fun _ _ _ _ hd _ _ _ _ => ⟨trivial, .of_db hd⟩
  deliver := fun _ _ _ _ _ _ _ _ => ⟨trivial, .of_db rfl⟩
  finish := fun _ _ _ _ _ => ⟨trivial, .of_db rfl⟩
  crash := fun _ _ _ _ => ⟨trivial, .of_db rfl⟩
  environment := fun _ _ _ _ _ _ he => by
    obtain ⟨_, _, rfl⟩ := World.environment_same he
    exact ⟨trivial, fun _ => ⟨rfl, .refl _, fun _ _ _ _ h => h⟩⟩
  polls := fun p t w hp hn hw _ => by
    refine wp_mono (tells_only (A := fun w => w.Apart t ∧ ∀ id s at', .updatePayment id s at' ∉ w.pend t)
      (hp.and hn) ⟨World.apart_nil hw, by simp [hw]⟩
      (fun w w' h hr _ _ => ⟨fun x hx => h.1 x (hr.pend ▸ hx), hr.pend ▸ h.2⟩)
      (fun op ho w₁ ch r w₂ ha hi _ hheard hd => ?_)) (fun _ _ _ => trivial)
    refine ⟨trivial, .does hd (.commit_apart hheard.2 hi ha.1
      (fun id s at' hm => absurd hm (ha.2 id s at'))), (World.does_apart hd ho.1 ha.1).2, ?_⟩
    intro id s at' hm
    rcases World.does_pend hd hm with hm | ⟨_, hm⟩
    · exact ha.2 id s at' hm
    · cases op <;> first
        | exact hm.elim
        | exact ho.2 ⟨_, _, _, rfl⟩
        | cases hm
  payment := fun _ _ _ _ _ hr hi _ _ hs => payment_verdict hi hr hs
  notify := fun _ _ _ _ _ hr hi _ hp _ => notify_verdict hi hr hp

variable {c c' : Config World Op Op.Res Exc Reply} {mv : Move Op Choice Req Env}

/-- What is known of a configuration where every step was attentive. -/
abbrev Ruled (lim : Limits) (c : Config World Op Op.Res Exc Reply) : Prop :=
  (World.contract.both (verdict lim).contract).Holds (service lim) (Heard lim) c

theorem step_judges (hh : Ruled lim c) (ha : Heard lim c.shared mv)
    (hs : (service lim).Step c mv c') :
    ∃ t, World.Judges lim t c.shared c'.shared ∧ c.shared.db.Grows c'.shared.db := by
  obtain ⟨hgrows, hguar⟩ := verdict_met.promised hh ha hs
  cases hs with
  | run | exit | start | kill => exact ⟨_, hguar _ rfl, hgrows⟩
  | env he =>
    obtain ⟨_, _, heq⟩ := World.environment_same he
    exact ⟨0, .of_db (by rw [heq]), hgrows⟩

/-- An attentive step keeps the last attempts alone. -/
theorem untroubled_step (hh : Ruled lim c) (ha : Heard lim c.shared mv)
    (hs : (service lim).Step c mv c') : c'.shared.Untroubled lim := by
  obtain ⟨u, hj, _⟩ := step_judges hh ha hs
  have hfresh := (hh.fresh c.next (Nat.le_refl _)).2
  have hactive := fun {t : Tid} {e : UUID} (h : c'.shared.Active t e) =>
    (@active_back _ lim c c' mv hs hfresh t e h).1
  have hfinal : ∀ {t : Tid} {e : UUID}, c'.shared.Active t e → c'.shared.Final lim t →
      c.shared.Final lim t :=
    fun h ⟨m, hd, hle⟩ => ⟨m, delivered_back hs hfresh h hd, hle⟩
  refine ⟨fun t e hact o' ho' hid hq hst => ?_, fun t v e hne hact hact' hlast => ?_⟩
  · rcases hj.fails o' ho' hq hst with ⟨o, ho, hoid, hoq, hos⟩ | ⟨hu, hnot, hfin, _⟩
    · rcases hactive hact with hold | ⟨ch, rfl⟩
      · exact ha.2.notFailed t e hold o ho (hoid.trans hid) (hoq.trans hq) hos
      · exact ha.1.1 o ho (hoid.trans hid) (hoq.trans hq) hos
    · subst hid
      have hut : u ≠ t := fun h => hnot (h ▸ hact)
      rcases hactive hact with hold | ⟨ch, rfl⟩
      · exact ha.2.alone u t _ hut hu hold hfin
      · exact (ha.1.2 u hut hu).1 hfin
  · have hlast := hfinal hact hlast
    rcases hactive hact with hold | ⟨ch, rfl⟩
    · rcases hactive hact' with hold' | ⟨ch, rfl⟩
      · exact ha.2.alone t v e hne hold hold' hlast
      · exact (ha.1.2 t hne hold).1 hlast
    · rcases hactive hact' with hold' | ⟨ch', hm⟩
      · exact (ha.1.2 v hne.symm hold').2 hlast
      · cases hm
        exact hne rfl

theorem untroubled_reach (h : (service lim).Reach (Attentive lim) (Config.initial {}) c) :
    (service lim).Reach (Heard lim) (Config.initial {}) c ∧ c.shared.Untroubled lim := by
  have hinit : Ruled lim (Config.initial {}) :=
    Contract.holds_initial ⟨World.inv_empty, trivial⟩ (fun _ => ⟨rfl, rfl⟩)
  induction h with
  | init =>
    have hnone : ∀ t e, ¬ ({} : World).Active t e := fun _ _ ha => List.not_mem_nil ha.1
    exact ⟨.init, fun t e ha => absurd ha (hnone t e), fun t _ e _ ha => absurd ha (hnone t e)⟩
  | step _ ha hs ih =>
    have hheard := ih.1.step ⟨ha, ih.2⟩ hs
    exact ⟨hheard, untroubled_step (verdict_met.valid.holds_reach hinit ih.1) ⟨ha, ih.2⟩ hs⟩

/-- No failed created event is of a settled payment. -/
theorem failed_unresolved (h : (service lim).Reach (Attentive lim) (Config.initial {}) c) :
    ∀ o ∈ c.shared.db.outbox.rows, o.queue = EventClass.paymentCreatedEvent.queue →
      o.status = .failed → ¬ c.shared.Resolved o.id := by
  have hinit : Ruled lim (Config.initial {}) :=
    Contract.holds_initial ⟨World.inv_empty, trivial⟩ (fun _ => ⟨rfl, rfl⟩)
  induction h with
  | init => exact fun o ho => absurd ho List.not_mem_nil
  | step hr ha hs ih =>
    obtain ⟨hheard, halone⟩ := untroubled_reach hr
    obtain ⟨u, hj, _⟩ := step_judges (verdict_met.valid.holds_reach hinit hheard) ⟨ha, halone⟩ hs
    intro o' ho' hq hst hres
    rcases hj.fails o' ho' hq hst with ⟨o, ho, hid, hoq, hos⟩ | ⟨_, _, _, hn⟩
    · rcases hj.settles o ho (hid ▸ hres) with hold | hact
      · exact ih o ho (hoq.trans hq) hos hold
      · exact halone.notFailed u o.id hact o ho rfl (hoq.trans hq) hos
    · exact hn hres

/-- Where every step is attentive, the payment of a failed created event is pending and has no
processed event. -/
theorem failed_still_pending (h : (service lim).Reach (Attentive lim) (Config.initial {}) c)
    {o : OutboxRow} {r : PaymentRow} (ho : o ∈ c.shared.db.outbox.rows) (hs : o.status = .failed)
    (hr : r ∈ c.shared.db.payments.rows)
    (hn : o.Reports EventClass.paymentCreatedEvent.queue r.id) :
    r.status = .pending ∧ ¬ ∃ o' ∈ c.shared.db.outbox.rows,
      o'.Reports EventClass.paymentProcessedEvent.queue r.id := by
  have hpending : r.status = .pending := by
    by_contra hne
    exact failed_unresolved h o ho hn.1 hs ⟨o, ho, rfl, r, hr, hn, hne⟩
  refine ⟨hpending, ?_⟩
  rintro ⟨o', ho', hq, hname⟩
  have hreach : Reachable lim c := h.mono (fun _ _ _ => trivial)
  exact ((reachable_holds hreach).inv.agree.processed_of_names ho' hr hq hname).1 hpending

end

/-- The thread has ended. -/
def ends (t : Tid) (trace : List (Tid × Obs)) : Bool :=
  trace.any (fun d => d.1 = t && match d.2 with | .ended _ => true | _ => false)

theorem mem_of_ends {t : Tid} {trace : List (Tid × Obs)} (h : ends t trace = true) :
    ∃ r, (t, .ended r) ∈ trace := by
  obtain ⟨⟨u, o⟩, hm, ho⟩ := List.any_eq_true.mp h
  simp only [Bool.and_eq_true, decide_eq_true_eq] at ho
  obtain ⟨rfl, ho⟩ := ho
  cases o <;> first | exact ⟨_, hm⟩ | cases ho

/-- The steps of a run in which calls for an event come one after the other, none of them
settles a payment, and no failed event is called for. -/
def unsettling (w : World) (mv : Move Op Choice Req Env) : Bool :=
  w.db.payments.rows.all (fun r => r.status = .pending) && match mv with
  | .run _ (.enter e) _ => w.db.outbox.rows.all (fun o => o.status ≠ .failed) &&
      w.trace.all (fun d => match d.2 with | .entered e' => e' ≠ e || ends d.1 w.trace | _ => true)
  | .run _ _ (.lost _) => false
  | _ => true

theorem attentive_of_unsettling {lim : Limits} {w : World} {mv : Move Op Choice Req Env}
    (h : unsettling w mv = true) : Attentive lim w mv := by
  obtain ⟨hrows, hmv⟩ := Bool.and_eq_true_iff.mp h
  have hpending : ∀ r ∈ w.db.payments.rows, r.status = .pending :=
    fun r hr => by simpa using List.all_eq_true.mp hrows r hr
  have hnone : ∀ e, ¬ w.Resolved e := by
    rintro e ⟨_, _, _, r, hr, _, hs⟩
    exact hs (hpending r hr)
  unfold Attentive
  split
  · rename_i t e ch
    obtain ⟨hevents, htrace⟩ := Bool.and_eq_true_iff.mp hmv
    refine ⟨fun o ho _ _ => by simpa using List.all_eq_true.mp hevents o ho, fun u _ hact => ?_⟩
    have hend := List.all_eq_true.mp htrace _ (World.mem_story.mp hact.1).1
    obtain ⟨r, hm⟩ := mem_of_ends (by simpa using hend : ends u w.trace = true)
    exact absurd trivial (hact.2 _ (World.mem_story.mpr ⟨hm, rfl⟩))
  · trivial
  · trivial
  · refine fun _ => ⟨?_, fun e _ hres => absurd hres (hnone e)⟩
    rintro ⟨rfl, ⟨x, rfl⟩, _⟩
    cases hmv
  · trivial

def afterUnsettling : Option (Config World Op Op.Res Exc Reply) :=
  (sampleService {}).play unsettling lostRun (Config.initial {})

set_option maxRecDepth 20000 in
theorem lostRun_unsettling : afterUnsettling.isSome = true := by decide +kernel

/-- The created event of a payment whose deliveries were all lost. -/
def lostConfig : Config World Op Op.Res Exc Reply := afterUnsettling.get lostRun_unsettling

/-- A created event has failed. -/
def World.failsCreated (w : World) : Bool :=
  w.db.outbox.rows.any (fun o => o.queue = EventClass.paymentCreatedEvent.queue &&
    decide (o.status = .failed))

/-- The payment of a created event that has failed. -/
theorem World.exists_failed [Externals] {lim : Limits} {c : Config World Op Op.Res Exc Reply}
    (h : Reachable lim c) (hf : c.shared.failsCreated = true) :
    ∃ o ∈ c.shared.db.outbox.rows, o.status = .failed ∧ ∃ r ∈ c.shared.db.payments.rows,
      o.Reports EventClass.paymentCreatedEvent.queue r.id := by
  obtain ⟨o, ho, hx⟩ := List.any_eq_true.mp hf
  simp only [Bool.and_eq_true, decide_eq_true_eq] at hx
  obtain ⟨r, hr, hc | ⟨_, hp⟩⟩ := (reachable_holds h).inv.agree.origin o ho
  · exact ⟨o, ho, hx.2, r, hr, hc.1, hc.names⟩
  · exact absurd (hp.1.symm.trans hx.1) (by simp [EventClass.queue])

set_option maxRecDepth 20000 in
theorem lostConfig_fails : lostConfig.shared.failsCreated = true := by decide +kernel

theorem failed_still_pending_lost : ∃ c : Config World Op Op.Res Exc Reply,
    (sampleService {}).Reach (Attentive {}) (Config.initial {}) c ∧
      ∃ o ∈ c.shared.db.outbox.rows, o.status = .failed ∧ ∃ r ∈ c.shared.db.payments.rows,
        o.Reports EventClass.paymentCreatedEvent.queue r.id ∧ r.status = .pending := by
  have hr : (sampleService {}).Reach (Attentive {}) (Config.initial {}) lostConfig :=
    Sys.reach_of_play (fun _ _ h => attentive_of_unsettling h)
      (Option.some_get lostRun_unsettling).symm
  have hreach : @Reachable sample {} lostConfig := hr.mono (fun _ _ _ => trivial)
  obtain ⟨o, ho, hs, r, hm, hn⟩ := @World.exists_failed sample {} lostConfig hreach lostConfig_fails
  exact ⟨lostConfig, hr, o, ho, hs, r, hm, hn,
    (@failed_still_pending sample {} lostConfig hr o r ho hs hm hn).1⟩

/-- The first three deliveries of a created event lose the database. The last attempt settles the
payment and loses the broker before its report. -/
def misjudgedRun : Schedule :=
  createRun 0 (uid 1) (uid 10) (uid 11) ++ failRun 1 0 ++ [.env (.expire 0)] ++ failRun 2 0 ++
    [.env (.expire 0)] ++ failRun 3 0 ++ [.env (.expire 0), .start (.deliver 0), .run 4 .ok] ++
    claimRun 4 ++ oks 4 2 ++ [.run 4 (.coin true)] ++ stamps 4 (uid 12) ++ oks 4 6 ++
    [.run 4 (.fault .amqp)] ++ oks 4 8 ++ [.exit 4]

set_option maxRecDepth 20000 in
theorem misjudgedRun_some : (after {} misjudgedRun).isSome = true := by decide +kernel

def misjudged : Config World Op Op.Res Exc Reply := (after {} misjudgedRun).get misjudgedRun_some

set_option maxRecDepth 20000 in
theorem misjudged_fails : misjudged.shared.failsCreated = true ∧
    misjudged.shared.db.payments.rows.all (fun r => r.status ≠ .pending) = true ∧
    buries 4 misjudged.shared.trace = true := by decide +kernel

theorem failed_though_settled : ∃ c : Config World Op Op.Res Exc Reply, @Reachable sample {} c ∧
    (∃ o ∈ c.shared.db.outbox.rows, o.status = .failed ∧ ∃ r ∈ c.shared.db.payments.rows,
      o.Reports EventClass.paymentCreatedEvent.queue r.id ∧ r.status ≠ .pending) ∧
    ∃ t m, (t, .accepted paymentsDlx dlq.publishKey m) ∈ c.shared.trace := by
  have hr : @Reachable sample {} misjudged := reachable_after misjudgedRun_some
  obtain ⟨hfails, hsettled, hburied⟩ := misjudged_fails
  obtain ⟨o, ho, hs, r, hm, hn⟩ := @World.exists_failed sample {} misjudged hr hfails
  obtain ⟨⟨m, ha⟩, _⟩ := mem_of_buries hburied
  exact ⟨misjudged, hr, ⟨o, ho, hs, r, hm, hn,
    by simpa using List.all_eq_true.mp hsettled r hm⟩, 4, m, ha⟩

end Payments
