import Payments.Proofs.Encoding

namespace Payments

open Lib

theorem UUID.str_inj {u v : UUID} (h : u.str = v.str) : u = v := by
  have := UUID.parse_str u
  rw [h, UUID.parse_str v] at this
  exact (Option.some.inj this).symm

/-- The stored event names the payment. -/
def OutboxRow.Names (o : OutboxRow) (id : UUID) : Prop :=
  o.payload.text "payment_id" = some id.str

theorem PaymentRow.Created.names {r : PaymentRow} {o : OutboxRow} (h : r.Created o) :
    o.Names r.id := by
  simp [OutboxRow.Names, Json.text, h.2, createdPayload]

theorem PaymentRow.Processed.names {r : PaymentRow} {o : OutboxRow} (h : r.Processed o) :
    o.Names r.id := by
  obtain ⟨_, reason, hp⟩ := h
  simp [OutboxRow.Names, Json.text, hp, processedPayload]

theorem OutboxRow.Names.unique {o : OutboxRow} {a b : UUID} (ha : o.Names a) (hb : o.Names b) :
    a = b :=
  UUID.str_inj (Option.some.inj (ha.symm.trans hb))

theorem created_not_processed {r r' : PaymentRow} {o : OutboxRow} (h : r.Created o)
    (h' : r'.Processed o) : False := by
  have hq := h.1.symm.trans h'.1
  simp [EventClass.queue] at hq

/-- A payment row keeps what it was created with, and a settled one keeps everything. -/
def PaymentRow.Evolves (r r' : PaymentRow) : Prop :=
  r' = { r with status := r'.status, processedAt := r'.processedAt } ∧
    (r.status ≠ .pending → r' = r)

/-- An outbox row keeps its event, and is never pending again. -/
def OutboxRow.Evolves (o o' : OutboxRow) : Prop :=
  o' = { o with status := o'.status, handledAt := o'.handledAt } ∧
    (o.status ≠ .pending → o'.status ≠ .pending)

theorem PaymentRow.Evolves.refl (r : PaymentRow) : r.Evolves r := ⟨rfl, fun _ => rfl⟩

theorem OutboxRow.Evolves.refl (o : OutboxRow) : o.Evolves o := ⟨rfl, fun h => h⟩

theorem PaymentRow.Evolves.trans {a b c : PaymentRow} (h : a.Evolves b) (h' : b.Evolves c) :
    a.Evolves c := by
  refine ⟨?_, ?_⟩
  · rw [h'.1, h.1]
  · intro hs
    have hb := h.2 hs
    rw [h'.2 (hb ▸ hs), hb]

theorem OutboxRow.Evolves.trans {a b c : OutboxRow} (h : a.Evolves b) (h' : b.Evolves c) :
    a.Evolves c := by
  refine ⟨?_, fun hs => h'.2 (h.2 hs)⟩
  rw [h'.1, h.1]

theorem OutboxRow.Evolves.same {o o' : OutboxRow} (h : o.Evolves o') :
    o'.id = o.id ∧ o'.queue = o.queue ∧ o'.payload = o.payload ∧ o'.body = o.body := by
  rw [h.1]
  exact ⟨rfl, rfl, rfl, rfl⟩

theorem TaskStatus.Terminal.ne_pending {s : TaskStatus} (h : s.Terminal) : s ≠ .pending := by
  rcases h with rfl | rfl <;> decide

namespace Db

/-- The payments and the outbox agree: a payment has one created event, and one processed
event with its outcome as soon as it is settled and not before. -/
structure Agree (db : Db) : Prop where
  keys : ∀ r ∈ db.payments.rows, ∀ r' ∈ db.payments.rows,
    r.idempotencyKey = r'.idempotencyKey → r = r'
  amount : ∀ r ∈ db.payments.rows, ∃ neg coeff exp, r.amount = .finite neg coeff exp
  stamped : ∀ r ∈ db.payments.rows, r.status = .pending ↔ r.processedAt = none
  created : ∀ r ∈ db.payments.rows, ∃ o ∈ db.outbox.rows, r.Created o ∧
    ∀ o' ∈ db.outbox.rows, r.Created o' → o' = o
  processed : ∀ r ∈ db.payments.rows, r.status ≠ .pending → ∃ o ∈ db.outbox.rows,
    r.Processed o ∧ ∀ o' ∈ db.outbox.rows, r.Processed o' → o' = o
  origin : ∀ o ∈ db.outbox.rows, ∃ r ∈ db.payments.rows,
    r.Created o ∨ r.status ≠ .pending ∧ r.Processed o

/-- Rows are never removed and evolve only as they may. -/
structure Grows (db db' : Db) : Prop where
  payment : ∀ r ∈ db.payments.rows, ∃ r' ∈ db'.payments.rows, r.Evolves r'
  event : ∀ o ∈ db.outbox.rows, ∃ o' ∈ db'.outbox.rows, o.Evolves o'

/-- What every row can be read back from: a payment has an identifier of version 4 and its
metadata are an object, and no event is in process. -/
structure Sound (db : Db) : Prop where
  version : ∀ r ∈ db.payments.rows, r.id.version = some 4
  metadata : ∀ r ∈ db.payments.rows, ∃ items, r.metadata = .obj items
  event : ∀ o ∈ db.outbox.rows, o.status = .pending ∨ o.status.Terminal

/-- The three transactions that the service commits: a payment with its created event, the
outcome of a pending payment with its processed event, and the end state of an event. -/
inductive Change (db : Db) : List Write → Prop where
  | create (row : PaymentRow) (o : OutboxRow) (hid : db.payments.find? row.id = none)
      (hkey : ∀ r ∈ db.payments.rows, r.idempotencyKey ≠ row.idempotencyKey)
      (hnew : db.outbox.find? o.id = none) (hs : row.status = .pending)
      (hp : row.processedAt = none) (ha : ∃ neg coeff exp, row.amount = .finite neg coeff exp)
      (hm : ∃ items, row.metadata = .obj items) (hv : row.id.version = some 4)
      (hc : row.Created o) (ho : o.status = .pending) :
      Change db [.insertPayment row, .insertOutbox o]
  | settle (r : PaymentRow) (status : PaymentStatus) (processedAt : DateTime) (o : OutboxRow)
      (hr : r ∈ db.payments.rows) (hp : r.status = .pending) (hs : status ≠ .pending)
      (hnew : db.outbox.find? o.id = none) (hc : (settleRow status processedAt r).Processed o)
      (ho : o.status = .pending) :
      Change db [.updatePayment r.id status processedAt, .insertOutbox o]
  | mark (id : UUID) (status : TaskStatus) (handledAt : Option DateTime)
      (hs : status.Terminal) : Change db [.updateOutbox id status handledAt]

theorem agree_empty : Db.empty.Agree := by
  constructor <;> intro x hx <;> cases hx

theorem sound_empty : Db.empty.Sound := by
  constructor <;> intro x hx <;> cases hx

theorem Grows.refl (db : Db) : db.Grows db :=
  ⟨fun r hr => ⟨r, hr, rfl, fun _ => rfl⟩, fun o ho => ⟨o, ho, .refl o⟩⟩

theorem Grows.trans {a b c : Db} (h : a.Grows b) (h' : b.Grows c) : a.Grows c := by
  constructor
  · intro r hr
    obtain ⟨s, hs, he⟩ := h.payment r hr
    obtain ⟨u, hu, he'⟩ := h'.payment s hs
    exact ⟨u, hu, he.trans he'⟩
  · intro o ho
    obtain ⟨p, hp, he⟩ := h.event o ho
    obtain ⟨q, hq, he'⟩ := h'.event p hp
    exact ⟨q, hq, he.trans he'⟩

/-- A settled payment stays as it is. -/
theorem Grows.settled {db db' : Db} (h : db.Grows db') {r : PaymentRow}
    (hr : r ∈ db.payments.rows) (hs : r.status ≠ .pending) : r ∈ db'.payments.rows := by
  obtain ⟨r', hr', he⟩ := h.payment r hr
  rwa [he.2 hs] at hr'

variable {db : Db}

/-- The event that names a payment in the queue of processed events reports its outcome. -/
theorem Agree.processed_of_names (h : db.Agree) {o : OutboxRow} (ho : o ∈ db.outbox.rows)
    {r : PaymentRow} (hr : r ∈ db.payments.rows)
    (hq : o.queue = EventClass.paymentProcessedEvent.queue) (hn : o.Names r.id) :
    r.status ≠ .pending ∧ r.Processed o := by
  obtain ⟨x, hx, hc | ⟨hs, hp⟩⟩ := h.origin o ho
  · have := hc.1.symm.trans hq
    simp [EventClass.queue] at this
  · have hid : x.id = r.id := hp.names.unique hn
    rw [Table.eq_of_key hx hr hid] at hs hp
    exact ⟨hs, hp⟩

theorem Agree.created_of_names (h : db.Agree) {o : OutboxRow} (ho : o ∈ db.outbox.rows)
    {r : PaymentRow} (hr : r ∈ db.payments.rows)
    (hq : o.queue = EventClass.paymentCreatedEvent.queue) (hn : o.Names r.id) : r.Created o := by
  obtain ⟨x, hx, hc | ⟨_, hp⟩⟩ := h.origin o ho
  · rw [Table.eq_of_key hx hr (hc.names.unique hn)] at hc
    exact hc
  · have := hp.1.symm.trans hq
    simp [EventClass.queue] at this

theorem mem_updatePayment {id : UUID} {status : PaymentStatus} {processedAt : DateTime}
    {r : PaymentRow} : r ∈ (db.apply (.updatePayment id status processedAt)).payments.rows ↔
      (r ∈ db.payments.rows ∧ r.id ≠ id) ∨
        ∃ y ∈ db.payments.rows, y.id = id ∧ settleRow status processedAt y = r := by
  simp only [apply, Table.mem_update]

theorem mem_updateOutbox {id : UUID} {status : TaskStatus} {handledAt : Option DateTime}
    {o : OutboxRow} : o ∈ (db.apply (.updateOutbox id status handledAt)).outbox.rows ↔
      (o ∈ db.outbox.rows ∧ o.id ≠ id) ∨
        ∃ y ∈ db.outbox.rows, y.id = id ∧ markRow status handledAt y = o := by
  simp only [apply, Table.mem_update]

section ApplyAll

variable {ws : List Write}

/-- Changes leave the payments alone that they do not lock. -/
theorem mem_applyAll_payments {r : PaymentRow} (hr : r ∈ db.payments.rows)
    (h : ∀ x ∈ ws, .payment r.id ∉ x.resources) : r ∈ (db.applyAll ws).payments.rows := by
  induction ws generalizing db with
  | nil => exact hr
  | cons x ws ih =>
    refine @ih (db.apply x) ?_ (fun y hy => h y (List.mem_cons_of_mem _ hy))
    have hx := h x List.mem_cons_self
    cases x with
    | insertPayment row => exact Table.mem_insert.mpr (.inl hr)
    | updatePayment id status processedAt =>
      exact mem_updatePayment.mpr (.inl ⟨hr, by simpa [Write.resources] using hx⟩)
    | insertOutbox o => exact hr
    | updateOutbox id status handledAt => exact hr

/-- A payment that no change settles stays as it is. -/
theorem kept_applyAll_payments {r : PaymentRow} (hr : r ∈ db.payments.rows)
    (h : ∀ status processedAt, .updatePayment r.id status processedAt ∉ ws) :
    r ∈ (db.applyAll ws).payments.rows := by
  induction ws generalizing db with
  | nil => exact hr
  | cons x ws ih =>
    refine @ih (db.apply x) ?_ (fun s p hy => h s p (List.mem_cons_of_mem _ hy))
    cases x with
    | insertPayment row => exact Table.mem_insert.mpr (.inl hr)
    | updatePayment id status processedAt =>
      refine mem_updatePayment.mpr (.inl ⟨hr, fun hid => ?_⟩)
      exact h status processedAt (hid ▸ List.mem_cons_self)
    | insertOutbox o => exact hr
    | updateOutbox id status handledAt => exact hr

theorem mem_applyAll_outbox {o : OutboxRow} (ho : o ∈ db.outbox.rows)
    (h : ∀ x ∈ ws, .outbox o.id ∉ x.resources) : o ∈ (db.applyAll ws).outbox.rows := by
  induction ws generalizing db with
  | nil => exact ho
  | cons x ws ih =>
    refine @ih (db.apply x) ?_ (fun y hy => h y (List.mem_cons_of_mem _ hy))
    have hx := h x List.mem_cons_self
    cases x with
    | insertPayment row => exact ho
    | updatePayment id status processedAt => exact ho
    | insertOutbox row => exact Table.mem_insert.mpr (.inl ho)
    | updateOutbox id status handledAt =>
      exact mem_updateOutbox.mpr (.inl ⟨ho, by simpa [Write.resources] using hx⟩)

/-- No change removes an event. -/
theorem event_applyAll {id : UUID} (h : ∃ o ∈ db.outbox.rows, o.id = id) :
    ∃ o ∈ (db.applyAll ws).outbox.rows, o.id = id := by
  induction ws generalizing db with
  | nil => exact h
  | cons x ws ih =>
    apply @ih (db.apply x)
    obtain ⟨o, ho, hid⟩ := h
    cases x with
    | insertPayment row => exact ⟨o, ho, hid⟩
    | updatePayment id status processedAt => exact ⟨o, ho, hid⟩
    | insertOutbox row => exact ⟨o, Table.mem_insert.mpr (.inl ho), hid⟩
    | updateOutbox id' status handledAt =>
      by_cases he : o.id = id'
      · exact ⟨_, mem_updateOutbox.mpr (.inr ⟨o, ho, he, rfl⟩), hid⟩
      · exact ⟨o, mem_updateOutbox.mpr (.inl ⟨ho, he⟩), hid⟩

/-- No change frees the key of a payment. -/
theorem key_applyAll {key : UUID} (h : ∃ r ∈ db.payments.rows, r.idempotencyKey = key) :
    ∃ r ∈ (db.applyAll ws).payments.rows, r.idempotencyKey = key := by
  induction ws generalizing db with
  | nil => exact h
  | cons x ws ih =>
    apply @ih (db.apply x)
    obtain ⟨r, hr, hk⟩ := h
    cases x with
    | insertPayment row => exact ⟨r, Table.mem_insert.mpr (.inl hr), hk⟩
    | updatePayment id status processedAt =>
      by_cases he : r.id = id
      · exact ⟨_, mem_updatePayment.mpr (.inr ⟨r, hr, he, rfl⟩), hk⟩
      · exact ⟨r, mem_updatePayment.mpr (.inl ⟨hr, he⟩), hk⟩
    | insertOutbox row => exact ⟨r, hr, hk⟩
    | updateOutbox id status handledAt => exact ⟨r, hr, hk⟩

/-- A property of payments that no insert and no update touches stays true of all of them. -/
theorem forall_applyAll_payments {p : PaymentRow → Prop} (hdb : ∀ r ∈ db.payments.rows, p r)
    (hi : ∀ row, .insertPayment row ∈ ws → p row)
    (hu : ∀ r status processedAt, p r → p (settleRow status processedAt r)) :
    ∀ r ∈ (db.applyAll ws).payments.rows, p r := by
  induction ws generalizing db with
  | nil => exact hdb
  | cons x ws ih =>
    refine @ih (db.apply x) ?_ (fun row hr => hi row (List.mem_cons_of_mem _ hr))
    intro r hr
    cases x with
    | insertPayment row =>
      rcases Table.mem_insert.mp hr with hr | ⟨rfl, _⟩
      · exact hdb r hr
      · exact hi r List.mem_cons_self
    | updatePayment id status processedAt =>
      rcases mem_updatePayment.mp hr with ⟨hr, _⟩ | ⟨y, hy, _, rfl⟩
      · exact hdb r hr
      · exact hu y status processedAt (hdb y hy)
    | insertOutbox row => exact hdb r hr
    | updateOutbox id status handledAt => exact hdb r hr

theorem forall_applyAll_outbox {p : OutboxRow → Prop} (hdb : ∀ o ∈ db.outbox.rows, p o)
    (hi : ∀ o, .insertOutbox o ∈ ws → p o)
    (hu : ∀ o id status handledAt, .updateOutbox id status handledAt ∈ ws → o.id = id → p o →
      p (markRow status handledAt o)) :
    ∀ o ∈ (db.applyAll ws).outbox.rows, p o := by
  induction ws generalizing db with
  | nil => exact hdb
  | cons x ws ih =>
    refine @ih (db.apply x) ?_ (fun o ho => hi o (List.mem_cons_of_mem _ ho))
      (fun o id status handledAt hm => hu o id status handledAt (List.mem_cons_of_mem _ hm))
    intro o ho
    cases x with
    | insertPayment row => exact hdb o ho
    | updatePayment id status processedAt => exact hdb o ho
    | insertOutbox row =>
      rcases Table.mem_insert.mp ho with ho | ⟨rfl, _⟩
      · exact hdb o ho
      · exact hi o List.mem_cons_self
    | updateOutbox id status handledAt =>
      rcases mem_updateOutbox.mp ho with ⟨ho, _⟩ | ⟨y, hy, he, rfl⟩
      · exact hdb o ho
      · exact hu y id status handledAt List.mem_cons_self he (hdb y hy)

end ApplyAll

section Create

variable {row : PaymentRow} {o : OutboxRow}

theorem mem_payments_create (hid : db.payments.find? row.id = none) {r : PaymentRow} :
    r ∈ (db.applyAll [.insertPayment row, .insertOutbox o]).payments.rows ↔
      r ∈ db.payments.rows ∨ r = row := by
  simp [applyAll, apply, Table.mem_insert, hid]

theorem mem_outbox_create (hnew : db.outbox.find? o.id = none) {x : OutboxRow} :
    x ∈ (db.applyAll [.insertPayment row, .insertOutbox o]).outbox.rows ↔
      x ∈ db.outbox.rows ∨ x = o := by
  simp [applyAll, apply, Table.mem_insert, hnew]

end Create

section Settle

variable {r : PaymentRow} {status : PaymentStatus} {processedAt : DateTime} {o : OutboxRow}

theorem mem_payments_settle (hr : r ∈ db.payments.rows) {x : PaymentRow} :
    x ∈ (db.applyAll [.updatePayment r.id status processedAt, .insertOutbox o]).payments.rows ↔
      (x ∈ db.payments.rows ∧ x.id ≠ r.id) ∨ x = settleRow status processedAt r := by
  simp only [applyAll, apply, List.foldl, Table.mem_update]
  constructor
  · rintro (h | ⟨y, hy, he, rfl⟩)
    · exact .inl h
    · exact .inr (by rw [Table.eq_of_key hy hr he])
  · rintro (h | rfl)
    · exact .inl h
    · exact .inr ⟨r, hr, rfl, rfl⟩

theorem mem_outbox_settle (hnew : db.outbox.find? o.id = none) {x : OutboxRow} :
    x ∈ (db.applyAll [.updatePayment r.id status processedAt, .insertOutbox o]).outbox.rows ↔
      x ∈ db.outbox.rows ∨ x = o := by
  simp [applyAll, apply, Table.mem_insert, hnew]

end Settle

theorem mem_outbox_mark {id : UUID} {status : TaskStatus} {handledAt : Option DateTime}
    {x : OutboxRow} :
    x ∈ (db.applyAll [.updateOutbox id status handledAt]).outbox.rows ↔
      (x ∈ db.outbox.rows ∧ x.id ≠ id) ∨
        ∃ y ∈ db.outbox.rows, y.id = id ∧ markRow status handledAt y = x := by
  simp [applyAll, apply, Table.mem_update]

theorem Change.grows {ws : List Write} (h : db.Change ws) : db.Grows (db.applyAll ws) := by
  cases h with
  | create row o hid _ hnew =>
    exact ⟨fun r hr => ⟨r, (mem_payments_create hid).mpr (.inl hr), rfl, fun _ => rfl⟩,
      fun x hx => ⟨x, (mem_outbox_create hnew).mpr (.inl hx), .refl x⟩⟩
  | settle r status processedAt o hr hp _ hnew =>
    refine ⟨?_, fun x hx => ⟨x, (mem_outbox_settle hnew).mpr (.inl hx), .refl x⟩⟩
    intro x hx
    by_cases he : x.id = r.id
    · obtain rfl := Table.eq_of_key hx hr he
      exact ⟨settleRow status processedAt x, (mem_payments_settle hr).mpr (.inr rfl), rfl,
        fun hs => absurd hp hs⟩
    · exact ⟨x, (mem_payments_settle hr).mpr (.inl ⟨hx, he⟩), rfl, fun _ => rfl⟩
  | mark id status handledAt hs =>
    refine ⟨fun r hr => ⟨r, hr, rfl, fun _ => rfl⟩, ?_⟩
    intro x hx
    by_cases he : x.id = id
    · exact ⟨markRow status handledAt x, mem_outbox_mark.mpr (.inr ⟨x, hx, he, rfl⟩), rfl,
        fun _ => hs.ne_pending⟩
    · exact ⟨x, mem_outbox_mark.mpr (.inl ⟨hx, he⟩), .refl x⟩

theorem Agree.create (h : db.Agree) {row : PaymentRow} {o : OutboxRow}
    (hid : db.payments.find? row.id = none)
    (hkey : ∀ r ∈ db.payments.rows, r.idempotencyKey ≠ row.idempotencyKey)
    (hnew : db.outbox.find? o.id = none) (hs : row.status = .pending)
    (hp : row.processedAt = none) (ha : ∃ neg coeff exp, row.amount = .finite neg coeff exp)
    (hc : row.Created o) : (db.applyAll [.insertPayment row, .insertOutbox o]).Agree := by
  have hpay : ∀ x, x ∈ (db.applyAll [.insertPayment row, .insertOutbox o]).payments.rows ↔ _ :=
    fun x => mem_payments_create hid
  have hout : ∀ x, x ∈ (db.applyAll [.insertPayment row, .insertOutbox o]).outbox.rows ↔ _ :=
    fun x => mem_outbox_create hnew
  -- no event of the outbox names the new payment, whose identifier no payment has
  have hfree : ∀ x ∈ db.outbox.rows, ¬ x.Names row.id := by
    intro x hx hn
    obtain ⟨r, hr, hc' | ⟨_, hp'⟩⟩ := h.origin x hx
    · exact Table.find_none.mp hid r hr (hc'.names.unique hn)
    · exact Table.find_none.mp hid r hr (hp'.names.unique hn)
  constructor
  · intro r hr r' hr' he
    rcases (hpay r).mp hr with hm | rfl <;> rcases (hpay r').mp hr' with hm' | rfl
    · exact h.keys r hm r' hm' he
    · exact absurd he (hkey r hm)
    · exact absurd he.symm (hkey r' hm')
    · rfl
  · intro r hr
    rcases (hpay r).mp hr with hr | rfl
    · exact h.amount r hr
    · exact ha
  · intro r hr
    rcases (hpay r).mp hr with hr | rfl
    · exact h.stamped r hr
    · exact ⟨fun _ => hp, fun _ => hs⟩
  · intro r hr
    rcases (hpay r).mp hr with hm | rfl
    · obtain ⟨x, hx, hcx, hu⟩ := h.created r hm
      refine ⟨x, (hout x).mpr (.inl hx), hcx, fun x' hx' hc' => ?_⟩
      rcases (hout x').mp hx' with hx' | rfl
      · exact hu x' hx' hc'
      · exact absurd (hc'.names.unique hc.names) (Table.find_none.mp hid r hm)
    · refine ⟨o, (hout o).mpr (.inr rfl), hc, fun x' hx' hc' => ?_⟩
      rcases (hout x').mp hx' with hx' | rfl
      · exact absurd hc'.names (hfree x' hx')
      · rfl
  · intro r hr hst
    rcases (hpay r).mp hr with hr | rfl
    · obtain ⟨x, hx, hpx, hu⟩ := h.processed r hr hst
      refine ⟨x, (hout x).mpr (.inl hx), hpx, fun x' hx' hp' => ?_⟩
      rcases (hout x').mp hx' with hx' | rfl
      · exact hu x' hx' hp'
      · exact (created_not_processed hc hp').elim
    · exact absurd hs hst
  · intro x hx
    rcases (hout x).mp hx with hx | rfl
    · obtain ⟨r, hr, ho⟩ := h.origin x hx
      exact ⟨r, (hpay r).mpr (.inl hr), ho⟩
    · exact ⟨row, (hpay row).mpr (.inr rfl), .inl hc⟩

theorem Agree.settle (h : db.Agree) {r : PaymentRow} {status : PaymentStatus}
    {processedAt : DateTime} {o : OutboxRow} (hr : r ∈ db.payments.rows)
    (hp : r.status = .pending) (hs : status ≠ .pending) (hnew : db.outbox.find? o.id = none)
    (hc : (settleRow status processedAt r).Processed o) :
    (db.applyAll [.updatePayment r.id status processedAt, .insertOutbox o]).Agree := by
  have hpay : ∀ x, x ∈ (db.applyAll [.updatePayment r.id status processedAt,
      .insertOutbox o]).payments.rows ↔ _ := fun x => mem_payments_settle hr
  have hout : ∀ x, x ∈ (db.applyAll [.updatePayment r.id status processedAt,
      .insertOutbox o]).outbox.rows ↔ _ := fun x => mem_outbox_settle hnew
  -- a pending payment has no processed event yet
  have hnone : ∀ x ∈ db.outbox.rows, ∀ y : PaymentRow, y.id = r.id → ¬ y.Processed x := by
    intro x hx y hy hpx
    have := (h.processed_of_names hx hr hpx.1 (hy ▸ hpx.names)).1
    exact this hp
  constructor
  · intro x hx y hy he
    rcases (hpay x).mp hx with ⟨hx, hnx⟩ | rfl <;> rcases (hpay y).mp hy with ⟨hy, hny⟩ | rfl
    · exact h.keys x hx y hy he
    · exact absurd (congrArg PaymentRow.id (h.keys x hx r hr he)) hnx
    · exact absurd (congrArg PaymentRow.id (h.keys r hr y hy he)).symm hny
    · rfl
  · intro x hx
    rcases (hpay x).mp hx with ⟨hx, _⟩ | rfl
    · exact h.amount x hx
    · exact h.amount r hr
  · intro x hx
    rcases (hpay x).mp hx with ⟨hx, _⟩ | rfl
    · exact h.stamped x hx
    · simp [settleRow, hs]
  · intro x hx
    have hex : ∃ y ∈ db.payments.rows, y.id = x.id := by
      rcases (hpay x).mp hx with ⟨hx, _⟩ | rfl
      · exact ⟨x, hx, rfl⟩
      · exact ⟨r, hr, rfl⟩
    obtain ⟨y, hy, hid⟩ := hex
    obtain ⟨e, he, hce, hu⟩ := h.created y hy
    have hiff : ∀ e, y.Created e ↔ x.Created e := fun e => by simp [PaymentRow.Created, hid]
    refine ⟨e, (hout e).mpr (.inl he), (hiff e).mp hce, fun e' he' hc' => ?_⟩
    rcases (hout e').mp he' with he' | rfl
    · exact hu e' he' ((hiff e').mpr hc')
    · exact (created_not_processed hc' hc).elim
  · intro x hx hst
    rcases (hpay x).mp hx with ⟨hx, hne⟩ | rfl
    · obtain ⟨e, he, hpe, hu⟩ := h.processed x hx hst
      refine ⟨e, (hout e).mpr (.inl he), hpe, fun e' he' hp' => ?_⟩
      rcases (hout e').mp he' with he' | rfl
      · exact hu e' he' hp'
      · exact absurd (hp'.names.unique hc.names) hne
    · refine ⟨o, (hout o).mpr (.inr rfl), hc, fun e' he' hp' => ?_⟩
      rcases (hout e').mp he' with he' | rfl
      · exact absurd hp' (hnone e' he' _ rfl)
      · rfl
  · intro e he
    rcases (hout e).mp he with he | rfl
    · obtain ⟨y, hy, ho⟩ := h.origin e he
      by_cases hid : y.id = r.id
      · obtain rfl := Table.eq_of_key hy hr hid
        refine ⟨_, (hpay _).mpr (.inr rfl), ?_⟩
        rcases ho with hc' | ⟨hst, _⟩
        · exact .inl hc'
        · exact absurd hp hst
      · exact ⟨y, (hpay y).mpr (.inl ⟨hy, hid⟩), ho⟩
    · exact ⟨_, (hpay _).mpr (.inr rfl), .inr ⟨hs, hc⟩⟩

theorem Agree.mark (h : db.Agree) (id : UUID) {status : TaskStatus}
    (handledAt : Option DateTime) (hs : status.Terminal) :
    (db.applyAll [.updateOutbox id status handledAt]).Agree := by
  have hout : ∀ x, x ∈ (db.applyAll [.updateOutbox id status handledAt]).outbox.rows ↔ _ :=
    fun x => mem_outbox_mark
  -- a mark replaces an event by one with the same identifier, queue and payload
  have hto : ∀ x ∈ db.outbox.rows, ∃ x' ∈ (db.applyAll [.updateOutbox id status handledAt]).outbox.rows,
      x'.id = x.id ∧ x'.queue = x.queue ∧ x'.payload = x.payload := by
    intro x hx
    obtain ⟨x', hx', he⟩ := (Change.mark id status handledAt hs : db.Change _).grows.event x hx
    exact ⟨x', hx', he.same.1, he.same.2.1, he.same.2.2.1⟩
  have hof : ∀ x' ∈ (db.applyAll [.updateOutbox id status handledAt]).outbox.rows,
      ∃ x ∈ db.outbox.rows, x'.id = x.id ∧ x'.queue = x.queue ∧ x'.payload = x.payload := by
    intro x' hx'
    rcases (hout x').mp hx' with ⟨hx, _⟩ | ⟨y, hy, _, rfl⟩
    · exact ⟨x', hx, rfl, rfl, rfl⟩
    · exact ⟨y, hy, rfl, rfl, rfl⟩
  have key : ∀ {p : OutboxRow → Prop}, (∀ x y : OutboxRow, x.queue = y.queue →
      x.payload = y.payload → p x → p y) → (∃ o ∈ db.outbox.rows, p o ∧ ∀ o' ∈ db.outbox.rows,
        p o' → o' = o) → ∃ o ∈ (db.applyAll [.updateOutbox id status handledAt]).outbox.rows,
        p o ∧ ∀ o' ∈ (db.applyAll [.updateOutbox id status handledAt]).outbox.rows,
          p o' → o' = o := by
    rintro p hp ⟨o, ho, hpo, hu⟩
    obtain ⟨o', ho', hi, hq, hpl⟩ := hto o ho
    refine ⟨o', ho', hp _ _ hq.symm hpl.symm hpo, fun x hx hpx => ?_⟩
    obtain ⟨y, hy, hi', hq', hpl'⟩ := hof x hx
    have hyo := hu y hy (hp _ _ hq' hpl' hpx)
    exact Table.eq_of_key hx ho' (by rw [hi', hyo, hi])
  refine ⟨h.keys, h.amount, h.stamped, ?_, ?_, ?_⟩
  · intro r hr
    exact key (fun x y hq hp hc => ⟨hq ▸ hc.1, hp ▸ hc.2⟩) (h.created r hr)
  · intro r hr hs
    refine key (fun x y hq hp hc => ⟨hq ▸ hc.1, ?_⟩) (h.processed r hr hs)
    obtain ⟨reason, hr⟩ := hc.2
    exact ⟨reason, hp ▸ hr⟩
  · intro x' hx'
    obtain ⟨x, hx, _, hq, hp⟩ := hof x' hx'
    obtain ⟨r, hr, hc | ⟨hs, hc, reason, hre⟩⟩ := h.origin x hx
    · exact ⟨r, hr, .inl ⟨hq.trans hc.1, hp.trans hc.2⟩⟩
    · exact ⟨r, hr, .inr ⟨hs, hq.trans hc, reason, hp.trans hre⟩⟩

/-- Each transaction of the service keeps the agreement. -/
theorem Change.agree {ws : List Write} (hc : db.Change ws) (h : db.Agree) :
    (db.applyAll ws).Agree := by
  cases hc with
  | create row o hid hkey hnew hs hp ha _ _ hc => exact h.create hid hkey hnew hs hp ha hc
  | settle r status processedAt o hr hp hs hnew hc => exact h.settle hr hp hs hnew hc
  | mark id status handledAt hs => exact h.mark id handledAt hs

/-- Each transaction of the service leaves rows that can be read back. -/
theorem Change.sound {ws : List Write} (hc : db.Change ws) (h : db.Sound) :
    (db.applyAll ws).Sound := by
  cases hc with
  | create row o _ _ _ _ _ _ hm hv _ ho =>
    refine ⟨forall_applyAll_payments h.version ?_ (fun _ _ _ hr => hr),
      forall_applyAll_payments h.metadata ?_ (fun _ _ _ hr => hr),
      forall_applyAll_outbox h.event ?_ (by simp)⟩
    · simpa using hv
    · simpa using hm
    · rintro o' hm'
      obtain rfl : o' = o := by simpa using hm'
      exact .inl ho
  | settle r status processedAt o _ _ _ _ _ ho =>
    refine ⟨forall_applyAll_payments h.version (by simp) (fun _ _ _ hr => hr),
      forall_applyAll_payments h.metadata (by simp) (fun _ _ _ hr => hr),
      forall_applyAll_outbox h.event ?_ (by simp)⟩
    rintro o' hm'
    obtain rfl : o' = o := by simpa using hm'
    exact .inl ho
  | mark id status handledAt hs =>
    refine ⟨forall_applyAll_payments h.version (by simp) (fun _ _ _ hr => hr),
      forall_applyAll_payments h.metadata (by simp) (fun _ _ _ hr => hr),
      forall_applyAll_outbox h.event (by simp) ?_⟩
    intro o' id' status' handledAt' hm' _ _
    obtain ⟨rfl, rfl, rfl⟩ : id' = id ∧ status' = status ∧ handledAt' = handledAt := by
      simpa using hm'
    exact .inr hs

end Db

end Payments
