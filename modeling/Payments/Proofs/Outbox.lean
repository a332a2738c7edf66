import Payments.Proofs.Alone
import Payments.Proofs.Scenarios

namespace Payments

open Lib

/-- A later row with the event of an earlier one. -/
def OutboxRow.Copies (o o' : OutboxRow) : Prop :=
  o' = { o with status := o'.status, handledAt := o'.handledAt }

theorem OutboxRow.Copies.refl (o : OutboxRow) : o.Copies o := rfl

theorem OutboxRow.Copies.trans {a b c : OutboxRow} (h : a.Copies b) (h' : b.Copies c) :
    a.Copies c := by
  rw [OutboxRow.Copies] at h h' ⊢
  rw [h', h]

/-- The rows that an insert of these events stores. -/
def outboxRows (events : List PaymentEvent) : Except Exc (List OutboxRow) :=
  (events.mapM (fun e => serializeEvent e false)).bind (fun s => s.mapM SerializedEvent.toRow)

theorem outbox_rows_ok {events : List PaymentEvent} {rows : List OutboxRow} :
    outboxRows events = .ok rows ↔ List.Forall₂ PaymentEvent.StoredAs events rows := by
  simp only [outboxRows, except_bind_ok, mapM_ok]
  induction events generalizing rows with
  | nil => simp
  | cons e events ih =>
    simp only [List.forall₂_cons_left_iff, ← ih]
    constructor
    · rintro ⟨_, ⟨s, ss, hs, hss, rfl⟩, hrows⟩
      obtain ⟨o, os, ho, hos, rfl⟩ := List.forall₂_cons_left_iff.mp hrows
      exact ⟨o, os, except_bind_ok.mpr ⟨s, hs, ho⟩, ⟨ss, hss, hos⟩, rfl⟩
    · rintro ⟨o, os, ho, ⟨ss, hss, hos⟩, rfl⟩
      obtain ⟨s, hs, ho⟩ := except_bind_ok.mp ho
      exact ⟨s :: ss, ⟨s, ss, hs, hss, rfl⟩, .cons ho hos⟩

/-- The row of a new event has its identifier and is pending. -/
theorem PaymentEvent.StoredAs.fresh {e : PaymentEvent} {o : OutboxRow} (h : e.StoredAs o) :
    o.id = e.id ∧ o.status = .pending := by
  obtain ⟨s, hs, ho⟩ := except_bind_ok.mp h
  have hid : s.id = e.id.str := by
    unfold serializeEvent at hs
    obtain ⟨_, _, hs⟩ := except_bind_ok.mp hs
    obtain ⟨_, _, hs⟩ := except_bind_ok.mp hs
    obtain ⟨_, _, hs⟩ := except_bind_ok.mp hs
    simp only [Bool.false_eq_true, ↓reduceIte, bind, Except.bind] at hs
    rw [← Except.ok.inj hs]
  unfold SerializedEvent.toRow at ho
  rw [hid, UUID.parse_str] at ho
  split at ho
  · cases ho
  · rename_i hparse _
    cases hparse
    cases ho
    exact ⟨rfl, rfl⟩
  · cases ho

namespace Db

variable {db : Db} {id : UUID} {rows : List OutboxRow}

/-- The row that stays under an identifier when rows are added: the one that comes first. -/
def keeps (db : Db) (rows : List OutboxRow) (id : UUID) : Option OutboxRow :=
  (db.outbox.find? id).or (rows.find? (fun o => o.id = id))

/-- The new rows of an insert that does nothing on a conflict. -/
def fresh (db : Db) (rows : List OutboxRow) : List OutboxRow :=
  rows.filter (fun o => (db.outbox.find? o.id).isNone)

theorem find_inserts : (db.applyAll (rows.map .insertOutbox)).outbox.find? id = db.keeps rows id := by
  induction rows generalizing db with
  | nil => simp [applyAll, keeps]
  | cons o rows ih =>
    have hrest := @ih (db.apply (.insertOutbox o))
    rw [List.map_cons, applyAll, List.foldl_cons]
    refine hrest.trans ?_
    simp only [keeps, apply, Table.find_insert, List.find?_cons]
    by_cases h : o.id = id
    · cases hf : db.outbox.find? id <;> simp [h]
    · simp [h]

theorem keeps_fresh : db.keeps (db.fresh rows) id = db.keeps rows id := by
  cases h : db.outbox.find? id with
  | some o => simp [keeps, h]
  | none =>
    simp only [keeps, h, Option.none_or, fresh, List.find?_filter]
    congr 1
    funext o
    by_cases ho : o.id = id <;> simp [ho, h]

end Db

theorem World.view_write {w : World} {t : Tid} {ws : List Write} :
    (w.write t ws).view t = (w.view t).applyAll ws := by
  simp [World.view, Db.applyAll, List.foldl_append]

section Add

variable [Externals] {lim : Limits} {t : Tid} {w : World}

/-- What an insert of rows does to a session, or why it does nothing. -/
def Inserts (t : Tid) (w : World) (rows : Except Exc (List OutboxRow)) (r : Except Exc Unit)
    (w' : World) : Prop :=
  match rows with
  | .ok rows => r = .ok () ∧
      w'.view t = (w.view t).applyAll (((w.view t).fresh rows).map .insertOutbox)
  | .error e => r = .error e ∧ w' = w

theorem solo_insert (events : List SerializedEvent) :
    Solo lim (fun _ m => works m = true) t ((perform (.insertOutbox events)).bind (fun _ =>
      perform .flush)) (Inserts t w (events.mapM SerializedEvent.toRow)) w := by
  apply solo_bind (Inserts t w (events.mapM SerializedEvent.toRow))
  · apply solo_op
    intro ch r w' ha hd
    cases hd with
    | fault => cases ha
    | refuseOutbox hv =>
      unfold Inserts
      rw [hv]
      exact ⟨rfl, rfl⟩
    | insertOutbox hv =>
      unfold Inserts
      rw [hv]
      exact ⟨rfl, World.view_write⟩
  · intro _ w₁ h
    apply solo_op
    intro ch r w' ha hd
    cases hd with
    | fault => cases ha
    | flush => exact h
  · exact fun _ _ h => h

theorem add_alone (events : List PaymentEvent) :
    Solo lim (fun _ m => works m = true) t (OutboxRepository.add events)
      (Inserts t w (outboxRows events)) w := by
  cases events with
  | nil => exact ⟨rfl, rfl⟩
  | cons e events =>
    unfold OutboxRepository.add outboxRows
    simp only [List.isEmpty_cons, Bool.false_eq_true, ↓reduceIte, Prog.bind_eq]
    cases hm : (e :: events).mapM (fun e => serializeEvent e false) with
    | error err => exact ⟨rfl, rfl⟩
    | ok serialized => exact solo_insert serialized

omit [Externals] in
/-- On a list both are the same. -/
theorem add_from_list (noRows : Except Exc Unit) (events : List PaymentEvent) :
    OutboxRepository.addFrom noRows (.ofList events) = OutboxRepository.add events := by
  unfold OutboxRepository.addFrom OutboxRepository.add Iterable.ofList
  cases events with
  | nil => rfl
  | cons e events =>
    simp only [List.isEmpty_cons, Bool.false_eq_true, ↓reduceIte]
    cases hm : (e :: events).mapM (fun e => serializeEvent e false) with
    | error err => rfl
    | ok serialized =>
      obtain ⟨s, ss, _, _, rfl⟩ := List.forall₂_cons_left_iff.mp (mapM_ok.mp hm)
      rfl

/-- What `add` does with any iterable. -/
def InsertsFrom (t : Tid) (w : World) (noRows : Except Exc Unit) (events : Iterable PaymentEvent)
    (r : Except Exc Unit) (w' : World) : Prop :=
  if events.first = [] then r = .ok () ∧ w' = w
  else if events.second = [] then r = noRows ∧ w' = w
  else Inserts t w (outboxRows events.second) r w'

theorem solo_add_from (noRows : Except Exc Unit) (events : Iterable PaymentEvent) :
    Solo lim (fun _ m => works m = true) t (OutboxRepository.addFrom noRows events)
      (InsertsFrom t w noRows events) w := by
  obtain ⟨first, second⟩ := events
  cases first with
  | nil => exact ⟨rfl, rfl⟩
  | cons e first =>
    cases second with
    | nil =>
      cases noRows with
      | error err => exact ⟨rfl, rfl⟩
      | ok _ =>
        apply solo_op
        intro ch r w' ha hd
        cases hd with
        | fault => cases ha
        | flush => exact ⟨rfl, rfl⟩
    | cons e' second =>
      have h := @add_alone _ lim t w (e' :: second)
      rw [← add_from_list noRows] at h
      exact h

end Add

section Iterable

variable [Externals] {lim : Limits} {t : Tid} {w w' : World}

/-- The outbox has a row of the event, which is pending if there was none before. -/
def PaymentEvent.Kept (e : PaymentEvent) (before after : Db) : Prop :=
  ∃ o o', e.StoredAs o ∧ after.outbox.find? e.id = some o' ∧ o.Copies o' ∧
    (before.outbox.find? e.id = none → o'.status = .pending)

/-- The second traversal yields events that can be stored, and what it stores under the
identifiers of the first, with the rows that are there already, are their events. -/
def Iterable.Repeats (noRows : Except Exc Unit) (events : Iterable PaymentEvent) (db : Db) : Prop :=
  (events.second = [] → noRows = .ok ()) ∧ ∃ rows, outboxRows events.second = .ok rows ∧
    ∀ e ∈ events.first, ∃ o o', e.StoredAs o ∧ db.keeps rows e.id = some o' ∧ o.Copies o'

/-- An insert waits for no one where no other transaction locks an event. -/
theorem runs_insert (hf : ∀ id, w.Free t (.outbox id)) (events : List SerializedEvent) :
    ∃ r w', (service lim).Runs (fun _ m => works m = true) t ((perform (.insertOutbox events)).bind
      (fun _ => perform .flush)) w r w' := by
  obtain ⟨r, w₁, he⟩ : ∃ r w₁, World.exec lim t (.insertOutbox events) .ok w = some (r, w₁) := by
    simp only [World.exec, World.answer, World.whenOk, World.insertOutbox]
    split
    · exact ⟨_, _, rfl⟩
    · simp [hf]
  have hperform : (service lim).Runs (fun _ m => works m = true) t
      (perform (.insertOutbox events)) w r w₁ := runs_op (fun _ _ h => h) .ok rfl he
  cases r with
  | error e => exact ⟨_, _, hperform.bind_error⟩
  | ok u => exact ⟨_, _, hperform.bind (runs_op (fun _ _ h => h) .ok rfl rfl)⟩

theorem runs_add_from (hf : ∀ id, w.Free t (.outbox id)) (noRows : Except Exc Unit)
    (events : Iterable PaymentEvent) : ∃ r w', (service lim).Runs (fun _ m => works m = true) t
      (OutboxRepository.addFrom noRows events) w r w' := by
  unfold OutboxRepository.addFrom
  cases events.first with
  | nil => exact ⟨_, _, .ret _ _⟩
  | cons e first =>
    simp only [List.isEmpty_cons, Bool.false_eq_true, ↓reduceIte]
    cases events.second.mapM (fun e => serializeEvent e false) with
    | error err => exact ⟨_, _, .raise _ _⟩
    | ok serialized =>
      cases serialized with
      | cons s ss => exact runs_insert hf (s :: ss)
      | nil =>
        cases noRows with
        | error err => exact ⟨_, _, .raise _ _⟩
        | ok u => exact ⟨_, _, runs_op (fun _ _ h => h) .ok rfl rfl⟩

omit [Externals] in
theorem fresh_rows {events : List PaymentEvent} {rows : List OutboxRow}
    (h : outboxRows events = .ok rows) : ∀ o ∈ rows, o.status = .pending := by
  intro o ho
  obtain ⟨e, _, he⟩ := (forall₂_mem (outbox_rows_ok.mp h)).2 o ho
  exact he.fresh.2

omit [Externals] in
/-- Where the first row under every identifier stays, an event is kept if that row is its own. -/
theorem kept_iff {e : PaymentEvent} {before after : Db} {rows : List OutboxRow}
    (hp : ∀ o ∈ rows, o.status = .pending)
    (h : ∀ id, after.outbox.find? id = before.keeps rows id) : e.Kept before after ↔
      ∃ o o', e.StoredAs o ∧ before.keeps rows e.id = some o' ∧ o.Copies o' := by
  unfold PaymentEvent.Kept
  rw [h]
  refine exists_congr (fun o => exists_congr (fun o' => ?_))
  constructor
  · rintro ⟨ho, hk, hc, _⟩
    exact ⟨ho, hk, hc⟩
  · rintro ⟨ho, hk, hc⟩
    refine ⟨ho, hk, hc, fun hn => hp o' ?_⟩
    rw [Db.keeps, hn, Option.none_or] at hk
    exact List.mem_of_find?_eq_some hk

/-- `add` stores every event of an iterable exactly where its second traversal repeats them. -/
theorem add_stores_iterable (lim : Limits) (t : Tid) (w : World) (noRows : Except Exc Unit)
    (events : Iterable PaymentEvent) :
    ((∀ id, w.Free t (.outbox id)) → ∃ r w', (service lim).Runs (fun _ m => works m = true) t
      (OutboxRepository.addFrom noRows events) w r w') ∧
    ∀ r w', (service lim).Runs (fun _ m => works m = true) t
      (OutboxRepository.addFrom noRows events) w r w' →
      ((r = .ok () ∧ (∀ e ∈ events.first, e.Kept (w.view t) (w'.view t)) ∧
        (events.first = [] → w' = w)) ↔
        (events.first = [] ∨ events.Repeats noRows (w.view t))) := by
  refine ⟨fun hf => runs_add_from hf noRows events, fun r w' hr => ?_⟩
  have h := Runs.alone hr (solo_add_from noRows events)
  unfold InsertsFrom at h
  split at h
  · rename_i hfirst
    obtain ⟨rfl, rfl⟩ := h
    exact iff_of_true ⟨rfl, by simp [hfirst], fun _ => rfl⟩ (.inl hfirst)
  · rename_i hfirst
    simp only [hfirst, false_or, false_imp_iff, and_true]
    have hkept : ∀ {rows}, outboxRows events.second = .ok rows →
        (∀ id, (w'.view t).outbox.find? id = (w.view t).keeps rows id) →
        ((∀ e ∈ events.first, e.Kept (w.view t) (w'.view t)) ↔ ∀ e ∈ events.first, ∃ o o',
          e.StoredAs o ∧ (w.view t).keeps rows e.id = some o' ∧ o.Copies o') :=
      fun hrows hv => forall₂_congr (fun e _ => kept_iff (fresh_rows hrows) hv)
    split at h
    · rename_i hsecond
      obtain ⟨rfl, rfl⟩ := h
      have hrows : outboxRows events.second = .ok [] := by rw [hsecond]; rfl
      rw [hkept hrows (fun id => by simp [Db.keeps])]
      constructor
      · rintro ⟨rfl, hall⟩
        exact ⟨fun _ => rfl, [], hrows, hall⟩
      · rintro ⟨hno, rows, hrows', hall⟩
        cases hrows.symm.trans hrows'
        exact ⟨hno hsecond, hall⟩
    · rename_i hsecond
      unfold Inserts at h
      cases hrows : outboxRows events.second with
      | error e =>
        rw [hrows] at h
        refine iff_of_false ?_ ?_
        · rintro ⟨hok, _⟩
          cases h.1.symm.trans hok
        · rintro ⟨_, rows, hrows', _⟩
          cases hrows.symm.trans hrows'
      | ok rows =>
        rw [hrows] at h
        obtain ⟨rfl, hview⟩ := h
        have hfind : ∀ id, (w'.view t).outbox.find? id = (w.view t).keeps rows id := by
          intro id
          rw [hview, Db.find_inserts, Db.keeps_fresh]
        rw [hkept hrows hfind]
        constructor
        · rintro ⟨_, hall⟩
          exact ⟨fun hn => absurd hn hsecond, rows, hrows, hall⟩
        · rintro ⟨_, rows', hrows', hall⟩
          cases hrows.symm.trans hrows'
          exact ⟨rfl, hall⟩

end Iterable

def generatedEvent : PaymentEvent := createdEvent (uid 1) (uid 2) sampleTime

/-- The event of a generator is not stored, and the insert without rows fails. -/
theorem generator_not_stored : (∃ o, generatedEvent.StoredAs o) ∧ ∃ r w',
    (sampleService {}).Runs (fun _ m => works m = true) 0
      (OutboxRepository.addFrom (.error .integrity) (.generator [generatedEvent])) {} r w' ∧
    r ≠ .ok () ∧ ¬ generatedEvent.Kept (World.view {} 0) (w'.view 0) := by
  refine ⟨⟨_, created_stored _ _ _⟩, _, _, .raise _ _, by simp, ?_⟩
  rintro ⟨o, o', _, hfind, _⟩
  cases hfind

/-- The calls on an outbox in a session. -/
inductive OutboxCall where
  | add (events : List PaymentEvent)
  | markInProcess (eventId : UUID)
  | markProcessed (eventId : UUID) (updStatus : TaskStatus)
  | getPendings (limit offset : Nat)
  | commit

def OutboxCall.run : OutboxCall → Service Unit
  | add events => OutboxRepository.add events
  | markInProcess eventId => (OutboxRepository.markInProcess eventId).bind (fun _ => .ret ())
  | markProcessed eventId updStatus => OutboxRepository.markProcessed eventId updStatus
  | getPendings limit offset => (OutboxRepository.getPendings limit offset).bind (fun _ => .ret ())
  | commit => Uow.commit

/-- A sequence of calls, each with its outcome. -/
inductive Calls [Externals] (lim : Limits) (t : Tid) :
    World → List (OutboxCall × Except Exc Unit) → World → Prop
  | nil (w : World) : Calls lim t w [] w
  | cons {w w₁ w' : World} {c : OutboxCall} {r : Except Exc Unit}
      {cs : List (OutboxCall × Except Exc Unit)}
      (hr : (service lim).Runs (fun _ m => works m = true) t c.run w r w₁)
      (h : Calls lim t w₁ cs w') : Calls lim t w ((c, r) :: cs) w'

/-- The events that the calls added, in their order. -/
def added : List (OutboxCall × Except Exc Unit) → List PaymentEvent
  | (.add events, .ok _) :: cs => events ++ added cs
  | _ :: cs => added cs
  | [] => []

section Calls

variable {db db' db'' : Db}

/-- Under every identifier there is the row of before, up to its status. -/
def Db.Marked (db db' : Db) : Prop :=
  ∀ id, Option.Rel OutboxRow.Copies (db.outbox.find? id) (db'.outbox.find? id)

theorem Db.Marked.refl (db : Db) : db.Marked db := by
  intro id
  cases db.outbox.find? id with
  | none => exact .none
  | some o => exact .some (.refl o)

theorem copies_trans {x y z : Option OutboxRow} (h : Option.Rel OutboxRow.Copies x y)
    (h' : Option.Rel OutboxRow.Copies y z) : Option.Rel OutboxRow.Copies x z := by
  cases h with
  | none => exact h'
  | some h =>
    cases h' with
    | some h' => exact .some (h.trans h')

/-- A row that stays is there, and one that is there has stayed. -/
theorem copies_some {x y : Option OutboxRow} (h : Option.Rel OutboxRow.Copies x y) :
    (∀ o, x = some o → ∃ o', y = some o' ∧ o.Copies o') ∧
      ∀ o', y = some o' → ∃ o, x = some o ∧ o.Copies o' := by
  cases h with
  | none => simp
  | some h => simp [h]

theorem Db.Marked.trans (h : db.Marked db') (h' : db'.Marked db'') : db.Marked db'' :=
  fun id => copies_trans (h id) (h' id)

theorem Db.marked_update (id : UUID) (status : TaskStatus) (handledAt : Option DateTime) :
    db.Marked (db.apply (.updateOutbox id status handledAt)) := by
  intro j
  simp only [Db.apply, Table.find_update]
  cases db.outbox.find? j with
  | none => split <;> exact .none
  | some o =>
    split
    · exact .some rfl
    · exact .some (.refl o)

/-- The effects of the calls that mark and poll. -/
def Op.Marks : Op → Prop
  | .now | .selectPendingId _ | .updateOutbox _ _ _ | .flush | .selectOutboxId _
  | .selectPendings _ _ | .commit => True
  | _ => False

variable {lim : Limits} {t : Tid} {w w' : World} {α : Type}

theorem does_marked {op : Op} (ho : op.Marks) {ch : Choice} {r : Except Exc op.Res}
    (h : World.Does lim t w op ch r w') : (w.view t).Marked (w'.view t) := by
  cases h with
  | fault => cases op <;> first | exact .refl _ | exact ho.elim
  | commit | lostCommit =>
    rw [World.view_nil (w := w.commit t) (by simp)]
    exact .refl _
  | updateOutbox =>
    rw [World.view_write]
    exact Db.marked_update _ _ _
  | lockEvent | skipEvent | pendings | claim | skipClaim | missEvent | flush | now => exact .refl _
  | _ => exact ho.elim

variable [Externals]

theorem solo_marks {p : Service α} (hp : p.Only Op.Marks) :
    Solo lim (fun _ m => works m = true) t p (fun _ w' => (w.view t).Marked (w'.view t)) w := by
  refine wp_only hp (Db.Marked.refl _) (fun _ _ h he => he ▸ h) ?_
  intro op ho w₁ ch r w₂ h _ _ he
  exact ⟨trivial, trivial, h.trans (does_marked ho (World.exec_does he))⟩

omit [Externals] in
theorem marks_in_process (eventId : UUID) :
    (OutboxRepository.markInProcess eventId).Only Op.Marks := by
  refine Prog.Only.bind ((Prog.only_perform _).mpr trivial) (fun now => ?_)
  refine Prog.Only.bind ((Prog.only_perform _).mpr trivial) (fun lockedId => ?_)
  cases lockedId with
  | none => trivial
  | some id =>
    refine Prog.Only.bind ((Prog.only_perform _).mpr trivial) (fun _ => ?_)
    exact Prog.Only.bind ((Prog.only_perform _).mpr trivial) (fun _ => trivial)

omit [Externals] in
theorem marks_processed (eventId : UUID) (updStatus : TaskStatus) :
    (OutboxRepository.markProcessed eventId updStatus).Only Op.Marks := by
  refine Prog.Only.bind ((Prog.only_perform _).mpr trivial) (fun result => ?_)
  cases result with
  | none => trivial
  | some id =>
    refine Prog.Only.bind ((Prog.only_perform _).mpr trivial) (fun _ => ?_)
    exact (Prog.only_perform _).mpr trivial

omit [Externals] in
theorem marks_pendings (limit offset : Nat) :
    (OutboxRepository.getPendings limit offset).Only Op.Marks :=
  Prog.Only.bind ((Prog.only_perform _).mpr trivial) (fun _ => Prog.only_ofExcept _)

theorem commit_marked : Solo lim (fun _ m => works m = true) t Uow.commit
    (fun _ w' => (w.view t).Marked (w'.view t)) w := by
  refine solo_handle (fun r w' => r = .ok () ∧ (w.view t).Marked (w'.view t)) ?_
    (fun _ _ h => h.2) (fun _ _ h => by cases h.1)
  apply solo_op
  intro ch r w' ha hd
  have hmarked := does_marked (by trivial) hd
  cases hd with
  | fault | lostCommit => cases ha
  | commit => exact ⟨rfl, hmarked⟩

/-- Every call but `add` only marks rows. -/
theorem runs_marked {c : OutboxCall} (hc : ∀ events, c ≠ .add events) {r : Except Exc Unit}
    (hr : (service lim).Runs (fun _ m => works m = true) t c.run w r w') :
    (w.view t).Marked (w'.view t) := by
  cases c with
  | add events => exact absurd rfl (hc events)
  | markInProcess eventId =>
    exact Runs.alone hr (solo_marks ((marks_in_process eventId).bind (fun _ => trivial)))
  | markProcessed eventId updStatus =>
    exact Runs.alone hr (solo_marks (marks_processed eventId updStatus))
  | getPendings limit offset =>
    exact Runs.alone hr (solo_marks ((marks_pendings limit offset).bind (fun _ => trivial)))
  | commit => exact Runs.alone hr commit_marked

/-- Under every identifier there is the row that came first, up to its status. -/
def Db.Written (db : Db) (rows : List OutboxRow) (db' : Db) : Prop :=
  ∀ id, Option.Rel OutboxRow.Copies (db.keeps rows id) (db'.outbox.find? id)

omit [Externals] in
theorem Db.Written.after_marks {rows : List OutboxRow} (h : db.Marked db')
    (h' : db'.Written rows db'') : db.Written rows db'' := by
  intro id
  refine copies_trans ?_ (h' id)
  have hid := h id
  unfold Db.keeps
  generalize db.outbox.find? id = x at hid ⊢
  generalize db'.outbox.find? id = y at hid ⊢
  cases hid with
  | some hc => exact .some hc
  | none =>
    cases rows.find? (fun o => o.id = id) with
    | none => exact .none
    | some o => exact .some (.refl o)

theorem Calls.written {cs : List (OutboxCall × Except Exc Unit)} (h : Calls lim t w cs w') :
    ∃ rows, outboxRows (added cs) = .ok rows ∧ (w.view t).Written rows (w'.view t) := by
  induction h with
  | nil w =>
    refine ⟨[], rfl, fun id => ?_⟩
    have h := Db.Marked.refl (w.view t) id
    simpa [Db.keeps] using h
  | @cons w w₁ w' c r cs hr _ ih =>
    obtain ⟨rows, hrows, hw⟩ := ih
    by_cases hc : ∀ events, c ≠ .add events
    · have hadded : added ((c, r) :: cs) = added cs := by
        cases c with
        | add events => exact absurd rfl (hc events)
        | _ => rfl
      exact ⟨rows, hadded ▸ hrows, hw.after_marks (runs_marked hc hr)⟩
    · simp only [not_forall, not_not] at hc
      obtain ⟨events, rfl⟩ := hc
      have h := Runs.alone hr (add_alone events)
      unfold Inserts at h
      cases he : outboxRows events with
      | error e =>
        rw [he] at h
        obtain ⟨rfl, rfl⟩ := h
        exact ⟨rows, hrows, hw⟩
      | ok new =>
        rw [he] at h
        obtain ⟨rfl, hview⟩ := h
        refine ⟨new ++ rows, ?_, fun id => ?_⟩
        · rw [outbox_rows_ok] at he hrows ⊢
          exact List.rel_append he hrows
        · have hid := hw id
          rw [Db.keeps, hview, Db.find_inserts, Db.keeps_fresh] at hid
          rw [Db.keeps, List.find?_append, ← Option.or_assoc]
          exact hid

omit [Externals] in
/-- Rows that were added are not new. -/
theorem Db.fresh_added {rows : List OutboxRow}
    (h : ∀ id, db'.outbox.find? id = db.keeps rows id) : db'.fresh rows = [] := by
  refine List.filter_eq_nil_iff.mpr (fun o ho => ?_)
  have hsome : (rows.find? (fun x => x.id = o.id)).isSome = true :=
    List.find?_isSome.mpr ⟨o, ho, by simp⟩
  obtain ⟨x, hx⟩ := Option.isSome_iff_exists.mp hsome
  rw [h, Db.keeps, hx]
  cases db.outbox.find? o.id <;> simp

/-- Adding events leaves every row as it is, and adding them again adds nothing. -/
theorem add_again {events : List PaymentEvent} {r : Except Exc Unit}
    (hr : (service lim).Runs (fun _ m => works m = true) t (OutboxRepository.add events) w r w') :
    (∀ o ∈ (w.view t).outbox.rows, o ∈ (w'.view t).outbox.rows) ∧ ∀ r' w'',
      (service lim).Runs (fun _ m => works m = true) t (OutboxRepository.add events) w' r' w'' →
      r' = r ∧ w''.view t = w'.view t := by
  have h := Runs.alone hr (add_alone events)
  unfold Inserts at h
  cases he : outboxRows events with
  | error e =>
    rw [he] at h
    obtain ⟨rfl, rfl⟩ := h
    refine ⟨fun o ho => ho, fun r' w'' hr' => ?_⟩
    have h' := Runs.alone hr' (add_alone events)
    rw [he] at h'
    exact ⟨h'.1, by rw [h'.2]⟩
  | ok rows =>
    rw [he] at h
    obtain ⟨rfl, hview⟩ := h
    have hfind : ∀ id, (w'.view t).outbox.find? id = (w.view t).keeps rows id := by
      intro id
      rw [hview, Db.find_inserts, Db.keeps_fresh]
    refine ⟨fun o ho => ?_, fun r' w'' hr' => ?_⟩
    · have hkept : (w'.view t).outbox.find? o.id = some o := by
        rw [hfind, Db.keeps, Table.find_mem ho]
        rfl
      exact (Table.find_some.mp hkept).1
    · have h' := Runs.alone hr' (add_alone events)
      rw [he] at h'
      obtain ⟨rfl, hview'⟩ := h'
      rw [Db.fresh_added hfind] at hview'
      exact ⟨rfl, hview'⟩

omit [Externals] in
theorem find_added {events : List PaymentEvent} {rows : List OutboxRow} {id : UUID} {o : OutboxRow}
    (h : List.Forall₂ PaymentEvent.StoredAs events rows)
    (ho : rows.find? (fun o => o.id = id) = some o) :
    ∃ e, events.find? (fun e => e.id = id) = some e ∧ e.StoredAs o := by
  induction h with
  | nil => cases ho
  | @cons e o₁ events rows he _ ih =>
    rw [List.find?_cons] at ho ⊢
    rw [he.fresh.1] at ho
    by_cases hid : e.id = id
    · simp only [hid, decide_true, Option.some.injEq] at ho ⊢
      exact ⟨e, rfl, ho ▸ he⟩
    · simp only [hid, decide_false] at ho ⊢
      exact ih ho

/-- In every sequence of calls on an outbox a row keeps the event that was first added under its
identifier, no row is removed, and adding events again changes nothing. -/
theorem outbox_written_once {cs : List (OutboxCall × Except Exc Unit)} (h : Calls lim t w cs w') :
    ((w'.view t).outbox.rows.map OutboxRow.id).Nodup ∧
      (∀ o ∈ (w.view t).outbox.rows, ∃ o' ∈ (w'.view t).outbox.rows, o.Copies o') ∧
      (∀ e ∈ added cs, ∃ o' ∈ (w'.view t).outbox.rows, o'.id = e.id) ∧
      (∀ o' ∈ (w'.view t).outbox.rows, (∃ o ∈ (w.view t).outbox.rows, o.Copies o') ∨
        (w.view t).outbox.find? o'.id = none ∧ ∃ e o,
          (added cs).find? (fun e => e.id = o'.id) = some e ∧ e.StoredAs o ∧ o.Copies o') ∧
      ∀ events r w₁, (service lim).Runs (fun _ m => works m = true) t
          (OutboxRepository.add events) w' r w₁ →
        (∀ o ∈ (w'.view t).outbox.rows, o ∈ (w₁.view t).outbox.rows) ∧ ∀ r' w₂,
          (service lim).Runs (fun _ m => works m = true) t (OutboxRepository.add events) w₁ r' w₂ →
          r' = r ∧ w₂.view t = w₁.view t := by
  obtain ⟨rows, hrows, hw⟩ := h.written
  have hstored := outbox_rows_ok.mp hrows
  refine ⟨(w'.view t).outbox.nodup, fun o ho => ?_, fun e he => ?_, fun o' ho' => ?_,
    fun events r w₁ hr => add_again hr⟩
  · have hkept : (w.view t).keeps rows o.id = some o := by
      rw [Db.keeps, Table.find_mem ho]
      rfl
    obtain ⟨o', ho', hc⟩ := (copies_some (hw o.id)).1 o hkept
    exact ⟨o', (Table.find_some.mp ho').1, hc⟩
  · obtain ⟨o, ho, hst⟩ := (forall₂_mem hstored).1 e he
    have hsome : ((w.view t).keeps rows e.id).isSome = true := by
      have hfind : (rows.find? (fun x => x.id = e.id)).isSome = true :=
        List.find?_isSome.mpr ⟨o, ho, by simp [hst.fresh.1]⟩
      simp [Db.keeps, hfind]
    obtain ⟨x, hx⟩ := Option.isSome_iff_exists.mp hsome
    obtain ⟨o', ho', _⟩ := (copies_some (hw e.id)).1 x hx
    exact ⟨o', Table.find_some.mp ho'⟩
  · obtain ⟨o, ho, hc⟩ := (copies_some (hw o'.id)).2 o' (Table.find_mem ho')
    unfold Db.keeps at ho
    cases hb : (w.view t).outbox.find? o'.id with
    | some x =>
      rw [hb] at ho
      cases ho
      exact .inl ⟨o, (Table.find_some.mp hb).1, hc⟩
    | none =>
      rw [hb, Option.none_or] at ho
      obtain ⟨e, he, hst⟩ := find_added hstored ho
      exact .inr ⟨rfl, e, o, he, hst, hc⟩

end Calls

/-- An event is added, claimed and added again, with another one under its identifier. -/
def addedAgain : Option ((Except Exc Unit × World) × (Except Exc Unit × World) ×
    (Except Exc Unit × World)) :=
  ((sampleService {}).alone? (fun _ m => works m) 0 [.ok, .ok]
    (OutboxCall.add [generatedEvent]).run {}).bind (fun x =>
  ((sampleService {}).alone? (fun _ m => works m) 0 [.time sampleTime, .ok, .ok, .ok]
    (OutboxCall.markInProcess (uid 2)).run x.2).bind (fun y =>
  ((sampleService {}).alone? (fun _ m => works m) 0 [.ok, .ok]
    (OutboxCall.add [generatedEvent, createdEvent (uid 3) (uid 2) sampleTime]).run y.2).map
      (fun z => (x, y, z))))

set_option maxRecDepth 20000 in
theorem addedAgain_kept : addedAgain.any (fun (x, _, z) => x.1.toOption.isSome &&
    ((z.2.view 0).outbox.find? (uid 2)).any (fun o => o.status = .inProcess)) = true := by
  decide +kernel

/-- The event that was claimed is still claimed after it was added again. -/
theorem outbox_written_once_again : ∃ cs w', @Calls sample {} 0 {} cs w' ∧
    generatedEvent ∈ added cs ∧ (∃ o' ∈ (w'.view 0).outbox.rows, o'.id = generatedEvent.id) ∧
    ∃ o ∈ (w'.view 0).outbox.rows, o.id = uid 2 ∧ o.status = .inProcess := by
  let _ : Externals := sample
  obtain ⟨⟨⟨rx, x⟩, ⟨ry, y⟩, ⟨rz, z⟩⟩, hrun, hkept⟩ := (Option.any_eq_true _ _).mp addedAgain_kept
  obtain ⟨x', hx, hrun⟩ := Option.bind_eq_some_iff.mp hrun
  obtain ⟨y', hy, hrun⟩ := Option.bind_eq_some_iff.mp hrun
  obtain ⟨z', hz, he⟩ := Option.map_eq_some_iff.mp hrun
  cases he
  obtain ⟨hok, hstatus⟩ := Bool.and_eq_true_iff.mp hkept
  obtain ⟨o, ho, hs⟩ := (Option.any_eq_true _ _).mp hstatus
  have hcalls : @Calls sample {} 0 {} [(_, rx), (_, ry), (_, rz)] z :=
    .cons (Sys.runs_of_alone (fun _ _ h => h) hx) (.cons (Sys.runs_of_alone (fun _ _ h => h) hy)
      (.cons (Sys.runs_of_alone (fun _ _ h => h) hz) (.nil z)))
  have hadded : generatedEvent ∈ added [(OutboxCall.add [generatedEvent], rx),
      (.markInProcess (uid 2), ry),
      (.add [generatedEvent, createdEvent (uid 3) (uid 2) sampleTime], rz)] := by
    cases rx with
    | ok _ => exact List.mem_cons_self
    | error e => cases hok
  obtain ⟨_, _, hrow, _⟩ := outbox_written_once hcalls
  exact ⟨_, z, hcalls, hadded, hrow _ hadded, o, (Table.find_some.mp ho).1,
    (Table.find_some.mp ho).2, by simpa using hs⟩

end Payments
