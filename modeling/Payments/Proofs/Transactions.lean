import Mathlib.Data.List.Forall2
import Payments.Lib.Book
import Payments.Proofs.Abiding
import Payments.Proofs.Agreement
import Payments.Proofs.Publication

namespace Payments

open Lib

/-- The effect leaves the service: it reaches the broker or a webhook. -/
def Op.CallsOut : Op → Prop
  | .connect | .publish _ _ _ | .send _ _ _ | .ack => True
  | _ => False

/-- The changes that an observation tells were committed. -/
def Obs.writes? : Obs → Option (List Write)
  | .committed ws => some ws
  | _ => none

/-- The transactions committed so far, the oldest first. -/
def World.commits (w : World) : List (List Write) :=
  w.trace.reverse.filterMap (fun d => d.2.writes?)

/-- What a transaction of the service posts. -/
def posting : List Write → Option (Entry UUID UUID UUID PaymentStatus TaskStatus)
  | [.insertPayment row, .insertOutbox o] => some (.opened row.id row.idempotencyKey o.id)
  | [.updatePayment id status _, .insertOutbox o] => some (.settled id status o.id)
  | [.updateOutbox id status _] => some (.ended id status)
  | _ => none

/-- The tables as a book of payments, in which an event is the notice of what it reports. -/
def Db.book (db : Db) : Book UUID UUID UUID PaymentStatus TaskStatus where
  account id := (db.payments.find? id).map (fun r =>
    if r.status = .pending then none else some r.status)
  key k := (db.payments.rows.find? (fun r => r.idempotencyKey = k)).map PaymentRow.id
  notice id := (db.outbox.find? id).map (fun o =>
    if o.status = .pending then none else some o.status)

section Book

variable {db : Db}

theorem book_empty : Db.empty.book = Book.empty := rfl

theorem book_create {row : PaymentRow} {o : OutboxRow}
    (hid : db.payments.find? row.id = none)
    (hkey : ∀ r ∈ db.payments.rows, r.idempotencyKey ≠ row.idempotencyKey)
    (hnew : db.outbox.find? o.id = none) (hs : row.status = .pending) (ho : o.status = .pending) :
    db.book.Posts (.opened row.id row.idempotencyKey o.id)
      (db.applyAll [.insertPayment row, .insertOutbox o]).book := by
  have hk : db.payments.rows.find? (fun r => r.idempotencyKey = row.idempotencyKey) = none := by
    simpa using hkey
  have hbook : (db.applyAll [.insertPayment row, .insertOutbox o]).book =
      { account := Function.update db.book.account row.id (some none)
        key := Function.update db.book.key row.idempotencyKey (some row.id)
        notice := Function.update db.book.notice o.id (some none) } := by
    simp only [Db.book, Db.applyAll, List.foldl_cons, List.foldl_nil, Db.apply, Table.find_insert,
      Table.rows_insert hid, List.find?_append, Book.mk.injEq]
    refine ⟨funext fun id => ?_, funext fun k => ?_, funext fun id => ?_⟩
    · by_cases he : row.id = id
      · subst he
        simp [hid, hs]
      · simp [he, Function.update_of_ne (Ne.symm he)]
    · by_cases he : row.idempotencyKey = k
      · subst he
        simp [hk]
      · simp [he, Function.update_of_ne (Ne.symm he)]
    · by_cases he : o.id = id
      · subst he
        simp [hnew, ho]
      · simp [he, Function.update_of_ne (Ne.symm he)]
  rw [hbook]
  exact .opened (by simp [Db.book, hid]) (by simp [Db.book, hk]) (by simp [Db.book, hnew])

theorem book_settle {r : PaymentRow} {status : PaymentStatus} {processedAt : DateTime}
    {o : OutboxRow} (hr : r ∈ db.payments.rows) (hp : r.status = .pending)
    (hs : status ≠ .pending) (hnew : db.outbox.find? o.id = none) (ho : o.status = .pending) :
    db.book.Posts (.settled r.id status o.id)
      (db.applyAll [.updatePayment r.id status processedAt, .insertOutbox o]).book := by
  have hfind : db.payments.find? r.id = some r := Table.find_mem hr
  have hbook : (db.applyAll [.updatePayment r.id status processedAt, .insertOutbox o]).book =
      { db.book with
        account := Function.update db.book.account r.id (some (some status))
        notice := Function.update db.book.notice o.id (some none) } := by
    simp only [Db.book, Db.applyAll, List.foldl_cons, List.foldl_nil, Db.apply, Table.find_insert,
      Table.find_update, Book.mk.injEq]
    refine ⟨funext fun id => ?_, funext fun k => ?_, funext fun id => ?_⟩
    · by_cases he : r.id = id
      · subst he
        simp [hfind, Db.settleRow, hs]
      · simp [he, Function.update_of_ne (Ne.symm he)]
    · have hkey : (fun x : PaymentRow => decide (x.idempotencyKey = k)) ∘
          (fun x => if x.id = r.id then Db.settleRow status processedAt x else x) =
          fun x => decide (x.idempotencyKey = k) := by
        funext x
        simp only [Function.comp_apply]
        split <;> rfl
      have hid : PaymentRow.id ∘
          (fun x => if x.id = r.id then Db.settleRow status processedAt x else x) =
          PaymentRow.id := by
        funext x
        simp only [Function.comp_apply]
        split <;> rfl
      simp only [Table.update, List.find?_map, hkey, Option.map_map, hid]
    · by_cases he : o.id = id
      · subst he
        simp [hnew, ho]
      · simp [he, Function.update_of_ne (Ne.symm he)]
  rw [hbook]
  exact .settled (by simp [Db.book, hfind, hp]) (by simp [Db.book, hnew])

theorem book_mark {id : UUID} {status : TaskStatus} {handledAt : Option DateTime}
    {o : OutboxRow} (ho : o ∈ db.outbox.rows) (hid : o.id = id) (hs : status ≠ .pending) :
    db.book.Posts (.ended id status) (db.applyAll [.updateOutbox id status handledAt]).book := by
  subst hid
  have hfind : db.outbox.find? o.id = some o := Table.find_mem ho
  have hbook : (db.applyAll [.updateOutbox o.id status handledAt]).book =
      { db.book with notice := Function.update db.book.notice o.id (some (some status)) } := by
    simp only [Db.book, Db.applyAll, List.foldl_cons, List.foldl_nil, Db.apply, Table.find_update,
      Book.mk.injEq, true_and]
    funext id
    by_cases he : o.id = id
    · subst he
      simp [hfind, Db.markRow, hs]
    · simp [he, Function.update_of_ne (Ne.symm he)]
  rw [hbook]
  exact .ended (by simp [Db.book, hfind])

end Book

/-- No change removes a payment or gives it another key. -/
theorem Db.payment_applyAll {db : Db} {ws : List Write} {r : PaymentRow}
    (h : r ∈ db.payments.rows) : ∃ r' ∈ (db.applyAll ws).payments.rows,
      r'.id = r.id ∧ r'.idempotencyKey = r.idempotencyKey := by
  have hkeep : ∃ r' ∈ db.payments.rows, r'.id = r.id ∧ r'.idempotencyKey = r.idempotencyKey :=
    ⟨r, h, rfl, rfl⟩
  clear h
  induction ws generalizing db with
  | nil => exact hkeep
  | cons x ws ih =>
    apply @ih (db.apply x)
    obtain ⟨r', hr, hk⟩ := hkeep
    cases x with
    | insertPayment row => exact ⟨r', Table.mem_insert.mpr (.inl hr), hk⟩
    | updatePayment id status processedAt =>
      by_cases he : r'.id = id
      · exact ⟨_, mem_updatePayment.mpr (.inr ⟨r', hr, he, rfl⟩), hk⟩
      · exact ⟨r', mem_updatePayment.mpr (.inl ⟨hr, he⟩), hk⟩
    | insertOutbox row => exact ⟨r', hr, hk⟩
    | updateOutbox id status handledAt => exact ⟨r', hr, hk⟩

/-- What the change inserts is not in the tables, and its event has not been handled. -/
def Write.Fresh (db : Db) : Write → Prop
  | .insertPayment row => ∀ r ∈ db.payments.rows,
    r.id ≠ row.id ∧ r.idempotencyKey ≠ row.idempotencyKey
  | .insertOutbox o => (∀ x ∈ db.outbox.rows, x.id ≠ o.id) ∧ o.handledAt = none
  | _ => True

/-- What the open transactions insert is not in the committed tables. -/
def World.Fresh (w : World) : Prop := ∀ t, ∀ x ∈ w.pend t, x.Fresh w.db

theorem World.Serves.stored {w : World} {t : Tid} {q : RabbitQueue} {m : Message}
    {event : PaymentEvent} (h : w.Serves t q m event) (hi : w.Inv) :
    ∃ o ∈ w.db.outbox.rows, m.body = o.body ∧ o.id = event.id := by
  obtain ⟨_, o, ho, hb, _⟩ := hi.delivered t q m h.delivered
  have hdec := h.decoded
  unfold eventOf at hdec
  obtain ⟨s, hs, hp⟩ : ∃ s, m.body.text "id" = some s ∧ UUID.parse s = some event.id := by
    split at hdec
    · exact decodeNew_id hdec
    · exact decodeNotify_id hdec
  rw [hb, body_id] at hs
  rw [← Option.some.inj hs, UUID.parse_str] at hp
  exact ⟨o, ho, hb, Option.some.inj hp⟩

theorem toRow_unhandled {s : SerializedEvent} {o : OutboxRow} (h : s.toRow = .ok o) :
    o.handledAt = none := by
  unfold SerializedEvent.toRow at h
  split at h
  · cases h
  · cases h
    rfl
  · cases h

namespace World

variable {lim : Limits} {t : Tid} {op : Op} {ch : Choice} {w w' : World} {r : Except Exc op.Res}

/-- What an effect inserts is not in the tables. -/
theorem does_fresh (hd : Does lim t w op ch r w') (hf : w.Fresh) :
    ∀ x ∈ w'.pend t, x.Fresh w.db := by
  have hdrop : ∀ x ∈ (w.drop t).pend t, x.Fresh w.db := by simp
  have hwrite : ∀ ws, (w.write t ws).pend t = w.pend t ++ ws := by simp
  cases hd with
  | @insertPayment values row hv hn _ =>
    intro x hx
    rw [hwrite] at hx
    rcases List.mem_append.mp hx with hx | hx
    · exact hf t x hx
    · cases List.mem_singleton.mp hx
      intro r hr
      obtain ⟨r', hr', hid, hkey⟩ : ∃ r' ∈ (w.view t).payments.rows, r'.id = r.id ∧
          r'.idempotencyKey = r.idempotencyKey := Db.payment_applyAll hr
      exact hid ▸ hkey ▸ hn r' hr'
  | @insertOutbox events rows hv _ =>
    intro x hx
    rw [hwrite] at hx
    rcases List.mem_append.mp hx with hx | hx
    · exact hf t x hx
    · obtain ⟨o, ho, rfl⟩ := List.mem_map.mp hx
      obtain ⟨hmem, hnone⟩ := List.mem_filter.mp ho
      refine ⟨fun y hy he => ?_, ?_⟩
      · obtain ⟨y', hy', hid⟩ : ∃ y ∈ (w.view t).outbox.rows, y.id = o.id :=
          Db.event_applyAll ⟨y, hy, he⟩
        exact Table.find_none.mp (Option.isNone_iff_eq_none.mp hnone) y' hy' hid
      · obtain ⟨s, _, hs⟩ := mem_mapM_ok hv hmem
        exact toRow_unhandled hs
  | updatePayment | updateOutbox =>
    intro x hx
    rw [hwrite] at hx
    rcases List.mem_append.mp hx with hx | hx
    · exact hf t x hx
    · cases List.mem_singleton.mp hx
      trivial
  | commit | lostCommit | rollback | close => exact hdrop
  | fault =>
    cases op <;> first
      | exact hf t
      | exact hdrop
  | _ => exact hf t

/-- A step of a thread changes the tables only where it ends its transaction. -/
theorem does_db_or (hd : Does lim t w op ch r w') : w'.db = w.db ∨ w'.pend t = [] := by
  by_cases ho : op = .commit
  · subst ho
    cases hd with
    | fault => exact .inl rfl
    | lostCommit | commit => exact .inr (by simp [World.commit])
  · exact .inl (does_db hd ho)

/-- A commit that is told takes effect. -/
theorem commit_told {r : Except Exc Unit} {ws : List Payments.Write}
    (hd : Does lim t w .commit ch r w') (hn : (t, .committed ws) ∉ w.trace)
    (hm : (t, .committed ws) ∈ w'.trace) : w.pend t = ws ∧ w'.db = w.db.applyAll ws := by
  have htold : (t, Obs.committed ws) ∈ (t, .committed (w.pend t)) :: w.trace → w.pend t = ws := by
    intro hm
    rcases List.mem_cons.mp hm with he | hm
    · cases he
      rfl
    · exact absurd hm hn
  cases hd with
  | fault => exact absurd hm hn
  | lostCommit | commit =>
    cases htold hm
    exact ⟨rfl, rfl⟩

/-- What others do leaves what a thread inserts out of the tables. -/
theorem rely_fresh (hi : w.Inv) (hr : Rely t w w') {x : Payments.Write} (hx : x ∈ w.pend t)
    (hf : x.Fresh w.db) : x.Fresh w'.db := by
  cases x with
  | insertPayment row =>
    have hid := hr.unusedPayment row.id (hi.payment t row hx)
      (Table.find_none.mpr (fun r h => (hf r h).1))
    have hkey := hr.key row.idempotencyKey (hi.locked t _ hx _ (by simp [Write.resources]))
      (fun r h => (hf r h).2)
    exact fun r h => ⟨Table.find_none.mp hid r h, hkey r h⟩
  | insertOutbox o =>
    have hid := hr.unusedEvent o.id (hi.event t o hx) (Table.find_none.mpr hf.1)
    exact ⟨Table.find_none.mp hid, hf.2⟩
  | updatePayment | updateOutbox => trivial

end World

section Commits

variable [Externals] {lim : Limits} {c c' : Config World Op Op.Res Exc Reply}
  {mv : Move Op Choice Req Env} {t : Tid}

/-- The open transactions of a reachable state insert new rows. -/
theorem fresh_reach (h : Reachable lim c) : c.shared.Fresh := by
  induction h with
  | init => exact fun _ _ hx => by cases hx
  | @step c c' m hr _ hs ih =>
    have hi := (reachable_holds hr).inv
    intro t x hx
    by_cases hm : m.thread? = some t
    · cases hs with
      | run _ he =>
        cases hm
        have hd := World.exec_does he
        rcases World.does_db_or hd with hdb | hpend
        · rw [Config.put, hdb]
          exact World.does_fresh hd ih x hx
        · rw [Config.put, hpend] at hx
          cases hx
      | exit | kill =>
        cases hm
        have hnone : (c.shared.drop t).pend t = [] := by simp
        exact absurd (hnone ▸ hx) (List.not_mem_nil)
      | start he =>
        obtain ⟨_, _, _, rfl⟩ := World.start_same he
        exact ih t x hx
      | env _ => cases hm
    · have hrely := contract_valid.rely_step (reachable_holds hr) trivial hs hm
      rw [hrely.pend] at hx
      exact World.rely_fresh hi hrely hx (ih t x hx)

omit [Externals] in
/-- A transaction that a thread may commit posts an entry that the book allows. -/
theorem World.Entitled.posts {w : World} (h : w.Entitled lim t (w.pend t)) (hi : w.Inv)
    (hf : w.Fresh) : ∃ e, posting (w.pend t) = some e ∧ w.db.book.Posts e (w.view t).book := by
  have hfresh : ∀ x ∈ w.pend t, x.Fresh w.db := hf t
  unfold World.view
  generalize w.pend t = ws at h hfresh
  cases h with
  | @register _ row o _ _ hnew _ ho =>
    have hrow : ∀ r ∈ w.db.payments.rows, r.id ≠ row.id ∧ r.idempotencyKey ≠ row.idempotencyKey :=
      hfresh (.insertPayment row) (by simp)
    have hevent : ∀ x ∈ w.db.outbox.rows, x.id ≠ o.id := (hfresh (.insertOutbox o) (by simp)).1
    exact ⟨_, rfl, book_create (Table.find_none.mpr (fun r hr => (hrow r hr).1))
      (fun r hr => (hrow r hr).2) (Table.find_none.mpr hevent) hnew.status ho⟩
  | @settle _ _ _ _ _ _ o _ _ _ hr _ hp hst _ ho =>
    have hevent : ∀ x ∈ w.db.outbox.rows, x.id ≠ o.id := (hfresh (.insertOutbox o) (by simp)).1
    exact ⟨_, rfl, book_settle hr hp hst (Table.find_none.mpr hevent) ho⟩
  | confirm hs | bury hs =>
    obtain ⟨o, ho, _, hid⟩ := hs.stored hi
    exact ⟨_, rfl, book_mark ho hid (by decide)⟩

/-- What a step tells: an effect that is seen, how a thread starts, or how it ends. -/
def World.Reveals (lim : Limits) (w : World) (t : Tid) (o : Obs) :
    Move Op Choice Req Env → Prop
  | .run u op _ => u = t ∧ World.Shows op o
  | .start u (.create command) => u = t ∧ o = .created command
  | .start _ (.get _) => False
  | .start u .poll => u = t ∧ o = .polled
  | .start u (.deliver i) => u = t ∧ ∃ q m p, w.ready[i]? = some (q, m) ∧
    subscriber lim q m = some p ∧ o = .delivered q m
  | .exit u => u = t ∧ ∃ r, o = .ended r
  | .kill u => u = t ∧ o = .crashed
  | .env _ => False

/-- A step tells nothing, or the one thing that it reveals. -/
theorem step_reveals (hs : (service lim).Step c mv c') :
    c'.shared.trace = c.shared.trace ∨
      ∃ t o, c.shared.Reveals lim t o mv ∧ c'.shared.trace = (t, o) :: c.shared.trace := by
  cases hs with
  | run _ he =>
    rcases World.does_trace (World.exec_does he) with ht | ⟨o, ho, ht⟩
    · exact .inl ht
    · exact .inr ⟨_, o, ⟨rfl, ho⟩, ht⟩
  | exit => exact .inr ⟨_, _, ⟨rfl, _, rfl⟩, rfl⟩
  | kill => exact .inr ⟨_, _, ⟨rfl, rfl⟩, rfl⟩
  | @start req p w he =>
    cases req with
    | create command | poll =>
      cases he
      exact .inr ⟨_, _, ⟨rfl, rfl⟩, rfl⟩
    | get id =>
      cases he
      exact .inl rfl
    | deliver i =>
      obtain ⟨⟨q, m⟩, hi, hm⟩ := Option.bind_eq_some_iff.mp he
      obtain ⟨p, hp, he⟩ := Option.map_eq_some_iff.mp hm
      cases he
      exact .inr ⟨_, _, ⟨rfl, q, m, p, hi, hp, rfl⟩, rfl⟩
  | env he =>
    obtain ⟨_, _, hw⟩ := World.environment_same he
    exact .inl (by rw [hw])

/-- What is told anew after a step is what the step reveals. -/
theorem revealed {o : Obs} (hs : (service lim).Step c mv c') (hn : (t, o) ∉ c.shared.trace)
    (hm : (t, o) ∈ c'.shared.trace) : c.shared.Reveals lim t o mv := by
  rcases step_reveals hs with ht | ⟨u, o', ho, ht⟩ <;> rw [ht] at hm
  · exact absurd hm hn
  · rcases List.mem_cons.mp hm with he | hm
    · cases he
      exact ho
    · exact absurd hm hn

omit [Externals] in
theorem World.commits_cons {w w' : World} {d : Tid × Obs} (h : w'.trace = d :: w.trace) :
    w'.commits = w.commits ++ d.2.writes?.toList := by
  simp only [World.commits, h, List.reverse_cons, List.filterMap_append]
  cases hd : d.2.writes? <;> simp [hd]

/-- Only a commit changes the tables and adds to what was committed. -/
theorem step_ledger (hs : (service lim).Step c mv c') :
    (c'.shared.commits = c.shared.commits ∧ c'.shared.db = c.shared.db) ∨
      ∃ t ch k, mv = .run t .commit ch ∧ c.threads t = some (.call .commit k) ∧
        c'.shared.commits = c.shared.commits ++ [c.shared.pend t] ∧
        c'.shared.db = c.shared.view t := by
  have hnoted : ∀ (w : World) (d : Tid × Obs), d.2.writes? = none → w.trace = d :: c.shared.trace →
      w.commits = c.shared.commits := by
    intro w d hd ht
    rw [World.commits_cons ht, hd, Option.toList_none, List.append_nil]
  cases hs with
  | @run t op k ch r w ht he =>
    have hd := World.exec_does he
    by_cases hc : op = .commit
    · subst hc
      cases hd with
      | fault => exact .inl ⟨rfl, rfl⟩
      | lostCommit | commit =>
        have hadd : (c.shared.commit t).commits = c.shared.commits ++ [c.shared.pend t] :=
          World.commits_cons (World.commit_trace _ _)
        exact .inr ⟨t, _, k, rfl, ht, hadd, rfl⟩
    · refine .inl ⟨?_, World.does_db hd hc⟩
      rcases World.does_trace hd with hsame | ⟨o, ho, htold⟩
      · simp only [World.commits, Config.put, hsame]
      · apply hnoted w _ _ htold
        cases o with
        | committed ws => cases op <;> first | exact ho.elim | exact absurd rfl hc
        | _ => rfl
  | exit => exact .inl ⟨hnoted _ _ rfl rfl, rfl⟩
  | kill => exact .inl ⟨hnoted _ _ rfl rfl, rfl⟩
  | @start req p w he =>
    cases req with
    | create command =>
      cases he
      exact .inl ⟨hnoted _ _ rfl rfl, rfl⟩
    | get id =>
      cases he
      exact .inl ⟨rfl, rfl⟩
    | poll =>
      cases he
      exact .inl ⟨hnoted _ _ rfl rfl, rfl⟩
    | deliver i =>
      obtain ⟨⟨q, m⟩, _, hm⟩ := Option.bind_eq_some_iff.mp he
      obtain ⟨_, _, he⟩ := Option.map_eq_some_iff.mp hm
      cases he
      exact .inl ⟨hnoted _ (_, .delivered q m) rfl rfl, rfl⟩
  | env he =>
    obtain ⟨_, _, hw⟩ := World.environment_same he
    exact .inl ⟨by rw [hw]; rfl, by rw [hw]⟩

/-- A step leaves the tables alone, or is a commit that posts one entry. -/
theorem step_posts (h : Reachable lim c) (hs : (service lim).Step c mv c') :
    (c'.shared.commits = c.shared.commits ∧ c'.shared.db = c.shared.db) ∨
      ∃ t ch e, mv = .run t .commit ch ∧ posting (c.shared.pend t) = some e ∧
        c.shared.db.book.Posts e c'.shared.db.book ∧
        c'.shared.commits = c.shared.commits ++ [c.shared.pend t] ∧
        c'.shared.db = c.shared.db.applyAll (c.shared.pend t) := by
  rcases step_ledger hs with hsame | ⟨t, ch, k, rfl, ht, hcom, hdb⟩
  · exact .inl hsame
  · have hdue : c.shared.Entitled lim t (c.shared.pend t) := due_reach h ht
    obtain ⟨e, he, hp⟩ := hdue.posts (reachable_holds h).inv (fresh_reach h)
    exact .inr ⟨t, ch, e, rfl, he, hdb ▸ hp, hcom, hdb⟩

/-- The transactions committed so far are the entries of the book that the tables show, and the
tables are what is left when they are made one after the other. -/
theorem commits_history (h : Reachable lim c) :
    c.shared.commits.foldl Db.applyAll .empty = c.shared.db ∧
      ∃ es, List.Forall₂ (fun ws e => posting ws = some e) c.shared.commits es ∧
        Book.History es c.shared.db.book := by
  induction h with
  | init => exact ⟨rfl, [], .nil, .nil⟩
  | @step c c' m hr _ hs ih =>
    obtain ⟨hfold, es, hes, hist⟩ := ih
    rcases step_posts hr hs with ⟨hcom, hdb⟩ | ⟨t, _, e, _, he, hp, hcom, hdb⟩
    · rw [hcom, hdb]
      exact ⟨hfold, es, hes, hist⟩
    · rw [hcom]
      refine ⟨?_, es ++ [e], List.rel_append hes (.cons he .nil), .post hist hp⟩
      rw [List.foldl_append, hfold, hdb]
      rfl

/-- The service keeps a book: each of its steps leaves the book of the committed tables alone or
posts one entry to it, in a commit, and the transactions committed so far are the entries of that
book since it was empty. -/
theorem service_keeps_book (h : Reachable lim c) :
    (∃ es, List.Forall₂ (fun ws e => posting ws = some e) c.shared.commits es ∧
      Book.History es c.shared.db.book) ∧
    c.shared.commits.foldl Db.applyAll .empty = c.shared.db ∧
    ∀ mv c', (service lim).Step c mv c' → c'.shared.db.book = c.shared.db.book ∨
      ∃ t ch e, mv = .run t .commit ch ∧ posting (c.shared.pend t) = some e ∧
        c.shared.db.book.Posts e c'.shared.db.book := by
  obtain ⟨hfold, hist⟩ := commits_history h
  refine ⟨hist, hfold, fun mv c' hs => ?_⟩
  rcases step_posts h hs with ⟨_, hdb⟩ | ⟨t, ch, e, hm, he, hp, _⟩
  · exact .inl (by rw [hdb])
  · exact .inr ⟨t, ch, e, hm, he, hp⟩

omit [Externals] in
set_option maxRecDepth 20000 in
theorem service_keeps_book_settled : ∃ c, @Reachable sample {} c ∧ c.shared.commits.length = 3 ∧
    ∃ es, List.Forall₂ (fun ws e => posting ws = some e) c.shared.commits es ∧
      Book.History es c.shared.db.book := by
  have hr := reachable_after settledRun_some
  have hlen : ((after {} settledRun).get settledRun_some).shared.commits.length = 3 := by
    decide +kernel
  exact ⟨_, hr, hlen, (@service_keeps_book sample _ _ hr).1⟩

/-- What is told anew after a step is shown by an effect of its thread. -/
theorem step_shows {o : Obs} {op₀ : Op} (hs : (service lim).Step c mv c')
    (hn : (t, o) ∉ c.shared.trace) (hm : (t, o) ∈ c'.shared.trace) (ho : World.Shows op₀ o) :
    ∃ op ch k r, mv = .run t op ch ∧ c.threads t = some (.call op k) ∧ World.Shows op o ∧
      World.Does lim t c.shared op ch r c'.shared := by
  have hr := revealed hs hn hm
  have hnot : ∀ {o' : Obs}, o = o' → (∀ op, ¬ World.Shows op o') → False := by
    intro o' he hnever
    exact hnever op₀ (he ▸ ho)
  cases hs with
  | @run u op k ch r w hu he =>
    obtain ⟨rfl, hshow⟩ := hr
    exact ⟨op, ch, k, r, rfl, hu, hshow, World.exec_does he⟩
  | exit =>
    obtain ⟨_, _, he⟩ := hr
    exact (hnot he (fun op h => by cases op <;> exact h.elim)).elim
  | kill => exact (hnot hr.2 (fun op h => by cases op <;> exact h.elim)).elim
  | @start req p w _ =>
    cases req with
    | create | poll => exact (hnot hr.2 (fun op h => by cases op <;> exact h.elim)).elim
    | get => exact hr.elim
    | deliver i =>
      obtain ⟨_, _, _, _, _, _, he⟩ := hr
      exact (hnot he (fun op h => by cases op <;> exact h.elim)).elim
  | env => exact hr.elim

/-- A transaction that a run adds to the history is committed in one of its steps, by a thread that
is entitled to it. -/
theorem committed_step {ws : List Write} (h : Reachable lim c)
    (h' : (service lim).Reach (fun _ _ => True) c c') (hn : (t, .committed ws) ∉ c.shared.trace)
    (hc : (t, .committed ws) ∈ c'.shared.trace) : ∃ c₁ c₂ ch,
      (service lim).Reach (fun _ _ => True) c c₁ ∧
      (service lim).Step c₁ (.run t .commit ch) c₂ ∧
      (service lim).Reach (fun _ _ => True) c₂ c' ∧ c₁.shared.pend t = ws ∧
      c₁.shared.Entitled lim t ws ∧ c₂.shared.db = c₁.shared.db.applyAll ws := by
  obtain ⟨c₁, m, c₂, h₁, hs, hn, hc₂, h₂⟩ := h'.onset
    (P := fun c => (t, .committed ws) ∈ c.shared.trace) hn hc
  have hcommit : World.Shows .commit (.committed ws) := trivial
  obtain ⟨op, ch, k, r, rfl, ht, hshow, hd⟩ := step_shows hs hn hc₂ hcommit
  obtain rfl : op = .commit := by cases op <;> first | exact hshow.elim | rfl
  have hdue : c₁.shared.Entitled lim t (c₁.shared.pend t) := due_reach (h.trans h₁) ht
  obtain ⟨rfl, hdb⟩ := World.commit_told hd hn hc₂
  exact ⟨c₁, c₂, ch, h₁, hs, h₂, rfl, hdue, hdb⟩

/-- Each transaction in the history was one that its thread was entitled to when it committed. -/
theorem committed_entitled {ws : List Write} (h : Reachable lim c)
    (hc : (t, .committed ws) ∈ c.shared.trace) : ∃ c₁ c₂ ch, Reachable lim c₁ ∧
      (service lim).Step c₁ (.run t .commit ch) c₂ ∧
      (service lim).Reach (fun _ _ => True) c₂ c ∧ c₁.shared.pend t = ws ∧
      c₁.shared.Entitled lim t ws ∧ c₂.shared.db = c₁.shared.db.applyAll ws :=
  committed_step .init h (fun hm => by cases hm) hc

omit [Externals] in
theorem exists_committed {w : World} (h : w.commits ≠ []) :
    ∃ t ws, (t, .committed ws) ∈ w.trace := by
  obtain ⟨ws, hm⟩ := List.exists_mem_of_ne_nil _ h
  obtain ⟨⟨t, o⟩, hd, ho⟩ := List.mem_filterMap.mp hm
  cases o <;> cases ho
  exact ⟨t, ws, List.mem_reverse.mp hd⟩

omit [Externals] in
set_option maxRecDepth 20000 in
theorem committed_entitled_settled : ∃ c, @Reachable sample {} c ∧ ∃ t ws,
    (t, .committed ws) ∈ c.shared.trace ∧ ∃ c₁, @Reachable sample {} c₁ ∧
      c₁.shared.Entitled {} t ws := by
  have hr := reachable_after settledRun_some
  obtain ⟨t, ws, hm⟩ : ∃ t ws, (t, Obs.committed ws) ∈
      ((after {} settledRun).get settledRun_some).shared.trace := by
    apply exists_committed
    intro h
    have hl := congrArg List.length h
    revert hl
    decide +kernel
  obtain ⟨c₁, _, _, h₁, _, _, _, he, _⟩ := @committed_entitled sample _ _ _ _ hr hm
  exact ⟨_, hr, t, ws, hm, c₁, h₁, he⟩

/-- The change is the insert of the payment. -/
def Write.inserts (id : UUID) : Write → Bool
  | .insertPayment row => row.id = id
  | _ => false

def Write.settles (id : UUID) : Write → Bool
  | .updatePayment id' _ _ => id' = id
  | _ => false

def Write.stores (id : UUID) : Write → Bool
  | .insertOutbox o => o.id = id
  | _ => false

omit [Externals] in
/-- Transactions change as often what their entries do. -/
theorem countP_posting {p : Write → Bool} {q : Entry UUID UUID UUID PaymentStatus TaskStatus → Bool}
    (hpq : ∀ ws e, posting ws = some e → ws.countP p = (q e).toNat) {txs : List (List Write)}
    {es : List (Entry UUID UUID UUID PaymentStatus TaskStatus)}
    (h : List.Forall₂ (fun ws e => posting ws = some e) txs es) :
    txs.flatten.countP p = es.countP q := by
  induction h with
  | nil => rfl
  | @cons ws e txs es he _ ih =>
    rw [List.flatten_cons, List.countP_append, ih, hpq ws e he, List.countP_cons]
    cases q e <;> simp [Nat.add_comm]

omit [Externals] in
theorem posting_cases {ws : List Write} {e : Entry UUID UUID UUID PaymentStatus TaskStatus}
    (h : posting ws = some e) :
    (∃ row o, ws = [.insertPayment row, .insertOutbox o] ∧
      e = .opened row.id row.idempotencyKey o.id) ∨
    (∃ id status processedAt o, ws = [.updatePayment id status processedAt, .insertOutbox o] ∧
      e = .settled id status o.id) ∨
    ∃ id status handledAt, ws = [.updateOutbox id status handledAt] ∧ e = .ended id status := by
  unfold posting at h
  split at h
  · exact .inl ⟨_, _, rfl, (Option.some.inj h).symm⟩
  · exact .inr (.inl ⟨_, _, _, _, rfl, (Option.some.inj h).symm⟩)
  · exact .inr (.inr ⟨_, _, _, rfl, (Option.some.inj h).symm⟩)
  · cases h

/-- In the whole history of the service one committed change inserts each payment that there is,
one settles it if it is settled and none otherwise, and one stores each event. -/
theorem changed_once (h : Reachable lim c) (id : UUID) :
    c.shared.commits.flatten.countP (Write.inserts id) =
      (c.shared.db.payments.find? id).isSome.toNat ∧
    c.shared.commits.flatten.countP (Write.settles id) =
      ((c.shared.db.payments.find? id).any (fun r => r.status ≠ .pending)).toNat ∧
    c.shared.commits.flatten.countP (Write.stores id) =
      (c.shared.db.outbox.find? id).isSome.toNat := by
  obtain ⟨_, es, hes, hist⟩ := commits_history h
  refine ⟨?_, ?_, ?_⟩
  · rw [countP_posting (fun ws e he => ?_) hes, hist.opened_once id, Db.book, Option.isSome_map]
    rcases posting_cases he with ⟨row, _, rfl, rfl⟩ | ⟨_, _, _, _, rfl, rfl⟩ | ⟨_, _, _, rfl, rfl⟩
    · by_cases hid : row.id = id <;> simp [Write.inserts, Entry.opens, hid]
    · simp [Write.inserts, Entry.opens]
    · simp [Write.inserts, Entry.opens]
  · rw [countP_posting (fun ws e he => ?_) hes, hist.settled_once id]
    · simp only [Db.book]
      cases c.shared.db.payments.find? id with
      | none => rfl
      | some r => cases hr : r.status <;> simp [hr]
    · rcases posting_cases he with ⟨_, _, rfl, rfl⟩ | ⟨id', _, _, _, rfl, rfl⟩ | ⟨_, _, _, rfl, rfl⟩
      · simp [Write.settles, Entry.settles]
      · by_cases hid : id' = id <;> simp [Write.settles, Entry.settles, hid]
      · simp [Write.settles, Entry.settles]
  · rw [countP_posting (fun ws e he => ?_) hes, hist.told_once id, Db.book, Option.isSome_map]
    rcases posting_cases he with ⟨_, o, rfl, rfl⟩ | ⟨_, _, _, o, rfl, rfl⟩ | ⟨_, _, _, rfl, rfl⟩
    · by_cases hid : o.id = id <;> simp [Write.stores, Entry.tells, hid]
    · by_cases hid : o.id = id <;> simp [Write.stores, Entry.tells, hid]
    · simp [Write.stores, Entry.tells]

omit [Externals] in
set_option maxRecDepth 20000 in
theorem changed_once_settled : ∃ c, @Reachable sample {} c ∧
    c.shared.commits.flatten.countP (Write.settles (uid 10)) = 1 := by
  have hr := reachable_after settledRun_some
  have hrow : (((after {} settledRun).get settledRun_some).shared.db.payments.find? (uid 10)).any
      (fun r => r.status ≠ .pending) = true := by
    decide +kernel
  refine ⟨_, hr, ?_⟩
  rw [(@changed_once sample _ _ hr (uid 10)).2.1, hrow]
  rfl

/-- No committed event has ever been stamped as handled: the claim that stamps it is not
committed, and neither end state is written with a time. -/
theorem never_stamped (h : Reachable lim c) : ∀ o ∈ c.shared.db.outbox.rows,
    o.handledAt = none := by
  induction h with
  | init => exact fun _ ho => by cases ho
  | @step c c' m hr _ hs ih =>
    rcases step_ledger hs with ⟨_, hdb⟩ | ⟨t, _, k, _, ht, _, hdb⟩
    · rwa [hdb]
    · have hdue : c.shared.Entitled lim t (c.shared.pend t) := due_reach hr ht
      have hfresh := fresh_reach hr t
      rw [hdb, World.view]
      refine Db.forall_applyAll_outbox ih (fun o ho => (hfresh _ ho).2) ?_
      intro o id status handledAt hmem _ hold
      have hnone : handledAt = none := by
        generalize c.shared.pend t = ws at hdue hmem
        cases hdue <;> simp_all
      rw [hnone]
      exact hold

omit [Externals] in
set_option maxRecDepth 20000 in
theorem never_stamped_settled : ∃ c, @Reachable sample {} c ∧ ∃ o ∈ c.shared.db.outbox.rows,
    o.status = .confirmed ∧ o.handledAt = none := by
  have hr := reachable_after settledRun_some
  obtain ⟨o, ho, hs⟩ : ∃ o ∈ ((after {} settledRun).get settledRun_some).shared.db.outbox.rows,
      o.status = .confirmed := by
    decide +kernel
  exact ⟨_, hr, o, ho, hs, @never_stamped sample _ _ hr o ho⟩

/-- The service reaches out, to the broker or to a webhook, with no transaction open: it holds no
lock and has changed nothing. Only a poll publishes within its transaction, and what it publishes
then is an event whose row is committed, pending and locked by it. -/
theorem calls_outside_transactions {op : Op} {k : Except Exc op.Res → Service Reply}
    (h : Reachable lim c) (ht : c.threads t = some (.call op k)) (ho : op.CallsOut) :
    c.shared.Outside t ∨ (t, .polled) ∈ c.shared.trace ∧ c.shared.pend t = [] ∧
      ∃ o ∈ c.shared.db.outbox.rows, o.status = .pending ∧
        c.shared.lock (.outbox o.id) = some t ∧
        ∃ key, op = .publish paymentsExchange key { body := o.body } := by
  have hdue := due_reach h ht
  cases op with
  | connect | ack => exact .inl hdue
  | send => exact .inl hdue.1
  | publish x key m =>
    cases (hdue : c.shared.MayPublish lim t x key m) with
    | announce hout | retry hout | bury hout => exact .inl hout
    | relay hpoll hp hrow hs hl => exact .inr ⟨hpoll, hp, _, hrow, hs, hl, _, rfl⟩
  | _ => exact ho.elim

/-- The program is about to publish. -/
def publishes : Service Reply → Bool
  | .call (.publish _ _ _) _ => true
  | _ => false

omit [Externals] in
theorem call_of_publishes {p : Service Reply} (h : publishes p = true) :
    ∃ x key m k, p = .call (.publish x key m) k := by
  unfold publishes at h
  split at h
  · exact ⟨_, _, _, _, rfl⟩
  · cases h

/-- A creation and a poll that is about to publish its event again. -/
def relayRun : Schedule :=
  createRun 0 (uid 1) (uid 10) (uid 11) ++
    [.start .poll, .run 1 .ok, .run 1 (.order [uid 11])]

omit [Externals] in
set_option maxRecDepth 20000 in
theorem relayRun_some : (after {} relayRun).isSome = true := by decide +kernel

omit [Externals] in
set_option maxRecDepth 20000 in
theorem calls_outside_transactions_relay : ∃ c, @Reachable sample {} c ∧ ∃ x key m k,
    c.threads 1 = some (.call (.publish x key m) k) ∧
      ∃ o ∈ c.shared.db.outbox.rows, c.shared.lock (.outbox o.id) = some 1 := by
  have hr := reachable_after relayRun_some
  have hpublishes : (((after {} relayRun).get relayRun_some).threads 1).any publishes = true := by
    decide +kernel
  obtain ⟨p, ht, hp⟩ := (Option.any_eq_true _ _).mp hpublishes
  obtain ⟨x, key, m, k, rfl⟩ := call_of_publishes hp
  have hlock : ((after {} relayRun).get relayRun_some).shared.lock (.outbox (uid 11)) = some 1 := by
    decide +kernel
  refine ⟨_, hr, x, key, m, k, ht, ?_⟩
  rcases @calls_outside_transactions sample _ _ _ _ _ hr ht trivial with
    hout | ⟨_, _, o, ho, _, hl, _⟩
  · exact absurd hlock (hout.unlocked _)
  · exact ⟨o, ho, hl⟩

end Commits

end Payments
