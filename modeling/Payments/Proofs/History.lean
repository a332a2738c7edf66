import Payments.Proofs.Footprint
import Payments.Proofs.Service

namespace Payments

open Lib

/-- The change sets the status of an event. -/
def Write.marks : Write → Bool
  | .updateOutbox _ _ _ => true
  | _ => false

/-- The change creates or settles a payment, or adds a pending event. -/
def Write.Apart : Write → Prop
  | .updateOutbox _ _ _ => False
  | .insertOutbox o => o.status = .pending
  | _ => True

/-- What says nothing about the delivery that a thread handles: the start of a request, what
the broker has taken, and a commit that sets the status of no event. -/
def Obs.aside : Obs → Bool
  | .created _ | .polled | .accepted _ _ _ => true
  | .committed ws => !ws.any Write.marks
  | _ => false

theorem aside_committed {ws : List Write} (h : ∀ x ∈ ws, x.Apart) :
    (Obs.committed ws).aside = true := by
  simp only [Obs.aside, Bool.not_eq_true', List.any_eq_false]
  intro x hx hm
  have := h x hx
  cases x <;> first | exact this | cases hm

/-- The effects that do not take part in the handling of a delivered event. -/
def Op.Apart : Op → Prop
  | .selectOutboxId _ | .selectPendings _ _ | .selectPendingId _ | .updateOutbox _ _ _
  | .send _ _ _ | .enter _ | .ack => False
  | .publish _ _ m => m.headers = none
  | _ => True

/-- The publish of an event, which is no copy of a delivered message. -/
def Op.Announces (op : Op) : Prop := ∃ x k m, op = .publish x k m ∧ m.headers = none

theorem Op.Announces.apart {op : Op} (h : op.Announces) : op.Apart := by
  obtain ⟨_, _, _, rfl, hm⟩ := h
  exact hm

/-- The effects of a poll. -/
def Op.Polls (op : Op) : Prop := op.Apart ∨ ∃ limit offset, op = .selectPendings limit offset

/-- The effect settles a payment. -/
def Op.Updates (op : Op) : Prop := ∃ id status processedAt, op = .updatePayment id status processedAt

/-- The event is not pending any more. -/
def Db.Handled (db : Db) (e : UUID) : Prop := ∃ o ∈ db.outbox.rows, o.id = e ∧ o.status ≠ .pending

theorem Db.Handled.grows {db db' : Db} {e : UUID} (h : db.Handled e) (hg : db.Grows db') :
    db'.Handled e := by
  obtain ⟨o, ho, hid, hs⟩ := h
  obtain ⟨o', ho', he⟩ := hg.event o ho
  exact ⟨o', ho', he.same.1.trans hid, he.2 hs⟩

/-- A committed mark leaves the event handled. -/
theorem Db.handled_mark {db : Db} {e : UUID} {s : TaskStatus} {at' : Option DateTime}
    (h : ∃ o ∈ db.outbox.rows, o.id = e) (hs : s ≠ .pending) :
    (db.applyAll [.updateOutbox e s at']).Handled e := by
  obtain ⟨o, ho, rfl⟩ := h
  exact ⟨_, Db.mem_outbox_mark.mpr (.inr ⟨o, ho, rfl, rfl⟩), rfl, hs⟩

namespace World

variable {lim : Limits} {w w' : World} {t u : Tid} {o : Obs}

/-- What a thread has done for the delivery that it handles, newest first. -/
def story (w : World) (t : Tid) : List Obs :=
  w.trace.filterMap (fun d => if d.1 = t ∧ d.2.aside = false then some d.2 else none)

theorem mem_story : o ∈ w.story t ↔ (t, o) ∈ w.trace ∧ o.aside = false := by
  simp only [story, List.mem_filterMap, Option.ite_none_right_eq_some, Option.some.injEq]
  constructor
  · rintro ⟨⟨_, _⟩, hd, ⟨rfl, ha⟩, rfl⟩
    exact ⟨hd, ha⟩
  · rintro ⟨hd, ha⟩
    exact ⟨_, hd, ⟨rfl, ha⟩, rfl⟩

theorem story_same (h : w'.trace = w.trace) : w'.story u = w.story u := by
  rw [story, h, story]

theorem story_told (h : w'.trace = (t, o) :: w.trace) (ha : o.aside = false) :
    w'.story t = o :: w.story t := by
  simp [story, h, ha]

theorem story_aside (h : w'.trace = (t, o) :: w.trace) (ha : o.aside = true) :
    w'.story u = w.story u := by
  simp [story, h, ha]

theorem story_other (h : w'.trace = (t, o) :: w.trace) (hu : t ≠ u) :
    w'.story u = w.story u := by
  simp [story, h, hu]

/-- An effect is told in the story of its thread only. -/
theorem does_story {op : Op} {ch : Choice} {r : Except Exc op.Res} (h : Does lim t w op ch r w')
    (hu : t ≠ u) : w'.story u = w.story u := by
  rcases does_trace h with ht | ⟨o, _, ht⟩
  · exact story_same ht
  · exact story_other ht hu

/-- Nothing is forgotten. -/
theorem does_seen {op : Op} {ch : Choice} {r : Except Exc op.Res} (h : Does lim t w op ch r w') :
    ∀ d ∈ w.trace, d ∈ w'.trace := by
  intro d hd
  rcases does_trace h with ht | ⟨_, _, ht⟩
  · exact ht ▸ hd
  · exact ht ▸ List.mem_cons_of_mem _ hd

theorem story_seen (h : ∀ d ∈ w.trace, d ∈ w'.trace) (ho : o ∈ w.story t) : o ∈ w'.story t :=
  mem_story.mpr ((mem_story.mp ho).imp_left (h _))

theorem does_tells {op : Op} {ch : Choice} {r : Except Exc op.Res} (h : Does lim t w op ch r w')
    (ho : o ∈ w.story t) : o ∈ w'.story t :=
  story_seen (does_seen h) ho

/-- What an effect tells is what it shows. -/
theorem does_told {op : Op} {ch : Choice} {r : Except Exc op.Res} (h : Does lim t w op ch r w')
    (hs : w'.story t = o :: w.story t) : Shows op o := by
  rcases does_trace h with ht | ⟨x, hx, ht⟩
  · exact absurd ((story_same ht).symm.trans hs) (by simp)
  · cases ha : x.aside with
    | true => exact absurd ((story_aside ht ha).symm.trans hs) (by simp)
    | false =>
      rw [← (List.cons.inj ((story_told ht ha).symm.trans hs)).1]
      exact hx

/-- No effect of a thread tells of a delivery. -/
theorem does_delivered {op : Op} {ch : Choice} {r : Except Exc op.Res} {q : RabbitQueue}
    {m : Message} (h : Does lim t w op ch r w') (hm : .delivered q m ∈ w'.story t) :
    .delivered q m ∈ w.story t := by
  rcases does_trace h with ht | ⟨o, hs, ht⟩
  · exact story_same ht ▸ hm
  · obtain ⟨hmem, ha⟩ := mem_story.mp hm
    rw [ht] at hmem
    rcases List.mem_cons.mp hmem with he | hmem
    · cases (Prod.mk.inj he).2
      cases op <;> exact hs.elim
    · exact mem_story.mpr ⟨hmem, ha⟩

/-- What a step tells of a thread. -/
def Tells (t : Tid) (o : Obs) : Move Op Choice Req Env → Prop
  | .run u op _ => u = t ∧ Shows op o
  | .start u _ => u = t ∧ ∃ q m, o = .delivered q m
  | .exit u => u = t ∧ ∃ r, o = .ended r
  | .kill u => u = t ∧ o = .crashed
  | .env _ => False

/-- A step that changes no status and tells nothing about a delivery. -/
structure Aside (w w' : World) : Prop where
  story : ∀ u, w'.story u = w.story u
  rows : ∀ o' ∈ w'.db.outbox.rows, o' ∈ w.db.outbox.rows ∨
    o'.status = .pending ∧ ∀ o ∈ w.db.outbox.rows, o.id ≠ o'.id
  ready : ∀ d ∈ w'.ready, d ∈ w.ready ∨ d.2.headers = none

theorem Aside.of_eq (hs : ∀ u, w'.story u = w.story u) (hd : w'.db = w.db)
    (hr : w'.ready = w.ready) : Aside w w' where
  story := hs
  rows := fun _ ho => .inl (hd ▸ ho)
  ready := fun _ hm => .inl (hr ▸ hm)

end World

/-- A transaction that stays apart only adds pending events. -/
theorem applyAll_apart {db : Db} {ws : List Write} (hw : ∀ x ∈ ws, x.Apart) :
    ∀ o' ∈ (db.applyAll ws).outbox.rows, o' ∈ db.outbox.rows ∨
      o'.status = .pending ∧ ∀ o ∈ db.outbox.rows, o.id ≠ o'.id := by
  induction ws generalizing db with
  | nil => exact fun _ ho => .inl ho
  | cons x ws ih =>
    intro o' ho'
    have hx := hw x List.mem_cons_self
    have hws : ∀ y ∈ ws, y.Apart := fun y hy => hw y (List.mem_cons_of_mem _ hy)
    have hr := @ih (db.apply x) hws o' ho'
    cases x with
    | insertPayment row => exact hr
    | updatePayment id status processedAt => exact hr
    | updateOutbox id status handledAt => exact hx.elim
    | insertOutbox row =>
      rcases hr with hm | ⟨hp, hn⟩
      · rcases Table.mem_insert.mp hm with hm | ⟨rfl, hf⟩
        · exact .inl hm
        · exact .inr ⟨hx, Table.find_none.mp hf⟩
      · exact .inr ⟨hp, fun o ho => hn o (Table.mem_insert.mpr (.inl ho))⟩

/-- The rows of serialized events are pending. -/
theorem toRow_pending {events : List SerializedEvent} {rows : List OutboxRow}
    (h : events.mapM SerializedEvent.toRow = .ok rows) : ∀ o ∈ rows, o.status = .pending := by
  intro o ho
  obtain ⟨s, _, hs⟩ := mem_mapM_ok h ho
  unfold SerializedEvent.toRow at hs
  split at hs <;> cases hs
  rfl

namespace World

variable {lim : Limits} {w w' : World} {t : Tid} {op : Op} {ch : Choice} {r : Except Exc op.Res}

/-- The open transaction of the thread stays apart. -/
def Apart (t : Tid) (w : World) : Prop := ∀ x ∈ w.pend t, x.Apart

theorem apart_nil (h : w.pend t = []) : w.Apart t := by
  intro x hx
  rw [h] at hx
  cases hx

theorem Apart.write {ws : List Payments.Write} (h : w.Apart t) (hw : ∀ x ∈ ws, x.Apart) :
    (w.write t ws).Apart t := by
  intro x hx
  rcases List.mem_append.mp (by simpa using hx) with hx | hx
  · exact h x hx
  · exact hw x hx

theorem Apart.drop : (w.drop t).Apart t := apart_nil (by simp)

theorem aside_commit (h : w.Apart t) : Aside w (w.commit t) where
  story := fun _ => story_aside rfl (aside_committed h)
  rows := applyAll_apart h
  ready := fun _ hd => .inl hd

theorem aside_accept {x k : String} {m : Message} (hm : m.headers = none) :
    Aside w (w.accept t lim x k m) where
  story := fun _ => story_aside rfl rfl
  rows := fun _ ho => .inl ho
  ready := fun d hd => by
    rcases List.mem_append.mp hd with hd | hd
    · exact .inl hd
    · obtain ⟨q, _, rfl⟩ := List.mem_map.mp hd
      exact .inr hm

/-- What stays apart changes no status and tells nothing about a delivery. -/
theorem does_apart (h : Does lim t w op ch r w') (ho : op.Polls) (ha : w.Apart t) :
    Aside w w' ∧ w'.Apart t := by
  have hsame : ∀ v : World, v.trace = w.trace → v.db = w.db → v.ready = w.ready → Aside w v :=
    fun v ht hd hr => .of_eq (fun _ => story_same ht) hd hr
  cases h with
  | fault =>
    cases op <;> first
      | exact ⟨hsame _ rfl rfl rfl, .drop⟩
      | exact ⟨hsame _ rfl rfl rfl, ha⟩
      | obtain ho | ⟨_, _, ho⟩ := ho <;> cases ho
  | lostCommit | commit => exact ⟨aside_commit ha, .drop⟩
  | lostPublish | publish =>
    obtain ho | ⟨_, _, ho⟩ := ho
    · exact ⟨aside_accept ho, ha⟩
    · cases ho
  | insertPayment =>
    exact ⟨hsame _ rfl rfl rfl, ha.write (fun x hx => by cases List.mem_singleton.mp hx; trivial)⟩
  | updatePayment =>
    exact ⟨hsame _ rfl rfl rfl, ha.write (fun x hx => by cases List.mem_singleton.mp hx; trivial)⟩
  | insertOutbox hv =>
    refine ⟨hsame _ rfl rfl rfl, ha.write (fun x hx => ?_)⟩
    obtain ⟨o, ho, rfl⟩ := List.mem_map.mp hx
    exact toRow_pending hv o (List.mem_filter.mp ho).1
  | rollback | close => exact ⟨hsame _ rfl rfl rfl, .drop⟩
  | claim | send | enter | ack | updateOutbox =>
    obtain ho | ⟨_, _, ho⟩ := ho <;> cases ho
  | _ => exact ⟨hsame _ rfl rfl rfl, ha⟩

end World

/-- The environment only moves messages. -/
theorem World.environment_same {lim : Limits} {w w' : World} {e : Env}
    (h : w.environment lim e = some w') :
    ∃ ready unacked, w' = { w with ready := ready, unacked := unacked } := by
  cases e with
  | expire i =>
    obtain ⟨_, _, h⟩ := Option.bind_eq_some_iff.mp h
    obtain ⟨_, _, rfl⟩ := Option.map_eq_some_iff.mp h
    exact ⟨_, _, rfl⟩
  | requeue t =>
    obtain ⟨_, _, rfl⟩ := Option.map_eq_some_iff.mp h
    exact ⟨_, _, rfl⟩
  | duplicate i =>
    simp only [environment, duplicate] at h
    split at h
    · cases h
      exact ⟨_, _, rfl⟩
    · cases h

/-- The start of a thread only moves messages and is noted. -/
theorem World.start_same [Externals] {lim : Limits} {w w' : World} {t : Tid} {req : Req}
    {p : Service Reply} (h : w.start lim t req = some (p, w')) :
    ∃ ready unacked new, w' = { w with
      ready := ready, unacked := unacked, trace := new ++ w.trace } := by
  cases req with
  | create command =>
    cases h
    exact ⟨_, _, [(t, .created command)], rfl⟩
  | get id =>
    cases h
    exact ⟨_, _, [], rfl⟩
  | poll =>
    cases h
    exact ⟨_, _, [(t, .polled)], rfl⟩
  | deliver i =>
    obtain ⟨⟨q, m⟩, _, hm⟩ := Option.bind_eq_some_iff.mp h
    obtain ⟨_, _, he⟩ := Option.map_eq_some_iff.mp hm
    cases he
    exact ⟨_, _, [(t, .delivered q m)], rfl⟩

/-- A step adds at most one thing to the trace, of its own thread. -/
theorem step_trace [Externals] {lim : Limits} {c c' : Config World Op Op.Res Exc Reply}
    {m : Move Op Choice Req Env} (h : (service lim).Step c m c') :
    c'.shared.trace = c.shared.trace ∨
      ∃ u o, m.thread? = some u ∧ c'.shared.trace = (u, o) :: c.shared.trace := by
  cases h with
  | run _ he =>
    rcases World.does_trace (World.exec_does he) with ht | ⟨o, _, ht⟩
    · exact .inl ht
    · exact .inr ⟨_, o, rfl, ht⟩
  | exit | kill => exact .inr ⟨_, _, rfl, rfl⟩
  | @start req p w he =>
    cases req with
    | create command =>
      cases he
      exact .inr ⟨_, _, rfl, rfl⟩
    | get id =>
      cases he
      exact .inl rfl
    | poll =>
      cases he
      exact .inr ⟨_, _, rfl, rfl⟩
    | deliver i =>
      obtain ⟨⟨q, m⟩, _, hm⟩ := Option.bind_eq_some_iff.mp he
      obtain ⟨_, _, he⟩ := Option.map_eq_some_iff.mp hm
      cases he
      exact .inr ⟨_, _, rfl, rfl⟩
  | env he =>
    obtain ⟨_, _, hw⟩ := World.environment_same he
    rw [hw]
    exact .inl rfl

/-- A step tells at most one thing, of one thread. -/
theorem step_story [Externals] {lim : Limits} {c c' : Config World Op Op.Res Exc Reply}
    {m : Move Op Choice Req Env} (h : (service lim).Step c m c') :
    (∀ u, c'.shared.story u = c.shared.story u) ∨ ∃ t o, World.Tells t o m ∧
      c'.shared.story t = o :: c.shared.story t ∧
      ∀ u, t ≠ u → c'.shared.story u = c.shared.story u := by
  have hcons : ∀ {w w' : World} {t : Tid} {o : Obs}, w'.trace = (t, o) :: w.trace →
      World.Tells t o m → (∀ u, w'.story u = w.story u) ∨ ∃ t o, World.Tells t o m ∧
        w'.story t = o :: w.story t ∧ ∀ u, t ≠ u → w'.story u = w.story u := by
    intro w w' t o ht hm
    cases ha : o.aside with
    | true => exact .inl (fun _ => World.story_aside ht ha)
    | false =>
      exact .inr ⟨t, o, hm, World.story_told ht ha, fun _ hu => World.story_other ht hu⟩
  cases h with
  | run _ he =>
    rcases World.does_trace (World.exec_does he) with ht | ⟨o, ho, ht⟩
    · exact .inl (fun _ => World.story_same ht)
    · exact hcons ht ⟨rfl, ho⟩
  | exit => exact hcons rfl ⟨rfl, _, rfl⟩
  | kill => exact hcons rfl ⟨rfl, rfl⟩
  | env he =>
    obtain ⟨_, _, hw⟩ := World.environment_same he
    exact .inl (fun _ => World.story_same (by rw [hw]))
  | @start req p w he =>
    cases req with
    | create command =>
      cases he
      exact .inl (fun _ => World.story_aside rfl rfl)
    | get id =>
      cases he
      exact .inl (fun _ => rfl)
    | poll =>
      cases he
      exact .inl (fun _ => World.story_aside rfl rfl)
    | deliver i =>
      obtain ⟨⟨q, m⟩, _, hm⟩ := Option.bind_eq_some_iff.mp he
      obtain ⟨_, _, he⟩ := Option.map_eq_some_iff.mp hm
      cases he
      exact hcons rfl ⟨rfl, q, m, rfl⟩

/-- What was seen stays so. -/
theorem step_seen [Externals] {lim : Limits} {c c' : Config World Op Op.Res Exc Reply}
    {m : Move Op Choice Req Env} (h : (service lim).Step c m c') :
    ∀ d ∈ c.shared.trace, d ∈ c'.shared.trace := by
  intro d hd
  cases h with
  | run _ he => exact World.does_seen (World.exec_does he) d hd
  | exit | kill => exact List.mem_cons_of_mem _ hd
  | start he =>
    obtain ⟨_, _, _, rfl⟩ := World.start_same he
    exact List.mem_append_right _ hd
  | env he =>
    obtain ⟨_, _, rfl⟩ := World.environment_same he
    exact hd

section Running

variable [Externals] {lim : Limits} {c c' : Config World Op Op.Res Exc Reply}
  {m : Move Op Choice Req Env} {u : Tid}

/-- A thread that runs neither before a step nor after it is told of nothing. -/
theorem step_idle (h : (service lim).Step c m c') (hu : c.threads u = none)
    (hu' : c'.threads u = none) : c'.shared.story u = c.shared.story u := by
  rcases step_story h with hsame | ⟨t, o, hm, _, hother⟩
  · exact hsame u
  refine hother u ?_
  rintro rfl
  cases h with
  | run ht _ =>
    rw [hm.1, hu] at ht
    cases ht
  | exit ht _ =>
    rw [hm.1, hu] at ht
    cases ht
  | kill ht =>
    rw [hm.1, hu] at ht
    cases ht
  | start _ =>
    obtain ⟨rfl, _⟩ := hm
    simp [Config.put] at hu'
  | env _ => exact hm

/-- A thread stops when its end or its crash is told. -/
theorem step_stops (h : (service lim).Step c m c') (hu : c.threads u ≠ none)
    (hu' : c'.threads u = none) : ∃ o, World.Tells u o m ∧ (o = .crashed ∨ ∃ r, o = .ended r) ∧
      c'.shared.story u = o :: c.shared.story u := by
  have hput : ∀ {t : Tid} {p : Option (Service Reply)} {s : World},
      (c.put t p s).threads u = none → u = t ∧ p = none := by
    intro t p s hn
    by_cases ht : u = t
    · subst ht
      exact ⟨rfl, by simpa [Config.put] using hn⟩
    · exact absurd (by simpa [Config.put, Function.update_of_ne ht] using hn) hu
  cases h with
  | run => exact absurd (hput hu').2 (by simp)
  | exit _ _ =>
    obtain ⟨rfl, _⟩ := hput hu'
    exact ⟨_, ⟨rfl, _, rfl⟩, .inr ⟨_, rfl⟩, World.story_told rfl rfl⟩
  | @start req p s _ => exact absurd (@hput _ _ s hu').2 (by simp)
  | kill _ =>
    obtain ⟨rfl, _⟩ := hput hu'
    exact ⟨_, ⟨rfl, rfl⟩, .inl rfl, World.story_told rfl rfl⟩
  | env _ => exact absurd hu' hu

end Running

/-- A thread that has not started has no story. -/
theorem story_fresh [Externals] {lim : Limits} {c : Config World Op Op.Res Exc Reply}
    (h : Reachable lim c) : ∀ t, c.next ≤ t → c.shared.story t = [] := by
  induction h with
  | init => exact fun _ _ => rfl
  | @step c c' m hr ha hs ih =>
    have hrunning := (reachable_holds hr).running
    intro t ht
    have hnext : c.next ≤ t := by
      cases hs <;> first | exact ht | exact Nat.le_of_succ_le ht
    rcases step_story hs with hsame | ⟨u, o, hm, _, hother⟩
    · exact (hsame t).trans (ih t hnext)
    · refine (hother t ?_).trans (ih t hnext)
      rintro rfl
      cases hs with
      | run hu _ => exact absurd (hm.1 ▸ (hrunning _ _ hu).1) (Nat.not_lt.mpr hnext)
      | exit hu _ => exact absurd (hm.1 ▸ (hrunning _ _ hu).1) (Nat.not_lt.mpr hnext)
      | start _ => exact absurd (hm.1 ▸ Nat.lt_succ_self _) (Nat.not_lt.mpr ht)
      | kill hu => exact absurd (hm.1 ▸ (hrunning _ _ hu).1) (Nat.not_lt.mpr hnext)
      | env _ => exact hm.elim

/-- Only a thread that runs holds locks. -/
theorem lock_running [Externals] {lim : Limits} {c : Config World Op Op.Res Exc Reply}
    (h : Reachable lim c) : ∀ x t, c.shared.lock x = some t → c.threads t ≠ none := by
  induction h with
  | init => exact fun _ _ h => by cases h
  | @step c c' m hr ha hs ih =>
    intro x t hl
    have hdrop : ∀ u, (c.shared.drop u).lock x = some t → t ≠ u ∧ c.shared.lock x = some t := by
      intro u hl
      simp only [World.drop_lock] at hl
      split at hl
      · cases hl
      · rename_i hne
        exact ⟨by rintro rfl; exact hne hl, hl⟩
    have hput : ∀ {u : Tid} {p : Service Reply} {s : World}, (t ≠ u → c.shared.lock x = some t) →
        (c.put u (some p) s).threads t ≠ none := by
      intro u p s hl
      by_cases hu : t = u
      · subst hu
        simp [Config.put]
      · simpa [Config.put, Function.update_of_ne hu] using ih x t (hl hu)
    cases hs with
    | run hu he =>
      exact hput (fun hne => (World.does_lock (World.exec_does he) hl).resolve_right hne)
    | exit hu _ =>
      obtain ⟨hne, hl⟩ := hdrop _ hl
      simpa [Config.put, Function.update_of_ne hne] using ih x t hl
    | @start req p s he =>
      have hkept : s.lock = c.shared.lock := by
        obtain ⟨_, _, _, rfl⟩ := World.start_same he
        rfl
      exact @hput _ p s (fun _ => hkept ▸ hl)
    | kill hu =>
      obtain ⟨hne, hl⟩ := hdrop _ hl
      simpa [Config.put, Function.update_of_ne hne] using ih x t hl
    | env he =>
      obtain ⟨_, _, rfl⟩ := World.environment_same he
      exact ih x t hl

section Told

variable {t : Tid} {e : UUID} {m : Move Op Choice Req Env}

theorem World.told_claimed (h : World.Tells t (.claimed e) m) :
    ∃ ch, m = .run t (.selectPendingId e) ch := by
  cases m with
  | run u op ch =>
    obtain ⟨rfl, hop⟩ := h
    cases op <;> first
      | exact hop.elim
      | exact ⟨ch, by rw [show e = _ from hop]⟩
  | exit =>
    obtain ⟨_, _, he⟩ := h
    cases he
  | start =>
    obtain ⟨_, _, _, he⟩ := h
    cases he
  | kill =>
    obtain ⟨_, he⟩ := h
    cases he
  | env => exact h.elim

theorem World.told_entered (h : World.Tells t (.entered e) m) :
    ∃ ch, m = .run t (.enter e) ch := by
  cases m with
  | run u op ch =>
    obtain ⟨rfl, hop⟩ := h
    cases op <;> first
      | exact hop.elim
      | exact ⟨ch, by rw [show e = _ from hop]⟩
  | exit =>
    obtain ⟨_, _, he⟩ := h
    cases he
  | start =>
    obtain ⟨_, _, _, he⟩ := h
    cases he
  | kill =>
    obtain ⟨_, he⟩ := h
    cases he
  | env => exact h.elim

/-- A thread is told what it handles when it starts, before anything else. -/
theorem told_delivered [Externals] {lim : Limits} {c c' : Config World Op Op.Res Exc Reply}
    {q : RabbitQueue} {msg : Message} (hs : (service lim).Step c m c')
    (hf : c.shared.story c.next = []) (h : World.Tells t (.delivered q msg) m) :
    c.shared.story t = [] := by
  cases hs with
  | @run u op k ch r w ht he =>
    obtain ⟨_, hop⟩ := h
    cases op <;> exact hop.elim
  | exit =>
    obtain ⟨_, _, he⟩ := h
    cases he
  | start =>
    obtain ⟨rfl, _⟩ := h
    exact hf
  | kill =>
    obtain ⟨_, he⟩ := h
    cases he
  | env => exact h.elim

end Told

theorem Op.Settles.apart {op : Op} (h : op.Settles) : op.Apart := by
  cases op <;> first | exact h.elim | trivial

theorem Op.Emits.announces {op : Op} (h : op.Emits) : op.Announces := by
  obtain ⟨_, _, rfl⟩ := h
  exact ⟨_, _, _, rfl, rfl⟩

theorem Op.Creates.apart {op : Op} {key : UUID} (h : op.Creates key) : op.Apart := by
  rcases h with h | h <;> cases op <;> first | exact h.elim | trivial

theorem Op.Gets.apart {op : Op} {id : UUID} (h : op.Gets id) : op.Apart := by
  cases op <;> first | exact h.elim | trivial

theorem Op.Fetches.polls {op : Op} (h : op.Fetches) : op.Polls := by
  cases op <;> first | exact h.elim | exact .inl trivial | exact .inr ⟨_, _, rfl⟩

theorem Op.Emits.not_updates {op : Op} (h : op.Emits) : ¬ op.Updates := by
  rintro ⟨_, _, _, rfl⟩
  obtain ⟨_, _, h⟩ := h
  cases h

theorem Op.Creates.not_updates {op : Op} {key : UUID} (h : op.Creates key) : ¬ op.Updates := by
  rintro ⟨_, _, _, rfl⟩
  exact h.elim (fun h => h) (fun h => h)

theorem Op.Gets.not_updates {op : Op} {id : UUID} (h : op.Gets id) : ¬ op.Updates := by
  rintro ⟨_, _, _, rfl⟩
  exact h

theorem Op.Fetches.not_updates {op : Op} (h : op.Fetches) : ¬ op.Updates := by
  rintro ⟨_, _, _, rfl⟩
  exact h

/-- The unit of work of a claim neither commits nor acknowledges. -/
theorem Op.Claims.silent {op : Op} {e : UUID} (h : op.Claims e) : op ≠ .commit ∧ op ≠ .ack := by
  cases op <;> first | exact h.elim | exact ⟨by simp, by simp⟩

theorem announces_publish (events : List PaymentEvent) :
    (EventBus.publishPaymentEvents events).Only Op.Announces :=
  (only_publish events).mono (fun _ h => h.announces)

section

variable [Externals]

theorem apart_create_payment (command : CreatePaymentCommand) :
    (createPayment command).Only Op.Apart :=
  (only_create_payment command).mono (fun _ h => h.elim (fun h => h.apart)
    (fun h => h.announces.apart))

theorem apart_get_payment (id : UUID) : (getPayment id).Only Op.Apart :=
  (only_get_payment id).mono (fun _ h => h.apart)

omit [Externals] in
theorem polls_handle_bad_events : handleBadEvents.Only Op.Polls :=
  only_handle_bad_events.mono (fun _ h => h.elim (fun h => h.polls)
    (fun h => .inl h.announces.apart))

end

/-- The transaction sets the status of an event. -/
def Sets (ws : List Write) (e : UUID) (s : TaskStatus) : Prop := ∃ at', .updateOutbox e s at' ∈ ws

/-- The thread has committed a status of an event. -/
def World.Stated (w : World) (t : Tid) (e : UUID) (s : TaskStatus) : Prop :=
  ∃ ws, .committed ws ∈ w.story t ∧ Sets ws e s

namespace World

variable {lim : Limits} {w w' : World} {t : Tid} {op : Op} {ch : Choice} {r : Except Exc op.Res}
  {e : UUID} {s : TaskStatus}

theorem does_sets (h : Does lim t w op ch r w') (hs : Sets (w'.pend t) e s) :
    Sets (w.pend t) e s ∨ ∃ at', op = .updateOutbox e s at' := by
  obtain ⟨at', hm⟩ := hs
  rcases does_pend h hm with hm | ⟨_, hx⟩
  · exact .inl ⟨at', hm⟩
  · cases op <;> first
      | exact hx.elim
      | cases hx
    exact .inr ⟨at', rfl⟩

/-- A status is stated by the commit of the transaction that sets it. -/
theorem does_stated (h : Does lim t w op ch r w') (hs : w'.Stated t e s) :
    w.Stated t e s ∨ op = .commit ∧ Sets (w.pend t) e s := by
  obtain ⟨ws, hm, hx⟩ := hs
  obtain ⟨hm, ha⟩ := mem_story.mp hm
  rcases does_trace h with ht | ⟨o, hshow, ht⟩
  · exact .inl ⟨ws, mem_story.mpr ⟨ht ▸ hm, ha⟩, hx⟩
  · rw [ht] at hm
    rcases List.mem_cons.mp hm with he | hm
    · cases (Prod.mk.inj he).2
      cases op <;> first
        | exact hshow.elim
        | skip
      cases h with
      | fault => exact absurd ht (by simp [failed])
      | commit | lostCommit =>
        cases (List.cons.inj ht).1
        exact .inr ⟨rfl, hx⟩
    · exact .inl ⟨ws, mem_story.mpr ⟨hm, ha⟩, hx⟩

/-- The rows that are not pending have the status that a thread has stated. -/
structure Attributed (w : World) : Prop where
  pend : ∀ t o, .insertOutbox o ∈ w.pend t → o.status = .pending
  row : ∀ o ∈ w.db.outbox.rows, o.status = .pending ∨ ∃ t, w.Stated t o.id o.status

theorem Stated.mono (hs : w.Stated t e s) (h : ∀ d ∈ w.trace, d ∈ w'.trace) : w'.Stated t e s := by
  obtain ⟨ws, hm, hx⟩ := hs
  exact ⟨ws, story_seen h hm, hx⟩

theorem Attributed.of_eq (h : w.Attributed) (hd : w'.db = w.db)
    (hp : ∀ t, ∀ x ∈ w'.pend t, x ∈ w.pend t) (ht : ∀ d ∈ w.trace, d ∈ w'.trace) :
    w'.Attributed where
  pend := fun t o hm => h.pend t o (hp t _ hm)
  row := fun o ho => (h.row o (hd ▸ ho)).imp_right (Exists.imp (fun _ hs => hs.mono ht))

theorem Attributed.commit (h : w.Attributed) : (w.commit t).Attributed where
  pend := fun u o hm => h.pend u o (mem_drop_pend hm).2
  row := by
    have hold : ∀ d ∈ w.trace, d ∈ (w.commit t).trace := fun d hd => List.mem_cons_of_mem _ hd
    refine Db.forall_applyAll_outbox (p := fun o => o.status = .pending ∨
      ∃ u, (w.commit t).Stated u o.id o.status) (fun o ho => ?_) (fun o hm => ?_) ?_
    · exact (h.row o ho).imp_right (Exists.imp (fun _ hs => hs.mono hold))
    · exact .inl (h.pend t o hm)
    · rintro o id status handledAt hm rfl _
      refine .inr ⟨t, w.pend t, mem_story.mpr ⟨List.mem_cons_self, ?_⟩, handledAt, hm⟩
      simp only [Obs.aside, Bool.not_eq_false', List.any_eq_true]
      exact ⟨_, hm, rfl⟩

theorem Attributed.does (h : w.Attributed) (hd : Does lim t w op ch r w') : w'.Attributed := by
  by_cases hc : op = .commit
  · subst hc
    cases hd with
    | fault => exact h
    | commit | lostCommit => exact h.commit
  · refine ⟨fun u o hm => ?_, fun o ho => ?_⟩
    · rcases does_pend hd hm with hm | ⟨_, hx⟩
      · exact h.pend u o hm
      · cases op <;> first
          | exact hx.elim
          | cases hx
        rename_i hx
        obtain ⟨hv, ho⟩ := hx
        exact toRow_pending hv o ho
    · rw [does_db hd hc] at ho
      exact (h.row o ho).imp_right (Exists.imp (fun _ hs => hs.mono (does_seen hd)))

end World

/-- What the status of an event is, a thread has committed. -/
theorem attributed_reach [Externals] {lim : Limits} {c : Config World Op Op.Res Exc Reply}
    (h : Reachable lim c) : c.shared.Attributed := by
  induction h with
  | init =>
    exact ⟨fun _ _ hm => absurd hm List.not_mem_nil, fun _ ho => absurd ho List.not_mem_nil⟩
  | step _ _ hs ih =>
    cases hs with
    | run _ he => exact ih.does (World.exec_does he)
    | exit | kill =>
      exact ih.of_eq rfl (fun _ _ hx => (World.mem_drop_pend hx).2) (fun d hd => List.mem_cons_of_mem _ hd)
    | start he =>
      obtain ⟨_, _, _, rfl⟩ := World.start_same he
      exact ih.of_eq rfl (fun _ _ hx => hx) (fun d hd => List.mem_append_right _ hd)
    | env he =>
      obtain ⟨_, _, rfl⟩ := World.environment_same he
      exact ih.of_eq rfl (fun _ _ hx => hx) (fun _ hd => hd)

end Payments
