import Mathlib.Data.List.Sort
import Payments.Proofs.Acknowledgement

namespace Payments

open Lib

/-- The row holds an event that the service stores. -/
def OutboxRow.Known (o : OutboxRow) : Prop := ∃ r : PaymentRow, r.Created o ∨ r.Processed o

/-- Between two states the broker has taken a message of the event. -/
def Published (w w' : World) (id : UUID) : Prop :=
  ∃ new, w'.trace = new ++ w.trace ∧
    ∃ u x k m, (u, .accepted x k m) ∈ new ∧ m.body.text "id" = some id.str

/-- Polls that run one after the other, all without an error, with nothing in between. -/
inductive Polls [Externals] (lim : Limits) (t : Tid) (w : World) : Nat → World → Prop
  | zero : Polls lim t w 0 w
  | succ {n : Nat} {w₁ w₂ : World} (h : Polls lim t w n w₁)
      (hr : (service lim).Runs (fun _ _ => True) t fetchPendingTasks w₁ (.ok ()) w₂) :
      Polls lim t w (n + 1) w₂

/-- The event can be routed, and its message is that of the row. -/
def Spells (o : OutboxRow) (e : PaymentEvent) : Prop :=
  (∃ q, EventBus.queueRegistry e.cls = some q) ∧ parseEventToMessage e = .ok o.body

theorem OutboxRow.Known.rebuilt {o : OutboxRow} (h : o.Known) :
    ∃ e, rebuildEvent o.id o.occurredAt o.queue o.payload.toPy = .ok e ∧ Spells o e := by
  obtain ⟨r, hc | hp⟩ := h
  · obtain ⟨e, he, hcls, _, hpub⟩ := created_rebuilt hc
    exact ⟨e, he, ⟨newPaymentsQ, by rw [hcls]; rfl⟩, hpub⟩
  · obtain ⟨e, he, hcls, _, hpub⟩ := processed_rebuilt hp
    exact ⟨e, he, ⟨notifyPaymentsQ, by rw [hcls]; rfl⟩, hpub⟩

theorem rebuilt_all {rows : List OutboxRow} (h : ∀ o ∈ rows, o.Known) :
    ∃ events, rows.mapM (fun row =>
      rebuildEvent row.id row.occurredAt row.queue row.payload.toPy) = .ok events ∧
      (∀ o ∈ rows, ∃ e ∈ events, Spells o e) ∧ ∀ e ∈ events, ∃ o ∈ rows, Spells o e := by
  induction rows with
  | nil => exact ⟨[], rfl, by simp, by simp⟩
  | cons o rows ih =>
    obtain ⟨e, he, hsp⟩ := (h o List.mem_cons_self).rebuilt
    obtain ⟨events, hev, hto, hof⟩ := ih (fun x hx => h x (List.mem_cons_of_mem _ hx))
    refine ⟨e :: events, ?_, fun x hx => ?_, fun y hy => ?_⟩
    · rw [List.mapM_cons, he, hev]
      rfl
    · rcases List.mem_cons.mp hx with rfl | hx
      · exact ⟨e, List.mem_cons_self, hsp⟩
      · obtain ⟨y, hy, hs⟩ := hto x hx
        exact ⟨y, List.mem_cons_of_mem _ hy, hs⟩
    · rcases List.mem_cons.mp hy with rfl | hy
      · exact ⟨o, List.mem_cons_self, hsp⟩
      · obtain ⟨x, hx, hs⟩ := hof y hy
        exact ⟨x, List.mem_cons_of_mem _ hx, hs⟩

/-- In a row of a sort every selected row is found again. -/
theorem mem_named_of_sorted {rows : List OutboxRow} {ids : List UUID}
    (hn : (rows.map OutboxRow.id).Nodup) {o : OutboxRow} (ho : o ∈ rows) (hid : o.id ∈ ids) :
    o ∈ World.named rows ids := by
  refine List.mem_filterMap.mpr ⟨o.id, hid, ?_⟩
  exact Table.find_mem (T := (⟨rows, hn⟩ : Table OutboxRow UUID OutboxRow.id)) ho

theorem World.pendings_nodup (w : World) (t : Tid) : ((w.pendings t).map OutboxRow.id).Nodup :=
  (w.view t).outbox.nodup.sublist (List.filter_sublist.map _)

/-- A sort of the pending events is an answer of the `SELECT`. -/
theorem World.exec_pendings {w : World} {t : Tid} {ids : List UUID} (lim : Limits)
    (hs : World.Sorted (w.pendings t) ids) (limit offset : Nat) :
    w.exec lim t (.selectPendings limit offset) (.order ids) =
      some (.ok (World.named (w.pendings t) ((ids.drop offset).take limit)),
        w.hold t ((ids.take (offset + limit)).map .outbox)) := by
  simp only [World.exec, World.answer, hs, ↓reduceIte, World.answered, World.selectPendings]

section Cover

variable [Externals] {lim : Limits} {t : Tid} {w w₀ : World}

/-- Since `w₀` the broker has taken a message of each of the events. -/
def AllPublished (w₀ : World) (events : List PaymentEvent) (w : World) : Prop :=
  ∃ new, w.trace = new ++ w₀.trace ∧ ∀ e ∈ events, ∃ body, parseEventToMessage e = .ok body ∧
    ∃ u x k m, (u, .accepted x k m) ∈ new ∧ m.body = body

/-- A publish of events that ends without an error has published each of them. -/
theorem solo_publish_events {events done : List PaymentEvent} (h : AllPublished w₀ done w) :
    Solo lim Anything t (EventBus.publishPaymentEvents events)
      (Ends (fun _ => AllPublished w₀ (done ++ events)) (fun _ _ => True)) w := by
  induction events generalizing done w with
  | nil =>
    rw [List.append_nil]
    exact h
  | cons e events ih =>
    refine solo_then (P := fun _ => AllPublished w₀ (done ++ [e])) ?_ (fun _ w₁ h₁ => ?_)
    · unfold EventBus.publishPaymentEvent
      cases EventBus.queueRegistry e.cls with
      | none => trivial
      | some q =>
        cases hp : parseEventToMessage e with
        | error e => trivial
        | ok body =>
          refine solo_handle (Ends (fun _ => AllPublished w₀ (done ++ [e])) (fun _ _ => True))
            (solo_op (fun ch r w' _ hd => ?_)) (fun _ _ h => h) (fun _ _ _ => trivial)
          cases hd with
          | fault => trivial
          | lostPublish => trivial
          | publish =>
            obtain ⟨new, hn, ha⟩ := h
            refine ⟨_ :: new, congrArg (List.cons (t, Obs.accepted _ _ _)) hn, fun e' he => ?_⟩
            rcases List.mem_append.mp he with he | he
            · obtain ⟨body', hb, u, x, k, m, hm, hmb⟩ := ha e' he
              exact ⟨body', hb, u, x, k, m, List.mem_cons_of_mem _ hm, hmb⟩
            · cases List.mem_singleton.mp he
              exact ⟨body, hp, t, _, _, _, List.mem_cons_self, rfl⟩
    · simpa using ih h₁

/-- A poll over at most fifty pending rows publishes all of them. -/
theorem solo_fetch_all (hs : ∀ o ∈ w.pendings t, o.Known)
    (hn : (w.pendings t).length ≤ 50) :
    Solo lim Anything t fetchPendingTasks
      (Ends (fun _ w' => ∀ o ∈ w.pendings t, Published w w' o.id) (fun _ _ => True)) w := by
  refine solo_within (wp_mono (Q := Ends (fun _ w' => ∃ events, AllPublished w events w' ∧
      ∀ o ∈ w.pendings t, ∃ e ∈ events, parseEventToMessage e = .ok o.body)
    (fun _ _ => True)) ?_ ?_)
  · refine solo_then (P := fun events w' => w'.trace = w.trace ∧
      ∀ o ∈ w.pendings t, ∃ e ∈ events, parseEventToMessage e = .ok o.body) ?_ (fun events w₁ h₁ => ?_)
    · refine solo_then (P := fun rows w' => w'.trace = w.trace ∧ (∀ o ∈ w.pendings t, o ∈ rows) ∧
        ∀ o ∈ rows, o.Known) (solo_op (fun ch r w' _ hd => ?_)) (fun rows w₁ h₁ => ?_)
      · cases hd with
        | fault => trivial
        | @pendings _ _ ids hsort =>
          have hlen : (ids.drop 0).take 50 = ids := by
            rw [List.drop_zero, List.take_of_length_le]
            rw [hsort.1.length_eq, List.length_map]
            exact hn
          rw [hlen]
          refine ⟨rfl, fun o ho => ?_, fun o ho => hs o (mem_named ho)⟩
          exact mem_named_of_sorted (w.pendings_nodup t) ho
            (hsort.1.symm.subset (List.mem_map_of_mem ho))
      · obtain ⟨ht, hall, hknown⟩ := h₁
        obtain ⟨events, hev, hto, _⟩ := rebuilt_all hknown
        refine (wp_ofExcept _).mpr ?_
        rw [hev]
        refine ⟨ht, fun o ho => ?_⟩
        obtain ⟨e, he, hsp⟩ := hto o (hall o ho)
        exact ⟨e, he, hsp.2⟩
    · have hstart : AllPublished w [] w₁ := ⟨[], h₁.1, fun _ he => by cases he⟩
      refine wp_mono (solo_publish_events hstart) (fun r w' hr => ?_)
      cases r with
      | ok _ => exact ⟨events, hr, h₁.2⟩
      | error e => trivial
  · intro r w' hr
    cases r with
    | error e => exact ⟨trivial, fun _ _ => trivial⟩
    | ok _ =>
      obtain ⟨events, ⟨new, hn, ha⟩, hall⟩ := hr
      refine ⟨fun o ho => ⟨new, hn, ?_⟩, fun _ _ => trivial⟩
      obtain ⟨e, he, hb⟩ := hall o ho
      obtain ⟨body, hb', u, x, k, m, hm, hmb⟩ := ha e he
      have hbody : body = o.body := Except.ok.inj (hb'.symm.trans hb)
      exact ⟨u, x, k, m, hm, by rw [hmb, hbody, body_id]⟩

end Cover

section Starve

/-- Since `w₀` nothing has changed but the messages of the selected events. -/
structure Repeats (t : Tid) (w₀ : World) (ids : List UUID) (w : World) : Prop where
  db : w.db = w₀.db
  pend : w.pend t = []
  free : ∀ r, w.Free t r ↔ w₀.Free t r
  trace : ∃ new, w.trace = new ++ w₀.trace ∧ ∀ u x k m, (u, .accepted x k m) ∈ new →
    ∃ id ∈ ids.take 50, m.body.text "id" = some id.str

variable {t : Tid} {w₀ w : World} {ids : List UUID}

theorem Repeats.pendings (h : Repeats t w₀ ids w) (hp : w₀.pend t = []) :
    w.pendings t = w₀.pendings t := by
  have hview : w.view t = w₀.view t := by
    rw [World.view, World.view, h.pend, h.db, hp]
  simp [World.pendings, hview, h.free]

theorem Repeats.hold (h : Repeats t w₀ ids w) {rs : List Resource} (hf : ∀ r ∈ rs, w.Free t r) :
    Repeats t w₀ ids (w.hold t rs) := by
  refine ⟨h.db, h.pend, fun r => ⟨fun hr => ?_, fun hr => ?_⟩, h.trace⟩
  · by_cases hm : r ∈ rs
    · exact (h.free r).mp (hf r hm)
    · have hl : (w.hold t rs).lock r = w.lock r := if_neg hm
      rw [World.Free, hl] at hr
      exact (h.free r).mp hr
  · exact World.free_hold ((h.free r).mpr hr)

theorem Repeats.drop (h : Repeats t w₀ ids w) : Repeats t w₀ ids (w.drop t) := by
  refine ⟨h.db, by simp, fun r => ⟨fun hr => ?_, fun hr => ?_⟩, h.trace⟩
  · by_cases hm : w.lock r = some t
    · exact (h.free r).mp (.inr hm)
    · have hl : (w.drop t).lock r = w.lock r := if_neg hm
      rw [World.Free, hl] at hr
      exact (h.free r).mp hr
  · exact World.free_drop ((h.free r).mpr hr)

theorem Repeats.accept (h : Repeats t w₀ ids w) {lim : Limits} {x k : String} {m : Message}
    (hm : ∃ id ∈ ids.take 50, m.body.text "id" = some id.str) :
    Repeats t w₀ ids (w.accept t lim x k m) := by
  obtain ⟨new, hn, ha⟩ := h.trace
  refine ⟨h.db, h.pend, h.free, (t, .accepted x k m) :: new, by simp [hn], fun u x' k' m' hx => ?_⟩
  rcases List.mem_cons.mp hx with he | hx
  · cases he
    exact hm
  · exact ha u x' k' m' hx

/-- The rows under the identifiers of a list of rows are those rows. -/
theorem named_ids {rows xs : List OutboxRow} (hn : (rows.map OutboxRow.id).Nodup)
    (hx : ∀ o ∈ xs, o ∈ rows) : World.named rows (xs.map OutboxRow.id) = xs := by
  induction xs with
  | nil => rfl
  | cons o xs ih =>
    have hfind : rows.find? (fun x => decide (x.id = o.id)) = some o :=
      Table.find_mem (T := (⟨rows, hn⟩ : Table OutboxRow UUID OutboxRow.id)) (hx o List.mem_cons_self)
    have hrest := ih (fun x hm => hx x (List.mem_cons_of_mem _ hm))
    simp only [World.named, List.map_cons, List.filterMap_cons, hfind] at hrest ⊢
    rw [hrest]

/-- Pending events can be sorted by their time. -/
theorem exists_sorted (rows : List OutboxRow) (hn : (rows.map OutboxRow.id).Nodup) :
    ∃ ids, World.Sorted rows ids := by
  let le : OutboxRow → OutboxRow → Bool := fun a b => a.occurredAt.ordinal ≤ b.occurredAt.ordinal
  have hperm := List.mergeSort_perm rows le
  refine ⟨(rows.mergeSort le).map OutboxRow.id, hperm.map _, ?_⟩
  rw [named_ids hn (fun o ho => hperm.subset ho)]
  have htrans : ∀ a b c, le a b = true → le b c = true → le a c = true := by
    intro a b c hab hbc
    simp only [le, decide_eq_true_eq] at hab hbc ⊢
    omega
  have htotal : ∀ a b, (le a b || le b a) = true := by
    intro a b
    simp only [le, Bool.or_eq_true, decide_eq_true_eq]
    omega
  have hsorted := List.pairwise_mergeSort htrans htotal rows
  exact hsorted.imp (fun h => by simpa [le] using h)

variable [Externals] {lim : Limits}

/-- Events of selected rows can all be published. -/
theorem runs_publish_events {events : List PaymentEvent} (h : Repeats t w₀ ids w)
    (hs : ∀ e ∈ events, ∃ o, o.id ∈ ids.take 50 ∧ Spells o e) :
    ∃ w', (service lim).Runs (fun _ _ => True) t (EventBus.publishPaymentEvents events) w
      (.ok ()) w' ∧ Repeats t w₀ ids w' := by
  induction events generalizing w with
  | nil => exact ⟨w, .ret () w, h⟩
  | cons e events ih =>
    obtain ⟨o, ho, ⟨q, hq⟩, hb⟩ := hs e List.mem_cons_self
    have haccept : Repeats t w₀ ids (w.accept t lim (EventBus.exchangeRegistry e.cls) q.routingKey
        { body := o.body }) := h.accept ⟨o.id, ho, body_id o⟩
    obtain ⟨w', hr, h'⟩ := ih haccept (fun e' he' => hs e' (List.mem_cons_of_mem _ he'))
    refine ⟨w', .bind (a := ()) ?_ hr, h'⟩
    unfold EventBus.publishPaymentEvent
    simp only [hq, hb]
    exact .handle_ok (runs_op (fun _ _ _ => trivial) .ok rfl rfl)

/-- A poll can select the same rows again. -/
theorem runs_fetch (hp : w₀.pend t = []) (hk : ∀ o ∈ w₀.pendings t, o.Known)
    (hs : World.Sorted (w₀.pendings t) ids) (h : Repeats t w₀ ids w) :
    ∃ w', (service lim).Runs (fun _ _ => True) t fetchPendingTasks w (.ok ()) w' ∧
      Repeats t w₀ ids w' := by
  have hpend := h.pendings hp
  have hlock : Repeats t w₀ ids (w.hold t ((ids.take (0 + 50)).map .outbox)) := by
    refine h.hold (fun r hr => ?_)
    obtain ⟨id, hid, rfl⟩ := List.mem_map.mp hr
    obtain ⟨o, ho, rfl⟩ := List.mem_map.mp (hs.1.subset (List.mem_of_mem_take hid))
    rw [← hpend] at ho
    exact (by simpa using (List.mem_filter.mp ho).2 : _ ∧ _).2
  have hselect : (service lim).Runs (fun _ _ => True) t (perform (.selectPendings 50 0)) w
      (.ok (World.named (w₀.pendings t) (ids.take 50)))
      (w.hold t ((ids.take (0 + 50)).map .outbox)) := by
    rw [← hpend] at hs ⊢
    exact runs_op (fun _ _ _ => trivial) (.order ids) rfl (World.exec_pendings lim hs 50 0)
  have hknown : ∀ o ∈ World.named (w₀.pendings t) (ids.take 50), o.Known :=
    fun o ho => hk o (mem_named ho)
  obtain ⟨events, hev, _, hof⟩ := rebuilt_all hknown
  have hget : (service lim).Runs (fun _ _ => True) t OutboxRepository.getPendings w (.ok events)
      (w.hold t ((ids.take (0 + 50)).map .outbox)) := by
    refine .bind hselect ?_
    rw [hev]
    exact .ret _ _
  obtain ⟨w', hr, h'⟩ : ∃ w', (service lim).Runs (fun _ _ => True) t
      (EventBus.publishPaymentEvents events) _ (.ok ()) w' ∧ Repeats t w₀ ids w' := by
    refine runs_publish_events hlock (fun e he => ?_)
    obtain ⟨o, ho, hsp⟩ := hof e he
    obtain ⟨id, hid, hf⟩ := List.mem_filterMap.mp ho
    have hoid : o.id = id := by simpa using List.find?_some hf
    exact ⟨o, hoid ▸ hid, hsp⟩
  exact ⟨w'.drop t, runs_within (fun _ _ _ => trivial) (.bind hget hr), h'.drop⟩

/-- Any number of polls can select the same rows. -/
theorem polls_repeat (hp : w₀.pend t = []) (hk : ∀ o ∈ w₀.pendings t, o.Known)
    (hs : World.Sorted (w₀.pendings t) ids) (n : Nat) :
    ∃ w', Polls lim t w₀ n w' ∧ Repeats t w₀ ids w' := by
  induction n with
  | zero => exact ⟨w₀, .zero, rfl, hp, fun _ => Iff.rfl, [], rfl, fun _ _ _ _ => by simp⟩
  | succ n ih =>
    obtain ⟨w₁, h₁, hr₁⟩ := ih
    obtain ⟨w₂, h₂, hr₂⟩ := runs_fetch hp hk hs hr₁
    exact ⟨w₂, .succ h₁ h₂, hr₂⟩

/-- Of more than fifty pending events, one is never published by polls that repeat. -/
theorem polls_starve (hp : w₀.pend t = []) (hk : ∀ o ∈ w₀.pendings t, o.Known)
    (hlen : 50 < (w₀.pendings t).length) (n : Nat) :
    ∃ w', Polls lim t w₀ n w' ∧ ∃ o ∈ w₀.pendings t, ¬ Published w₀ w' o.id := by
  obtain ⟨ids, hs⟩ := exists_sorted (w₀.pendings t) (w₀.pendings_nodup t)
  obtain ⟨w', hpolls, hr⟩ : ∃ w', Polls lim t w₀ n w' ∧ Repeats t w₀ ids w' :=
    polls_repeat hp hk hs n
  have hids : 50 < ids.length := by
    rw [hs.1.length_eq, List.length_map]
    exact hlen
  have hnodup : ids.Nodup := hs.1.nodup_iff.mpr (w₀.pendings_nodup t)
  obtain ⟨o, ho, hoid⟩ := List.mem_map.mp (hs.1.subset (List.getElem_mem hids))
  refine ⟨w', hpolls, o, ho, ?_⟩
  rintro ⟨new, hn, u, x, k, m, hm, hb⟩
  obtain ⟨new', hn', ha⟩ := hr.trace
  obtain rfl := List.append_cancel_right (hn.symm.trans hn')
  obtain ⟨id, hid, hb'⟩ := ha u x k m hm
  have hid50 : ids[50] ∈ ids.take 50 := by
    rw [← hoid, UUID.str_inj (Option.some.inj (hb.symm.trans hb'))]
    exact hid
  obtain ⟨i, hi, he⟩ := List.mem_take_iff_getElem.mp hid50
  have := hnodup.getElem_inj_iff.mp he
  omega

end Starve

/-- As many polls as cover a backlog by fifties publish all of its pending events exactly if
the backlog has at most fifty. -/
theorem polls_cover_iff [Externals] {lim : Limits} {t : Tid} {w : World} (hp : w.pend t = [])
    (hk : ∀ o ∈ w.pendings t, o.Known) :
    (∀ w', Polls lim t w (((w.pendings t).length + 49) / 50) w' →
      ∀ o ∈ w.pendings t, Published w w' o.id) ↔ (w.pendings t).length ≤ 50 := by
  constructor
  · intro h
    by_contra hlen
    obtain ⟨w', hpolls, o, ho, hn⟩ := polls_starve hp hk (by omega)
      (((w.pendings t).length + 49) / 50)
    exact hn (h w' hpolls o ho)
  · intro hlen w' hpolls o ho
    have hpos : 0 < (w.pendings t).length := List.length_pos_of_mem ho
    have hone : ((w.pendings t).length + 49) / 50 = 1 := by omega
    rw [hone] at hpolls
    cases hpolls with
    | succ h hr =>
      cases h
      exact Runs.alone hr (solo_fetch_all hk hlen) o ho

/-- The pending events of some creations, with no transaction open. -/
def backlog (n : Nat) (h : ((List.range n).map uid).Nodup) : World where
  db := {
    payments := .empty
    outbox := ⟨(List.range n).map (fun i =>
      ⟨uid i, "payments.new", createdPayload (uid i), sampleTime, .pending, none⟩), by
        rwa [List.map_map]⟩ }

theorem backlog_known {n : Nat} {h : ((List.range n).map uid).Nodup} :
    ∀ o ∈ (backlog n h).pendings 0, o.Known := by
  intro o ho
  obtain ⟨i, _, rfl⟩ := List.mem_map.mp (List.mem_filter.mp ho).1
  exact ⟨⟨uid i, .nan, .rub, "", .null, .pending, uid 1, sampleTime, none, ""⟩, .inl ⟨rfl, rfl⟩⟩

/-- A poll over three events. -/
def smallPoll : Option (Except Exc Unit × World) :=
  (sampleService {}).alone? (fun _ _ => true) 0
    [.order [uid 0, uid 1, uid 2], .ok, .ok, .ok, .ok] fetchPendingTasks (backlog 3 (by decide))

set_option maxRecDepth 20000 in
theorem smallPoll_ok : ∃ w', smallPoll = some (.ok (), w') := by
  have h : smallPoll.any (fun x => x.1.toOption.isSome) = true := by decide +kernel
  rcases hx : smallPoll with _ | ⟨_ | _, w'⟩
  · rw [hx] at h
    cases h
  · rw [hx] at h
    cases h
  · exact ⟨w', rfl⟩

set_option maxRecDepth 20000 in
theorem polls_cover_three : ∃ w', @Polls sample {} 0 (backlog 3 (by decide)) 1 w' ∧
    ((backlog 3 (by decide)).pendings 0).length = 3 ∧
    ∀ o ∈ (backlog 3 (by decide)).pendings 0, Published (backlog 3 (by decide)) w' o.id := by
  have hlen : ((backlog 3 (by decide)).pendings 0).length = 3 := by decide +kernel
  obtain ⟨w', hw⟩ := smallPoll_ok
  have hr := Sys.runs_of_alone (fun _ _ _ => trivial) hw
  have hpolls : @Polls sample {} 0 (backlog 3 (by decide)) 1 w' :=
    @Polls.succ sample {} 0 _ 0 _ _ (@Polls.zero sample _ _ _) hr
  have hiff := @polls_cover_iff sample {} 0 (backlog 3 (by decide)) rfl backlog_known
  rw [hlen] at hiff
  exact ⟨_, hpolls, hlen, hiff.mpr (by decide) _ hpolls⟩

theorem polls_miss_event : ∃ w', @Polls sample {} 0 (backlog 51 (by decide +kernel))
    ((((backlog 51 (by decide +kernel)).pendings 0).length + 49) / 50) w' ∧
    ∃ o ∈ (backlog 51 (by decide +kernel)).pendings 0,
      ¬ Published (backlog 51 (by decide +kernel)) w' o.id :=
  @polls_starve 0 (backlog 51 (by decide +kernel)) sample {} rfl backlog_known (by decide +kernel) _

end Payments
