import Payments.Proofs.Polling

namespace Payments

open Lib

/-- Of a sorted list, an element is on a page that begins no later than all that is less than it
ends, and ends no earlier than all that is not greater does. -/
theorem mem_page {α : Type} {f : α → Nat} {xs : List α} {x : α} {limit offset : Nat}
    (hs : xs.Pairwise (fun a b => f a ≤ f b)) (hx : x ∈ xs)
    (hlow : offset ≤ (xs.filter (fun a => f a < f x)).length)
    (hhigh : (xs.filter (fun a => f a ≤ f x)).length ≤ offset + limit) :
    x ∈ (xs.drop offset).take limit := by
  obtain ⟨before, after, rfl⟩ := List.append_of_mem hx
  obtain ⟨_, hafter, hall⟩ := List.pairwise_append.mp hs
  have hless : offset ≤ before.length := by
    have hnone : (x :: after).filter (fun a => f a < f x) = [] := by
      refine List.filter_eq_nil_iff.mpr (fun a ha => ?_)
      rcases List.mem_cons.mp ha with rfl | ha
      · simp
      · simpa using (List.pairwise_cons.mp hafter).1 a ha
    rw [List.filter_append, hnone, List.append_nil] at hlow
    exact hlow.trans (List.length_filter_le _ _)
  have hmore : before.length + 1 ≤ offset + limit := by
    have hbefore : before.filter (fun a => f a ≤ f x) = before :=
      List.filter_eq_self.mpr (fun a ha => by simpa using hall a ha x List.mem_cons_self)
    rw [List.filter_append, hbefore, List.filter_cons_of_pos (by simp), List.length_append,
      List.length_cons] at hhigh
    omega
  refine List.mem_iff_getElem?.mpr ⟨before.length - offset, ?_⟩
  rw [List.getElem?_take_of_lt (by omega), List.getElem?_drop,
    Nat.add_sub_cancel' hless, List.getElem?_append_right (Nat.le_refl _), Nat.sub_self]
  rfl

/-- An order of the identifiers of rows is one of the rows. -/
theorem named_perm {rows : List OutboxRow} (hn : (rows.map OutboxRow.id).Nodup) {ids : List UUID}
    (h : ids.Perm (rows.map OutboxRow.id)) :
    (World.named rows ids).Perm rows ∧ (World.named rows ids).map OutboxRow.id = ids := by
  refine ⟨(h.filterMap _).trans (.of_eq (named_ids hn (fun _ ho => ho))), ?_⟩
  have hfound : ∀ id ∈ ids, (rows.find? (fun o => o.id = id)).map OutboxRow.id = some id := by
    intro id hid
    obtain ⟨o, ho, rfl⟩ := List.mem_map.mp (h.subset hid)
    have hfind : rows.find? (fun x => decide (x.id = o.id)) = some o :=
      Table.find_mem (T := (⟨rows, hn⟩ : Table OutboxRow UUID OutboxRow.id)) ho
    rw [hfind]
    rfl
  rw [World.named, List.map_filterMap, List.filterMap_congr hfound, List.filterMap_some]

/-- The pending events that are older than an event. -/
def World.older (w : World) (t : Tid) (o : OutboxRow) : List OutboxRow :=
  (w.pendings t).filter (fun x => x.occurredAt.ordinal < o.occurredAt.ordinal)

/-- The pending events that are not newer than an event. -/
def World.upTo (w : World) (t : Tid) (o : OutboxRow) : List OutboxRow :=
  (w.pendings t).filter (fun x => x.occurredAt.ordinal ≤ o.occurredAt.ordinal)

/-- Whichever order the pending events are sorted into, an event comes after those that are older
and is among those that are not newer. -/
theorem mem_sorted_page {w : World} {t : Tid} {o : OutboxRow} {ids : List UUID} {limit offset : Nat}
    (ho : o ∈ w.pendings t) (hs : World.Sorted (w.pendings t) ids)
    (hlow : offset ≤ (w.older t o).length) (hhigh : (w.upTo t o).length ≤ offset + limit) :
    o.id ∈ (ids.drop offset).take limit := by
  obtain ⟨hperm, hids⟩ := named_perm (w.pendings_nodup t) hs.1
  rw [World.older, ← (hperm.filter _).length_eq] at hlow
  rw [World.upTo, ← (hperm.filter _).length_eq] at hhigh
  have hmem := mem_page hs.2 (hperm.symm.subset ho) hlow hhigh
  rw [← hids, ← List.map_drop, ← List.map_take]
  exact List.mem_map_of_mem hmem

/-- The events are rebuilt from the pending ones on a page of a sort. -/
abbrev World.Page (w : World) (t : Tid) (limit offset : Nat) (ids : List UUID)
    (events : List PaymentEvent) : Prop :=
  (World.named (w.pendings t) ((ids.drop offset).take limit)).mapM (fun row =>
    rebuildEvent row.id row.occurredAt row.queue row.payload.toPy) = .ok events

/-- A row of a page is rebuilt to an event of it. -/
theorem mem_of_page {w : World} {t : Tid} {limit offset : Nat} {ids : List UUID}
    {events : List PaymentEvent} {o : OutboxRow} {e : PaymentEvent} (ho : o ∈ w.pendings t)
    (hid : o.id ∈ (ids.drop offset).take limit)
    (he : rebuildEvent o.id o.occurredAt o.queue o.payload.toPy = .ok e)
    (h : w.Page t limit offset ids events) : e ∈ events := by
  obtain ⟨e', hmem, he'⟩ := (forall₂_mem (mapM_ok.mp h)).1 o
    (mem_named_of_sorted (w.pendings_nodup t) ho hid)
  cases he.symm.trans he'
  exact hmem

theorem exists_page {w : World} {t : Tid} (hk : ∀ o ∈ w.pendings t, o.Known) (limit offset : Nat)
    (ids : List UUID) : ∃ events, w.Page t limit offset ids events := by
  have hknown : ∀ o ∈ World.named (w.pendings t) ((ids.drop offset).take limit), o.Known :=
    fun o ho => hk o (mem_named ho)
  obtain ⟨events, hev, _⟩ := rebuilt_all hknown
  exact ⟨events, hev⟩

section

variable [Externals] {lim : Limits} {t : Tid} {w w' : World} {limit offset : Nat}
  {r : Except Exc (List PaymentEvent)}

/-- With a limit and an offset, `get_pendings` reads the event of a row. How events of one time are
sorted is open. -/
structure World.Reads (lim : Limits) (w : World) (t : Tid) (limit offset : Nat) (o : OutboxRow)
    (e : PaymentEvent) : Prop where
  /-- Where a sort has the event on the page, a run returns it. -/
  ordered : ∀ ids, World.Sorted (w.pendings t) ids → o.id ∈ (ids.drop offset).take limit →
    ∃ events w', (service lim).Runs
      (fun _ m => m = .run t (.selectPendings limit offset) (.order ids)) t
      (OutboxRepository.getPendings limit offset) w (.ok events) w' ∧ e ∈ events
  /-- Where every sort has the event on the page, every run returns it. -/
  always : offset ≤ (w.older t o).length → (w.upTo t o).length ≤ offset + limit →
    ∀ r w', (service lim).Runs (fun _ m => works m = true) t
      (OutboxRepository.getPendings limit offset) w r w' → ∃ events, r = .ok events ∧ e ∈ events

/-- A run of `get_pendings` rebuilds the events on a page of a sort. -/
theorem getPendings_page (hk : ∀ o ∈ w.pendings t, o.Known)
    (hr : (service lim).Runs (fun _ m => works m = true) t
      (OutboxRepository.getPendings limit offset) w r w') :
    ∃ ids events, World.Sorted (w.pendings t) ids ∧ r = .ok events ∧
      w.Page t limit offset ids events := by
  refine Runs.alone hr (Q := fun r _ => ∃ ids events, World.Sorted (w.pendings t) ids ∧
    r = .ok events ∧ w.Page t limit offset ids events) ?_
  refine wp_seq (fun r _ => ∃ ids, World.Sorted (w.pendings t) ids ∧
      r = .ok (World.named (w.pendings t) ((ids.drop offset).take limit)))
    (solo_op (fun ch r w' ha hd => ?_)) ?_ (by rintro _ _ ⟨_, _, he⟩; cases he)
  · cases hd with
    | fault => cases ha
    | pendings hs => exact ⟨_, hs, rfl⟩
  · rintro rows w₁ ⟨ids, hs, he⟩
    cases he
    obtain ⟨events, hev⟩ := exists_page hk limit offset ids
    exact (wp_ofExcept _).mpr ⟨ids, events, hs, hev, hev⟩

/-- Each sort of the pending events is the order of a run of `get_pendings`. -/
theorem runs_getPendings {ids : List UUID} {events : List PaymentEvent}
    (hs : World.Sorted (w.pendings t) ids) (hev : w.Page t limit offset ids events) :
    (service lim).Runs (fun _ m => m = .run t (.selectPendings limit offset) (.order ids)) t
      (OutboxRepository.getPendings limit offset) w (.ok events)
      (w.hold t ((ids.take (offset + limit)).map .outbox)) := by
  refine .bind (.perform rfl (World.exec_pendings lim hs limit offset)) ?_
  rw [hev]
  exact .ret _ _

/-- A pending event that no other transaction locks is read by `get_pendings`. -/
theorem reads_of_pending {o : OutboxRow} {e : PaymentEvent} (hk : ∀ o ∈ w.pendings t, o.Known)
    (ho : o ∈ w.pendings t)
    (he : rebuildEvent o.id o.occurredAt o.queue o.payload.toPy = .ok e) :
    w.Reads lim t limit offset o e := by
  constructor
  · intro ids hs hid
    obtain ⟨events, hev⟩ := exists_page hk limit offset ids
    exact ⟨events, _, runs_getPendings hs hev, mem_of_page ho hid he hev⟩
  · intro hlow hhigh r w' hr
    obtain ⟨ids, events, hs, rfl, hev⟩ := getPendings_page hk hr
    exact ⟨events, rfl, mem_of_page ho (mem_sorted_page ho hs hlow hhigh) he hev⟩

end

end Payments
