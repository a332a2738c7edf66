import Payments.Proofs.History
import Payments.Proofs.Reading

namespace Payments

open Lib

/-- The events of a reachable state are those that the service stores. -/
theorem World.Inv.known {w : World} (h : w.Inv) {o : OutboxRow} (ho : o ∈ w.db.outbox.rows) :
    o.Known := by
  obtain ⟨r, _, hc | ⟨_, hp⟩⟩ := h.agree.origin o ho
  · exact ⟨r, .inl hc⟩
  · exact ⟨r, .inr hp⟩

/-- A thread with no open changes comes across known events only. -/
theorem World.Inv.pendings_known {w : World} (h : w.Inv) {t : Tid} (hp : w.pend t = []) :
    ∀ o ∈ w.pendings t, o.Known := by
  intro o ho
  have hmem := (List.mem_filter.mp ho).1
  rw [World.view_nil hp] at hmem
  exact h.known hmem

section

variable [Externals] {lim : Limits} {c : Config World Op Op.Res Exc Reply}

/-- A pending event that is committed and free is read by a thread with no open changes. -/
theorem World.Inv.reads {w : World} (h : w.Inv) {t : Tid} (ht : w.pend t = []) {o : OutboxRow}
    (ho : o ∈ w.db.outbox.rows) (hp : o.status = .pending) (hf : w.Free t (.outbox o.id))
    {e : PaymentEvent} (he : rebuildEvent o.id o.occurredAt o.queue o.payload.toPy = .ok e)
    (limit offset : Nat) : w.Reads lim t limit offset o e := by
  refine reads_of_pending (h.pendings_known ht) (List.mem_filter.mpr ⟨?_, by simp [hp, hf]⟩) he
  rw [World.view_nil ht]
  exact ho

/-- An event that has no end state is pending. Only a thread that runs can have it locked, and
when none has, `get_pendings` with its defaults, which are fifty and zero, reads the event, which
can be published. -/
theorem no_stranded_event (h : Reachable lim c) {o : OutboxRow}
    (ho : o ∈ c.shared.db.outbox.rows) (hs : ¬ o.status.Terminal) :
    o.status = .pending ∧ (∀ u, c.shared.lock (.outbox o.id) = some u → c.threads u ≠ none) ∧
      ∃ e, rebuildEvent o.id o.occurredAt o.queue o.payload.toPy = .ok e ∧ Spells o e ∧
        ∀ t, c.shared.pend t = [] → c.shared.Free t (.outbox o.id) →
          c.shared.Reads lim t 50 0 o e := by
  have hinv : c.shared.Inv := (reachable_holds h).inv
  have hp : o.status = .pending := (hinv.sound.event o ho).resolve_right hs
  obtain ⟨e, he, hspells⟩ := (hinv.known ho).rebuilt
  exact ⟨hp, fun u hu => lock_running h _ u hu, e, he, hspells,
    fun t ht hf => hinv.reads ht ho hp hf he 50 0⟩

end

/-- The handler of a created event crashes after it has called its use case. -/
def crashedRun : Schedule :=
  createRun 0 (uid 1) (uid 10) (uid 11) ++ [.start (.deliver 0), .run 1 .ok] ++ claimRun 1 ++
    [.run 1 .ok, .kill 1]

set_option maxRecDepth 20000 in
theorem crashedRun_some : (after {} crashedRun).isSome = true := by decide +kernel

set_option maxRecDepth 20000 in
theorem no_stranded_event_crashed : ∃ c, @Reachable sample {} c ∧ ∃ o ∈ c.shared.db.outbox.rows,
    ¬ o.status.Terminal ∧ o.status = .pending ∧ ∃ e, Spells o e ∧
      ∀ r w', (sampleService {}).Runs (fun _ m => works m = true) 2 OutboxRepository.getPendings
        c.shared r w' → ∃ events, r = .ok events ∧ e ∈ events := by
  let _ : Externals := sample
  have hr := reachable_after crashedRun_some
  obtain ⟨o, ho, hs, hp, hf, hfew⟩ :
      ∃ o ∈ ((after {} crashedRun).get crashedRun_some).shared.db.outbox.rows,
        ¬ o.status.Terminal ∧
          (((after {} crashedRun).get crashedRun_some).shared.pend 2).isEmpty = true ∧
          ((after {} crashedRun).get crashedRun_some).shared.Free 2 (.outbox o.id) ∧
          (((after {} crashedRun).get crashedRun_some).shared.upTo 2 o).length ≤ 0 + 50 := by
    decide +kernel
  obtain ⟨h₁, _, e, _, hspells, h₂⟩ := @no_stranded_event sample {} _ hr o ho hs
  exact ⟨_, hr, o, ho, hs, h₁, e, hspells,
    (h₂ 2 (List.isEmpty_iff.mp hp) hf).always (Nat.zero_le _) hfew⟩

end Payments
