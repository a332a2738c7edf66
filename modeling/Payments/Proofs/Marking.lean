import Payments.Proofs.Readback

namespace Payments

open Lib

/-- The outbox has an event with the identifier. -/
def World.HasEvent (w : World) (id : UUID) : Prop := ∃ o ∈ w.db.outbox.rows, o.id = id

/-- The steps of a run in which nothing fails and in which the lookup of an event meets one of
these states. -/
def LooksUp (V : World → Prop) (t : Tid) (id : UUID) (w : World)
    (m : Move Op Choice Req Env) : Prop :=
  works m = true ∧ (m = .run t (.selectOutboxId id) .ok → V w)

/-- A commit has changed the status of one event, and nothing else. -/
def World.CommitsStatus (t : Tid) (id : UUID) (status : TaskStatus) (w' : World) : Prop :=
  ∃ w : World, w' = w.commit t ∧ w'.db.payments = w.db.payments ∧
    ∃ o ∈ w.db.outbox.rows, o.id = id ∧ ∀ x, x ∈ w'.db.outbox.rows ↔
      x ∈ w.db.outbox.rows ∧ x.id ≠ id ∨ x = { o with status := status }

/-- `mark_processed` and the commit raise only for an unknown event, and otherwise they commit its
new status. -/
def World.MarksKnown (w : World) (t : Tid) (id : UUID) (status : TaskStatus)
    (r : Except Exc Unit) (w' : World) : Prop :=
  ((∃ e, r = .error e) ↔ ¬ w.HasEvent id) ∧ (r = .ok () → w'.CommitsStatus t id status)

/-- `mark_processed` and the commit of its unit of work. -/
def markAndCommit (id : UUID) (status : TaskStatus) : Service Unit := do
  OutboxRepository.markProcessed id status
  Uow.commit

section

variable [Externals] {lim : Limits} {t : Tid} {w : World} {id : UUID} {status : TaskStatus}
  {V : World → Prop}

abbrev Marking (lim : Limits) (V : World → Prop) (t : Tid) (id : UUID) {α : Type} (p : Service α)
    (Q : Except Exc α → World → Prop) (w : World) : Prop :=
  wp (service lim) (LooksUp V t id) (.relying World.Rely) t p Q w

/-- The thread has locked a committed event, and has made these changes. -/
def Locked (t : Tid) (id : UUID) (ws : List Write) (w : World) : Prop :=
  w.pend t = ws ∧ w.lock (.outbox id) = some t ∧ w.HasEvent id

omit [Externals] in
theorem locked_stable {ws : List Write} : Stable t (Locked t id ws) := by
  rintro w w' ⟨hp, hl, o, ho, rfl⟩ hr
  exact ⟨hr.pend.trans hp, hr.lock _ hl, o, hr.event o ho hl, rfl⟩

theorem marks_write (h : Locked t id [] w) : Marking lim V t id (do
      perform (.updateOutbox id status none)
      perform .flush)
    (fun r w => r = .ok () ∧ Locked t id [.updateOutbox id status none] w) w := by
  refine wp_seq (fun r w => r = .ok () ∧ Locked t id [.updateOutbox id status none] w)
    (wp_relying _ h locked_stable (fun w₁ ch r w₂ hw ha he => ?_)) (fun _ w hw => ?_)
    (fun _ _ hw => absurd hw.1 (by simp))
  · obtain ⟨hp, hl, o, ho, hid⟩ := hw
    cases World.exec_does he with
    | fault => cases ha.1
    | missEvent hn =>
      rw [World.view_nil hp] at hn
      exact absurd hid (Table.find_none.mp hn o ho)
    | updateOutbox _ _ =>
      refine ⟨rfl, ?_, ?_, o, ho, hid⟩
      · simp [hp]
      · simp [Write.resources]
  · refine wp_relying _ hw.2 locked_stable (fun w₁ ch r w₂ hw ha he => ?_)
    cases World.exec_does he with
    | fault => cases ha.1
    | flush => exact ⟨rfl, hw⟩

theorem marks_commit (h : Locked t id [.updateOutbox id status none] w) :
    Marking lim V t id Uow.commit (fun r w' => r = .ok () ∧ w'.CommitsStatus t id status) w := by
  refine wp_catch (fun r w' => r = .ok () ∧ w'.CommitsStatus t id status)
    (wp_relying _ h locked_stable (fun w₁ ch r w₂ hw ha he => ?_)) (fun _ _ hw => hw)
    (fun _ _ hw => absurd hw.1 (by simp))
  obtain ⟨hp, _, o, ho, hid⟩ := hw
  cases World.exec_does he with
  | fault => cases ha.1
  | lostCommit => cases ha.1
  | commit =>
    refine ⟨rfl, w₁, rfl, ?_, o, ho, hid, fun x => ?_⟩
    · rw [World.commit_db, World.view, hp]
      rfl
    · rw [World.commit_db, World.view, hp, Db.mem_outbox_mark]
      refine or_congr_right ⟨?_, fun hx => ⟨o, ho, hid, hx.symm⟩⟩
      rintro ⟨y, hy, hyid, rfl⟩
      rw [w₁.db.outbox.eq_of_key hy ho (hyid.trans hid.symm)]
      rfl

/-- Among other transactions that keep their contracts, `mark_processed` and the commit do what is
asked of them exactly where the lookup does not find the row of the event locked. -/
theorem mark_processed_locks (h : w.pend t = []) :
    Marking lim V t id (markAndCommit id status)
      (fun r w' => ∃ w, V w ∧
        (w.MarksKnown t id status r w' ↔ (w.HasEvent id → w.Free t (.outbox id)))) w := by
  have hstable : Stable t (fun w => w.pend t = []) := fun _ _ hp hr => hr.pend.trans hp
  refine wp_seq (fun r w => (r = .ok () ∧ Locked t id [.updateOutbox id status none] w ∧
      ∃ w, V w ∧ w.HasEvent id ∧ w.Free t (.outbox id)) ∨
    (∃ e, r = .error e) ∧ ∃ w, V w ∧ (w.HasEvent id → ¬ w.Free t (.outbox id)))
    (wp_seq (fun r w => ∃ x, r = .ok x ∧
      ((x.isSome ∧ Locked t id [] w ∧ ∃ w, V w ∧ w.HasEvent id ∧ w.Free t (.outbox id)) ∨
      x = none ∧ ∃ w, V w ∧ (w.HasEvent id → ¬ w.Free t (.outbox id))))
      (wp_relying _ h hstable (fun w₁ ch r w₂ hp ha he => ?_)) ?_ ?_) ?_ ?_
  · cases World.exec_does he with
    | fault => cases ha.1
    | @lockEvent _ o ho hid hf =>
      rw [World.view_nil hp] at ho
      exact ⟨some id, rfl, .inl ⟨rfl, ⟨hp, by simp, o, ho, hid⟩, w₁, ha.2 rfl, ⟨o, ho, hid⟩, hf⟩⟩
    | skipEvent hn =>
      rw [World.view_nil hp] at hn
      refine ⟨none, rfl, .inr ⟨rfl, w₁, ha.2 rfl, fun hev => ?_⟩⟩
      obtain ⟨o, ho, hid⟩ := hev
      exact hn o ho hid
  · rintro x w ⟨_, he, hx⟩
    cases he
    rcases hx with ⟨hx, hl, hw⟩ | ⟨rfl, hw⟩
    · obtain ⟨_, rfl⟩ := Option.isSome_iff_exists.mp hx
      refine wp_mono (marks_write hl) (fun r w hr => .inl ⟨hr.1, hr.2, hw⟩)
    · exact .inr ⟨⟨_, rfl⟩, hw⟩
  · rintro e w ⟨_, he, _⟩
    cases he
  · rintro _ w (⟨_, hl, w', hv, hev, hf⟩ | ⟨⟨_, he⟩, _⟩)
    · refine wp_mono (marks_commit hl) (fun r w'' hr => ⟨w', hv, ?_⟩)
      obtain ⟨rfl, hc⟩ := hr
      have hraises : (∃ e : Exc, (.ok () : Except Exc Unit) = .error e) ↔ ¬ w'.HasEvent id := by
        simp [hev]
      exact ⟨fun _ _ => hf, fun _ => ⟨hraises, fun _ => hc⟩⟩
    · cases he
  · rintro e w (⟨he, _⟩ | ⟨_, w', hv, hn⟩)
    · cases he
    · refine ⟨w', hv, fun hm hev => absurd hev (hm.1.mp ⟨e, rfl⟩), fun hfree => ?_⟩
      have hmissing : ¬ w'.HasEvent id := fun hev => hn hev (hfree hev)
      exact ⟨⟨fun _ => hmissing, fun _ => ⟨e, rfl⟩⟩, by simp⟩

end

/-- Every step works, and no other transaction has the event locked. -/
def worksUnlocked (w : World) (m : Move Op Choice Req Env) : Bool :=
  works m && decide (w.Free 0 (.outbox (uid 11)))

def markedAlone : Option (Except Exc Unit × World) :=
  (sampleService {}).alone? worksUnlocked 0 (List.replicate 4 .ok) (markAndCommit (uid 11) .failed)
    (pendingWorld (uid 11))

set_option maxRecDepth 20000 in
theorem markedAlone_ok : (markedAlone.bind (fun x => x.1.toOption)).isSome = true := by
  decide +kernel

theorem mark_processed_locks_free : ∃ w w', Sys.Runs (sampleService {}) (fun _ m => works m = true) 0
    (markAndCommit (uid 11) .failed) w (.ok ()) w' ∧ w'.CommitsStatus 0 (uid 11) .failed := by
  obtain ⟨_, hm⟩ := Option.isSome_iff_exists.mp markedAlone_ok
  obtain ⟨⟨r, w'⟩, hrun, hr⟩ := Option.bind_eq_some_iff.mp hm
  have hok : r = .ok () := by
    cases r with
    | ok _ => rfl
    | error e => cases hr
  have hruns : Sys.Runs (sampleService {}) (fun w m => worksUnlocked w m = true) 0
      (markAndCommit (uid 11) .failed) (pendingWorld (uid 11)) r w' :=
    Sys.runs_of_alone (fun _ _ h => h) hrun
  have hunlocked : ∀ w m, worksUnlocked w m = true →
      LooksUp (fun w => w.Free 0 (.outbox (uid 11))) 0 (uid 11) w m := fun w m h =>
    ⟨(Bool.and_eq_true_iff.mp h).1, fun _ => of_decide_eq_true (Bool.and_eq_true_iff.mp h).2⟩
  obtain ⟨_, w, hf, hiff⟩ := Runs.sound (World.Rely.refl 0) (hruns.mono hunlocked) trivial
    (@mark_processed_locks sample {} 0 _ (uid 11) .failed _ rfl)
  have hworks : ∀ w m, worksUnlocked w m = true → works m = true := fun _ _ h =>
    (Bool.and_eq_true_iff.mp h).1
  have hruns' := hruns.mono hworks
  subst hok
  exact ⟨_, w', hruns', (hiff.mpr (fun _ => hf)).2 rfl⟩

/-- Another transaction has the event locked. -/
def lockedWorld : World :=
  { pendingWorld (uid 11) with lock := fun r => if r = .outbox (uid 11) then some 1 else none }

def missedAlone : Option (Except Exc Unit × World) :=
  (sampleService {}).alone? (fun _ m => works m) 0 [.ok] (markAndCommit (uid 11) .failed) lockedWorld

set_option maxRecDepth 20000 in
theorem missedAlone_raises :
    missedAlone.isSome = true ∧ (missedAlone.bind (fun x => x.1.toOption)).isNone = true := by
  decide +kernel

/-- An event that another transaction has locked is reported as unknown. -/
theorem locked_reported_missing : lockedWorld.HasEvent (uid 11) ∧ ∃ e w',
    Sys.Runs (sampleService {}) (fun _ m => works m = true) 0 (markAndCommit (uid 11) .failed)
      lockedWorld (.error e) w' := by
  obtain ⟨⟨r, w'⟩, hrun⟩ := Option.isSome_iff_exists.mp missedAlone_raises.1
  have hruns := Sys.runs_of_alone (fun _ _ h => h) hrun
  refine ⟨⟨_, List.mem_singleton.mpr rfl, rfl⟩, ?_⟩
  cases r with
  | error e => exact ⟨e, w', hruns⟩
  | ok a =>
    have hnone := missedAlone_raises.2
    rw [hrun] at hnone
    cases hnone

end Payments
