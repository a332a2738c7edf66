import Payments.Proofs.Contract
import Payments.Proofs.Scenarios

namespace Payments

open Lib

/-- The tables show the event, and that it is pending. -/
def Db.pending (db : Db) (id : UUID) : Bool :=
  (db.outbox.find? id).any (fun o => o.status = .pending)

namespace Claims

/-- What the transactions on an outbox share, with every version of the tables that was
committed, newest first. -/
structure Versions where
  world : World
  past : List Db

/-- An outbox without an open transaction. -/
def Versions.of (db : Db) : Versions := ⟨{ db := db }, [db]⟩

def Versions.answered {α : Type} (s : Versions) (x : Option (Except Exc α × World)) :
    Option (Except Exc α × Versions) :=
  x.map (fun (r, w) => (r, ⟨w, w.db :: s.past⟩))

/-- How a statement answers. The snapshot of `SELECT ... FOR UPDATE` can be any version so far:
the rows that it shows are asked again when they are locked. The other statements look a row
up by its identifier, which every version has. -/
def Versions.exec (lim : Limits) (t : Tid) :
    (op : Op) → Choice × Nat → Versions → Option (Except Exc op.Res × Versions)
  | .selectPendingId id, (ch, n), s => s.past[n]?.bind (fun snapshot =>
      if snapshot.pending id then s.answered (s.world.answer t lim ch (.selectPendingId id))
      else s.answered (World.whenOk ch (some (.ok none, s.world))))
  | op, (ch, _), s => s.answered (s.world.answer t lim ch op)

/-- A transaction commits or rolls back, as it decides by what its call returned. -/
def finish (commits : Bool → Bool) (claimed : Bool) : Service Bool := do
  if commits claimed then perform .commit else perform .rollback
  pure claimed

def claimTransaction (id : UUID) (commits : Bool → Bool) : Service Bool := do
  let claimed ← OutboxRepository.markInProcess id
  finish commits claimed

end Claims

open Claims in
/-- Any number of transactions that claim one event. One that dies is rolled back. -/
def claims (lim : Limits) (id : UUID) :
    Sys Versions Op Op.Res Exc Bool (Choice × Nat) (Bool → Bool) Empty where
  exec := Versions.exec lim
  exit := fun _ _ s => s
  start := fun _ commits s => some (claimTransaction id commits, s)
  kill := fun t s => { s with world := s.world.drop t }
  env := fun e _ => e.elim

namespace Claims

variable {lim : Limits} {id : UUID} {t u : Tid} {w w' : World} {s s' : Versions}
  {c c' : Config Versions Op Op.Res Exc Bool}
  {ds : List (Config Versions Op Op.Res Exc Bool × Move Op (Choice × Nat) (Bool → Bool) Empty)}

/-- The call of a transaction has returned, and the transaction is open. -/
def Open (c : Config Versions Op Op.Res Exc Bool) (t : Tid) (claimed : Bool) : Prop :=
  ∃ commits, c.threads t = some (finish commits claimed)

/-- The transaction is in its call. -/
def Calling (c : Config Versions Op Op.Res Exc Bool) (t : Tid) : Prop :=
  ∃ p, c.threads t = some p ∧ p.result? = none ∧ ∀ commits claimed, p ≠ finish commits claimed

/-- The call of a transaction returned this in a run, up to its end. -/
def Got (ds : List (Config Versions Op Op.Res Exc Bool ×
    Move Op (Choice × Nat) (Bool → Bool) Empty)) (c : Config Versions Op Op.Res Exc Bool)
    (t : Tid) (claimed : Bool) : Prop :=
  Open c t claimed ∨ ∃ d ∈ ds, Open d.1 t claimed

/-- A transaction committed in a run, after its call returned this. -/
def Committed (ds : List (Config Versions Op Op.Res Exc Bool ×
    Move Op (Choice × Nat) (Bool → Bool) Empty)) (t : Tid) (claimed : Bool) : Prop :=
  ∃ d ∈ ds, Open d.1 t claimed ∧ ∃ ch, d.2 = .run t .commit ch

/-- The steps of a transaction alone come to where its call has returned. -/
def Returns (lim : Limits) (id : UUID) (c : Config Versions Op Op.Res Exc Bool) (t : Tid)
    (claimed : Bool) : Prop :=
  ∃ c', (claims lim id).Reach (fun _ m => m.thread? = some t) c c' ∧ Open c' t claimed

/-- The transaction has changed nothing and does not lock the event. -/
def Idle (id : UUID) (t : Tid) (w : World) : Prop :=
  w.pend t = [] ∧ w.lock (.outbox id) ≠ some t

/-- The transaction locks the event and has made these changes. -/
def Owns (id : UUID) (t : Tid) (ws : List Write) (w : World) : Prop :=
  w.pend t = ws ∧ w.lock (.outbox id) = some t

/-- What a transaction holds when its call has returned. -/
def Returned (id : UUID) (t : Tid) (w : World) : Bool → Prop
  | true => ∃ now, Owns id t [.updateOutbox id .inProcess (some now)] w
  | false => Idle id t w

/-! What is left of a transaction after each of its statements. -/

def ended (claimed : Bool) (r : Except Exc Unit) : Service Bool :=
  (Prog.ofExcept r).bind (fun _ => .ret claimed)

def flushed (commits : Bool → Bool) (r : Except Exc Unit) : Service Bool :=
  ((Prog.ofExcept r).bind (fun _ => .ret true)).bind (finish commits)

def updated (commits : Bool → Bool) (r : Except Exc Unit) : Service Bool :=
  ((Prog.ofExcept r).bind (fun _ => (perform .flush).bind (fun _ => .ret true))).bind
    (finish commits)

def selected (id : UUID) (commits : Bool → Bool) (now : DateTime)
    (r : Except Exc (Option UUID)) : Service Bool :=
  ((Prog.ofExcept r).bind (fun lockedId =>
    match lockedId with
    | none => .ret false
    | some _ => (perform (.updateOutbox id .inProcess (some now))).bind (fun _ =>
        (perform .flush).bind (fun _ => .ret true)))).bind (finish commits)

def timed (id : UUID) (commits : Bool → Bool) : Except Exc DateTime → Service Bool
  | .ok now => .call (.selectPendingId id) (selected id commits now)
  | .error e => .raise e

theorem claim_transaction_eq (commits : Bool → Bool) :
    claimTransaction id commits = .call .now (timed id commits) := by
  unfold claimTransaction OutboxRepository.markInProcess
  refine congrArg (Prog.call Op.now) (funext (fun r => ?_))
  cases r with
  | error e => rfl
  | ok now =>
    refine congrArg (Prog.call (Op.selectPendingId id)) (funext (fun r => ?_))
    cases r with
    | error e => rfl
    | ok lockedId => cases lockedId <;> rfl

theorem calling_start (commits : Bool → Bool)
    (ht : c.threads t = some (claimTransaction id commits)) : Calling c t := by
  refine ⟨_, ht, by rw [claim_transaction_eq]; rfl, fun commits' claimed he => ?_⟩
  rw [claim_transaction_eq] at he
  unfold finish at he
  split at he <;> cases he

theorem finish_eq (commits : Bool → Bool) (claimed : Bool) :
    finish commits claimed =
      if commits claimed then .call .commit (ended claimed) else .call .rollback (ended claimed) := by
  unfold finish
  split <;> rfl

theorem ended_inj {b b' : Bool} (h : ended b = ended b') : b = b' := by
  cases congrFun h (.ok ())
  rfl

/-- Where a transaction is in its program, with what it holds there. -/
inductive Stage (id : UUID) (t : Tid) (w : World) : Service Bool → Prop
  | call (commits : Bool → Bool) (h : Idle id t w) : Stage id t w (.call .now (timed id commits))
  | select (commits : Bool → Bool) (now : DateTime) (h : Idle id t w) :
      Stage id t w (.call (.selectPendingId id) (selected id commits now))
  | update (commits : Bool → Bool) (now : DateTime) (h : Owns id t [] w) :
      Stage id t w (.call (.updateOutbox id .inProcess (some now)) (updated commits))
  | flush (commits : Bool → Bool) (h : Returned id t w true) :
      Stage id t w (.call .flush (flushed commits))
  | commit {claimed : Bool} (h : Returned id t w claimed) :
      Stage id t w (.call .commit (ended claimed))
  | rollback {claimed : Bool} (h : Returned id t w claimed) :
      Stage id t w (.call .rollback (ended claimed))
  | done (claimed : Bool) (h : Idle id t w) : Stage id t w (.ret claimed)

theorem Stage.finish {claimed : Bool} (h : Returned id t w claimed) (commits : Bool → Bool) :
    Stage id t w (finish commits claimed) := by
  rw [finish_eq]
  split
  · exact .commit h
  · exact .rollback h

theorem Stage.start (commits : Bool → Bool) (h : Idle id t w) :
    Stage id t w (claimTransaction id commits) := by
  rw [claim_transaction_eq]
  exact .call commits h

/-- An open transaction whose call returned holds what it got. -/
theorem Stage.returned {commits : Bool → Bool} {claimed : Bool}
    (h : Stage id t w (Claims.finish commits claimed)) : Returned id t w claimed := by
  rw [finish_eq] at h
  generalize hk : ended claimed = k at h
  split at h
  all_goals
    cases h
    cases ended_inj hk
    assumption

/-- What others do to a transaction: nothing. -/
structure Spares (id : UUID) (u : Tid) (w w' : World) : Prop where
  pend : w'.pend u = w.pend u
  lock : w'.lock (.outbox id) = some u ↔ w.lock (.outbox id) = some u

theorem Idle.spared (h : Idle id u w) (hs : Spares id u w w') : Idle id u w' :=
  ⟨hs.pend.trans h.1, fun hl => h.2 (hs.lock.mp hl)⟩

theorem Owns.spared {ws : List Write} (h : Owns id u ws w) (hs : Spares id u w w') :
    Owns id u ws w' :=
  ⟨hs.pend.trans h.1, hs.lock.mpr h.2⟩

theorem Returned.spared {claimed : Bool} (h : Returned id u w claimed) (hs : Spares id u w w') :
    Returned id u w' claimed := by
  cases claimed with
  | false => exact Idle.spared h hs
  | true =>
    obtain ⟨now, h⟩ := h
    exact ⟨now, h.spared hs⟩

theorem Stage.spared {p : Service Bool} (h : Stage id u w p) (hs : Spares id u w w') :
    Stage id u w' p := by
  cases h with
  | call commits h => exact .call commits (h.spared hs)
  | select commits now h => exact .select commits now (h.spared hs)
  | update commits now h => exact .update commits now (h.spared hs)
  | flush commits h => exact .flush commits (h.spared hs)
  | commit h => exact .commit (h.spared hs)
  | rollback h => exact .rollback (h.spared hs)
  | done claimed h => exact .done claimed (h.spared hs)

theorem spares_drop (hu : u ≠ t) : Spares id u w (w.drop t) := by
  refine ⟨World.drop_pend_other (Ne.symm hu), fun h => ?_, World.drop_lock_other (Ne.symm hu)⟩
  simp only [World.drop_lock] at h
  split at h
  · cases h
  · exact h

theorem idle_drop : Idle id t (w.drop t) := by
  refine ⟨by simp, fun h => ?_⟩
  simp only [World.drop_lock] at h
  split at h
  · cases h
  · contradiction

theorem spares_hold (hu : u ≠ t) (hf : w.Free t (.outbox id)) :
    Spares id u w (w.hold t [.outbox id]) := by
  refine ⟨rfl, fun h => ?_, fun h => ?_⟩
  · simp only [World.hold_lock, List.mem_singleton, ↓reduceIte] at h
    exact absurd (Option.some.inj h).symm hu
  · rcases hf with hf | hf
    · cases hf.symm.trans h
    · exact absurd (Option.some.inj (h.symm.trans hf)) hu

/-- A statement that works does not fail. -/
theorem answer_works {op : Op} {ch : Choice} {x : Except Exc op.Res × World}
    (h : w.answer t lim ch op = some x) (e : Exc) : ch ≠ .fault e ∧ ch ≠ .lost e := by
  constructor
  all_goals
    rintro rfl
    cases op with
    | send url payload timeout =>
      simp only [World.answer] at h
      split at h <;> cases h
    | _ => cases h

theorem answered_inv {α : Type} {x : Option (Except Exc α × World)} {r : Except Exc α}
    (h : s.answered x = some (r, s')) : x = some (r, s'.world) ∧ s'.past = s'.world.db :: s.past := by
  obtain ⟨⟨r', w⟩, hx, he⟩ := Option.map_eq_some_iff.mp h
  cases he
  exact ⟨hx, rfl⟩

/-- The `SELECT` locks the event when it is pending, and leaves everything otherwise. -/
theorem exec_select {ch : Choice × Nat} {r : Except Exc (Option UUID)}
    (h : Versions.exec lim t (.selectPendingId id) ch s = some (r, s')) :
    s'.past = s'.world.db :: s.past ∧ ((r = .ok none ∧ s'.world = s.world) ∨
      ∃ o ∈ (s.world.view t).outbox.rows, o.id = id ∧ o.status = .pending ∧
        s.world.Free t (.outbox id) ∧ r = .ok (some id) ∧
        s'.world = (s.world.hold t [.outbox id]).note t (.claimed id)) := by
  obtain ⟨ch, n⟩ := ch
  obtain ⟨snapshot, hn, h⟩ := Option.bind_eq_some_iff.mp h
  split at h
  · obtain ⟨hx, hp⟩ := answered_inv h
    generalize s'.world = w at hx hp ⊢
    refine ⟨hp, ?_⟩
    cases World.answer_does hx with
    | fault => exact absurd rfl (answer_works hx _).1
    | claim ho hid hpend hf => exact .inr ⟨_, ho, hid, hpend, hf, rfl, rfl⟩
    | skipClaim => exact .inl ⟨rfl, rfl⟩
  · obtain ⟨hx, hp⟩ := answered_inv h
    generalize s'.world = w at hx hp ⊢
    obtain ⟨rfl, he⟩ := World.whenOk_eq hx
    cases he
    exact ⟨hp, .inl ⟨rfl, rfl⟩⟩

/-- The other statements are those of the tables. -/
theorem exec_other {op : Op} {ch : Choice} {n : Nat} {r : Except Exc op.Res}
    (ho : ∀ id, op ≠ .selectPendingId id) (h : Versions.exec lim t op (ch, n) s = some (r, s')) :
    World.Does lim t s.world op ch r s'.world ∧ (∀ e, ch ≠ .fault e ∧ ch ≠ .lost e) ∧
      s'.past = s'.world.db :: s.past := by
  obtain ⟨hx, hp⟩ : s.world.answer t lim ch op = some (r, s'.world) ∧
      s'.past = s'.world.db :: s.past := by
    cases op with
    | selectPendingId id => exact absurd rfl (ho id)
    | _ => exact answered_inv h
  exact ⟨World.answer_does hx, answer_works hx, hp⟩

/-- What one statement does to the transaction, to the others and to the tables. -/
structure Moves (id : UUID) (t : Tid) (op : Op) (s s' : Versions) (p : Service Bool) : Prop where
  stage : Stage id t s'.world p
  spares : ∀ u ≠ t, Spares id u s.world s'.world
  past : s'.past = s'.world.db :: s.past
  locked : s'.world.lock (.outbox id) = some t → s.world.db.pending id = true
  db : op ≠ .commit → s'.world.db = s.world.db
  commit : op = .commit → s'.world.db = s.world.view t ∧ s'.world.lock (.outbox id) ≠ some t

theorem pending_iff {db : Db} :
    db.pending id = true ↔ ∃ o ∈ db.outbox.rows, o.id = id ∧ o.status = .pending := by
  unfold Db.pending
  constructor
  · intro h
    obtain ⟨o, ho, hp⟩ := (Option.any_eq_true _ _).mp h
    obtain ⟨hm, hid⟩ := Table.find_some.mp ho
    exact ⟨o, hm, hid, by simpa using hp⟩
  · rintro ⟨o, hm, rfl, hp⟩
    simp [Table.find_mem hm, hp]

theorem view_idle (h : Idle id t w) : w.view t = w.db := World.view_nil h.1

theorem moves_same {op : Op} {p : Service Bool} (hw : s'.world = s.world)
    (hpast : s'.past = s'.world.db :: s.past) (hstage : Stage id t s'.world p)
    (hl : s.world.lock (.outbox id) = some t → s.world.db.pending id = true) (ho : op ≠ .commit) :
    Moves id t op s s' p where
  stage := hstage
  spares := fun u _ => by
    rw [hw]
    exact ⟨rfl, Iff.rfl⟩
  past := hpast
  locked := hw ▸ hl
  db := fun _ => by rw [hw]
  commit := fun hc => absurd hc ho

theorem moves_select {commits : Bool → Bool} {now : DateTime} {ch : Choice × Nat}
    {r : Except Exc (Option UUID)} (h : Idle id t s.world)
    (he : Versions.exec lim t (.selectPendingId id) ch s = some (r, s')) :
    Moves id t (.selectPendingId id) s s' (selected id commits now r) := by
  obtain ⟨hpast, ⟨rfl, hw⟩ | ⟨o, ho, hid, hp, hf, rfl, hw⟩⟩ := exec_select he
  · have hret : Returned id t s'.world false := hw ▸ h
    exact moves_same hw hpast (.finish hret commits) (fun hl => absurd hl h.2) (by simp)
  · have hpending : s.world.db.pending id = true :=
      pending_iff.mpr ⟨o, view_idle h ▸ ho, hid, hp⟩
    have howns : Owns id t [] s'.world := by
      rw [hw]
      exact ⟨h.1, by simp⟩
    refine ⟨.update commits now howns, fun u hu => ?_, hpast, fun _ => hpending,
      fun _ => by rw [hw]; rfl, fun hc => by cases hc⟩
    obtain ⟨hpend, hlock⟩ := spares_hold hu hf
    rw [hw]
    exact ⟨hpend, hlock⟩

theorem moves_update {commits : Bool → Bool} {now : DateTime} {ch : Choice × Nat}
    {r : Except Exc Unit} (h : Owns id t [] s.world)
    (hl : s.world.lock (.outbox id) = some t → s.world.db.pending id = true)
    (he : Versions.exec lim t (.updateOutbox id .inProcess (some now)) ch s = some (r, s')) :
    Moves id t (.updateOutbox id .inProcess (some now)) s s' (updated commits r) := by
  obtain ⟨ch, n⟩ := ch
  obtain ⟨hd, hch, hpast⟩ := exec_other (by simp) he
  have hpending := hl h.2
  obtain ⟨o, ho, hid, _⟩ := pending_iff.mp hpending
  generalize hw : s'.world = w at hd
  cases hd with
  | fault => exact absurd rfl (hch _).1
  | missEvent hn =>
    rw [World.view_nil h.1] at hn
    exact absurd hid (Table.find_none.mp hn o ho)
  | updateOutbox hrow hf =>
    have hlock : (s.world.write t [.updateOutbox id .inProcess (some now)]).lock (.outbox id) =
        some t := by simp [Write.resources]
    have hflush : Returned id t s'.world true := by
      rw [hw]
      exact ⟨now, by simp [h.1], hlock⟩
    refine ⟨.flush commits hflush, fun u hu => ?_, hpast, fun _ => hpending, fun _ => ?_,
      fun hc => by cases hc⟩
    · rw [hw]
      refine ⟨by simp [Function.update_of_ne hu], ?_⟩
      rw [hlock, h.2]
    · rw [hw]
      rfl

theorem Stage.exec {op : Op} {k : Except Exc op.Res → Service Bool} {ch : Choice × Nat}
    {r : Except Exc op.Res} (h : Stage id t s.world (.call op k))
    (hl : s.world.lock (.outbox id) = some t → s.world.db.pending id = true)
    (he : Versions.exec lim t op ch s = some (r, s')) : Moves id t op s s' (k r) := by
  obtain ⟨ch, n⟩ := ch
  cases h with
  | call commits h =>
    obtain ⟨hd, hch, hpast⟩ := exec_other (by simp) he
    generalize hw : s'.world = w at hd
    cases hd with
    | fault => exact absurd rfl (hch _).1
    | now => exact moves_same hw hpast (.select commits _ (hw ▸ h)) hl (by simp)
  | select commits now h => exact moves_select h he
  | update commits now h => exact moves_update h hl he
  | flush commits h =>
    obtain ⟨hd, hch, hpast⟩ := exec_other (by simp) he
    generalize hw : s'.world = w at hd
    cases hd with
    | fault => exact absurd rfl (hch _).1
    | flush =>
      have hret : Returned id t s'.world true := hw ▸ h
      exact moves_same hw hpast (.finish hret commits) hl (by simp)
  | @commit claimed h =>
    obtain ⟨hd, hch, hpast⟩ := exec_other (by simp) he
    generalize hw : s'.world = w at hd
    cases hd with
    | fault => exact absurd rfl (hch _).1
    | lostCommit => exact absurd rfl (hch _).2
    | commit =>
      have hidle : Idle id t s'.world := by
        rw [hw]
        exact @idle_drop id t s.world
      refine ⟨.done claimed hidle, fun u hu => ?_, hpast, fun hlock => absurd hlock hidle.2,
        fun hc => absurd rfl hc, fun _ => ⟨by rw [hw]; rfl, hidle.2⟩⟩
      obtain ⟨hpend, hlock⟩ := @spares_drop id t u s.world hu
      rw [hw]
      exact ⟨hpend, hlock⟩
  | @rollback claimed h =>
    obtain ⟨hd, hch, hpast⟩ := exec_other (by simp) he
    generalize hw : s'.world = w at hd
    cases hd with
    | fault => exact absurd rfl (hch _).1
    | rollback =>
      have hidle : Idle id t s'.world := by
        rw [hw]
        exact idle_drop
      refine ⟨.done claimed hidle, fun u hu => ?_, hpast, fun hlock => absurd hlock hidle.2,
        fun _ => by rw [hw]; rfl, fun hc => by cases hc⟩
      rw [hw]
      exact spares_drop hu

/-- What holds after a run of claims on an outbox. -/
structure Claiming (db : Db) (id : UUID) (ds : List (Config Versions Op Op.Res Exc Bool ×
    Move Op (Choice × Nat) (Bool → Bool) Empty)) (c : Config Versions Op Op.Res Exc Bool) :
    Prop where
  stage : ∀ t p, c.threads t = some p → Stage id t c.shared.world p
  idle : ∀ t, c.threads t = none → Idle id t c.shared.world
  fresh : ∀ t, c.next ≤ t → c.threads t = none
  past : c.shared.past[0]? = some c.shared.world.db
  locked : ∀ t, c.shared.world.lock (.outbox id) = some t → c.shared.world.db.pending id = true
  before : (∀ t, ¬ Committed ds t true) → c.shared.world.db = db
  after : ∀ t, Committed ds t true → c.shared.world.db.pending id = false
  once : ∀ t u, Committed ds t true → Committed ds u true → t = u

section Run

variable {db : Db} {m : Move Op (Choice × Nat) (Bool → Bool) Empty}

theorem Committed.of_cons {d : Config Versions Op Op.Res Exc Bool ×
    Move Op (Choice × Nat) (Bool → Bool) Empty} {claimed : Bool}
    (h : Committed (d :: ds) t claimed) :
    Committed ds t claimed ∨ Open d.1 t claimed ∧ ∃ ch, d.2 = .run t .commit ch := by
  obtain ⟨d', hd, h⟩ := h
  rcases List.mem_cons.mp hd with rfl | hd
  · exact .inr h
  · exact .inl ⟨d', hd, h⟩

/-- The transaction that got the event owns it while it is open. -/
theorem Claiming.owns (h : Claiming db id ds c) (ho : Open c t true) :
    ∃ now, Owns id t [.updateOutbox id .inProcess (some now)] c.shared.world := by
  obtain ⟨commits, ht⟩ := ho
  exact (h.stage t _ ht).returned

theorem Claiming.initial : Claiming db id [] (.initial (.of db)) where
  stage := fun t p h => by cases h
  idle := fun t _ => ⟨rfl, by simp [Config.initial, Versions.of]⟩
  fresh := fun t _ => rfl
  past := rfl
  locked := fun t h => by cases h
  before := fun _ => rfl
  after := fun t ⟨d, hd, _⟩ => by cases hd
  once := fun t u ⟨d, hd, _⟩ => by cases hd

/-- A step that commits no claim. -/
theorem Claiming.quiet (h : Claiming db id ds c)
    (hdb : c'.shared.world.db = c.shared.world.db)
    (hc : ∀ t, Committed ((c, m) :: ds) t true → Committed ds t true)
    (hstage : ∀ t p, c'.threads t = some p → Stage id t c'.shared.world p)
    (hidle : ∀ t, c'.threads t = none → Idle id t c'.shared.world)
    (hfresh : ∀ t, c'.next ≤ t → c'.threads t = none)
    (hpast : c'.shared.past[0]? = some c'.shared.world.db)
    (hl : ∀ t, c'.shared.world.lock (.outbox id) = some t → c.shared.world.db.pending id = true) :
    Claiming db id ((c, m) :: ds) c' where
  stage := hstage
  idle := hidle
  fresh := hfresh
  past := hpast
  locked := fun t ht => hdb ▸ hl t ht
  before := fun hn => hdb.trans (h.before (fun t ht => by
    obtain ⟨d, hd, ht⟩ := ht
    exact hn t ⟨d, List.mem_cons_of_mem _ hd, ht⟩))
  after := fun t ht => hdb ▸ h.after t (hc t ht)
  once := fun t u ht hu => h.once t u (hc t ht) (hc u hu)

/-- The threads after a step of one of them. -/
theorem Claiming.threads_put {q : Option (Service Bool)} (h : Claiming db id ds c)
    (s' : Versions) (hq : ∀ p, q = some p → Stage id t s'.world p) (hn : q = none → Idle id t s'.world)
    (hs : ∀ u ≠ t, Spares id u c.shared.world s'.world) :
    (∀ u p, (c.put t q s').threads u = some p → Stage id u s'.world p) ∧
      (∀ u, (c.put t q s').threads u = none → Idle id u s'.world) ∧
      (c.threads t ≠ none → ∀ u, c.next ≤ u → (c.put t q s').threads u = none) := by
  refine ⟨fun u p hp => ?_, fun u hu => ?_, fun ht u hu => ?_⟩
  · by_cases hut : u = t
    · subst hut
      exact hq p (by simpa [Config.put] using hp)
    · exact (h.stage u p ((Function.update_of_ne hut _ _).symm.trans hp)).spared (hs u hut)
  · by_cases hut : u = t
    · subst hut
      exact hn (by simpa [Config.put] using hu)
    · exact (h.idle u ((Function.update_of_ne hut _ _).symm.trans hu)).spared (hs u hut)
  · by_cases hut : u = t
    · subst hut
      exact absurd (h.fresh u hu) ht
    · exact (Function.update_of_ne hut _ _).trans (h.fresh u hu)

/-- A transaction that commits has changed nothing, or it owns the event. -/
theorem Stage.commits {k : Except Exc Unit → Service Bool}
    (h : Stage id t w (.call .commit k)) :
    (k = ended false ∧ w.view t = w.db) ∨ (k = ended true ∧ w.lock (.outbox id) = some t ∧
      (w.view t).pending id = false) := by
  cases h with
  | @commit claimed h =>
    cases claimed with
    | false => exact .inl ⟨rfl, view_idle h⟩
    | true =>
      obtain ⟨now, hpend, hlock⟩ := h
      refine .inr ⟨rfl, hlock, ?_⟩
      rw [World.view, hpend]
      simp [Db.applyAll, Db.apply, Db.pending, Table.find_update, Db.markRow, Option.any_map]

theorem Claiming.run {op : Op} {k : Except Exc op.Res → Service Bool} {ch : Choice × Nat}
    {r : Except Exc op.Res} (h : Claiming db id ds c) (ht : c.threads t = some (.call op k))
    (he : Versions.exec lim t op ch c.shared = some (r, s')) :
    Claiming db id ((c, .run t op ch) :: ds) (c.put t (some (k r)) s') := by
  have hstage := h.stage t _ ht
  have hm := hstage.exec (h.locked t) he
  obtain ⟨hst, hidle, hfresh⟩ := h.threads_put s' (fun p hp => Option.some.inj hp ▸ hm.stage)
    (fun hn => by cases hn) hm.spares
  have hfresh := hfresh (by simp [ht])
  have hpast : s'.past[0]? = some s'.world.db := by simp [hm.past]
  have hlock : ∀ u, s'.world.lock (.outbox id) = some u →
      c.shared.world.db.pending id = true := by
    intro u hu
    by_cases hut : u = t
    · subst hut
      exact hm.locked hu
    · exact h.locked u ((hm.spares u hut).lock.mp hu)
  by_cases hc : op = .commit
  · subst hc
    obtain ⟨hdb, hfree⟩ := hm.commit rfl
    rcases hstage.commits with ⟨rfl, hv⟩ | ⟨rfl, hown, hpend⟩
    · apply h.quiet (hdb.trans hv) ?_ hst hidle hfresh hpast hlock
      intro u hu
      rcases hu.of_cons with hu | ⟨⟨commits, ho⟩, _, hmove⟩
      · exact hu
      · cases hmove
        have hp := Option.some.inj (ht.symm.trans ho)
        rw [finish_eq] at hp
        split at hp
        · cases ended_inj (eq_of_heq (Prog.call.inj hp).2)
        · cases hp
    · have hnone : ∀ u, ¬ Committed ds u true := by
        intro u hu
        have hp := h.after u hu
        rw [h.locked t hown] at hp
        cases hp
      have hself : Committed ((c, .run t .commit ch) :: ds) t true :=
        ⟨_, List.mem_cons_self, ⟨fun _ => true, ht⟩, ch, rfl⟩
      have hall : ∀ u, Committed ((c, .run t .commit ch) :: ds) u true → u = t := by
        intro u hu
        rcases hu.of_cons with hu | ⟨_, _, hmove⟩
        · exact absurd hu (hnone u)
        · cases hmove
          rfl
      refine ⟨hst, hidle, hfresh, hpast, fun u hu => ?_, fun hn => absurd hself (hn t),
        fun _ _ => hdb ▸ hpend, fun u v hu hv => (hall u hu).trans (hall v hv).symm⟩
      by_cases hut : u = t
      · subst hut
        exact absurd hu hfree
      · have hu' := (hm.spares u hut).lock.mp hu
        rw [hown] at hu'
        exact absurd (Option.some.inj hu').symm hut
  · apply h.quiet (hm.db hc) ?_ hst hidle hfresh hpast hlock
    intro u hu
    rcases hu.of_cons with hu | ⟨_, _, hmove⟩
    · exact hu
    · cases hmove
      exact absurd rfl hc

theorem Claiming.step (h : Claiming db id ds c) (hs : (claims lim id).Step c m c') :
    Claiming db id ((c, m) :: ds) c' := by
  have hold : (∀ u ch, m ≠ .run u .commit ch) →
      ∀ u, Committed ((c, m) :: ds) u true → Committed ds u true := by
    intro hm u hu
    rcases hu.of_cons with hu | ⟨_, ch, hmove⟩
    · exact hu
    · exact absurd hmove (hm u ch)
  cases hs with
  | run ht he => exact h.run ht he
  | @exit t p r ht hr =>
    have hidle : Idle id t c.shared.world := by
      cases h.stage t p ht with
      | done claimed h => exact h
      | _ => cases hr
    obtain ⟨hst, hi, hfresh⟩ := h.threads_put (q := none) c.shared (fun p hp => by cases hp)
      (fun _ => hidle) (fun u _ => ⟨rfl, Iff.rfl⟩)
    exact h.quiet rfl (hold (by simp)) hst hi (hfresh (by simp [ht])) h.past h.locked
  | @start commits p s he =>
    cases he
    have hnext := h.fresh c.next (Nat.le_refl _)
    have hstart := Stage.start commits (h.idle c.next hnext)
    obtain ⟨hst, hi, _⟩ := h.threads_put (q := some (claimTransaction id commits)) c.shared
      (fun p hp => Option.some.inj hp ▸ hstart) (fun hn => by cases hn)
      (fun u _ => ⟨rfl, Iff.rfl⟩)
    refine h.quiet rfl (hold (by simp)) hst hi (fun u hu => ?_) h.past h.locked
    have hlt : c.next + 1 ≤ u := hu
    have hne : u ≠ c.next := Nat.ne_of_gt hlt
    exact (Function.update_of_ne hne _ _).trans (h.fresh u (Nat.le_of_succ_le hlt))
  | @kill t p ht =>
    obtain ⟨hst, hi, hfresh⟩ := h.threads_put (q := none)
      { c.shared with world := c.shared.world.drop t } (fun p hp => by cases hp)
      (fun _ => idle_drop) (fun u hu => spares_drop hu)
    refine h.quiet rfl (hold (by simp)) hst hi (hfresh (by simp [ht])) h.past (fun u hu => ?_)
    by_cases hut : u = t
    · subst hut
      exact absurd hu idle_drop.2
    · exact h.locked u ((spares_drop hut).lock.mp hu)
  | @env e _ _ => cases e

/-- One more transaction can start at any time. -/
theorem Claiming.starts (h : Claiming db id ds c) (commits : Bool → Bool) :
    ∃ c', (claims lim id).Step c (.start c.next commits) c' ∧ Calling c' c.next ∧
      ∀ t claimed, Open c t claimed → t ≠ c.next ∧ Open c' t claimed := by
  have hs : (claims lim id).start c.next commits c.shared =
      some (claimTransaction id commits, c.shared) := rfl
  refine ⟨_, .start hs, calling_start commits (Function.update_self _ _ _), ?_⟩
  rintro t claimed ⟨commits', ht⟩
  have hne : t ≠ c.next := by
    rintro rfl
    cases (h.fresh c.next (Nat.le_refl _)).symm.trans ht
  exact ⟨hne, commits', (Function.update_of_ne hne _ _).trans ht⟩

theorem claiming_path (h : (claims lim id).Path (.initial (.of db)) ds c) :
    Claiming db id ds c := by
  induction h with
  | init => exact .initial
  | step _ hs ih => exact ih.step hs

end Run

section Return

variable {commits : Bool → Bool} {claimed : Bool}

theorem Returns.step {m : Move Op (Choice × Nat) (Bool → Bool) Empty}
    (hs : (claims lim id).Step c m c') (hm : m.thread? = some t) (h : Returns lim id c' t claimed) :
    Returns lim id c t claimed := by
  obtain ⟨c'', hr, ho⟩ := h
  exact ⟨c'', (Sys.Reach.init.step hm hs).trans hr, ho⟩

theorem Returns.run {op : Op} {k : Except Exc op.Res → Service Bool} {ch : Choice × Nat}
    {r : Except Exc op.Res} (ht : c.threads t = some (.call op k))
    (he : Versions.exec lim t op ch c.shared = some (r, s'))
    (h : Returns lim id (c.put t (some (k r)) s') t claimed) : Returns lim id c t claimed :=
  h.step (.run ht he) rfl

theorem Returns.of_open (h : Open c t claimed) : Returns lim id c t claimed := ⟨c, .init, h⟩

theorem returns_flush (ht : c.threads t = some (.call .flush (flushed commits))) :
    Returns lim id c t true := by
  have he : Versions.exec lim t .flush (.ok, 0) c.shared =
      c.shared.answered (some (.ok (), c.shared.world)) := rfl
  exact .run ht he (.of_open ⟨commits, Function.update_self _ _ _⟩)

theorem returns_update {now : DateTime}
    (ht : c.threads t = some (.call (.updateOutbox id .inProcess (some now)) (updated commits)))
    (h : Owns id t [] c.shared.world) (hp : c.shared.world.db.pending id = true) :
    Returns lim id c t true := by
  obtain ⟨o, ho, hid, _⟩ := pending_iff.mp hp
  have hrow : (c.shared.world.view t).outbox.find? id = some o := by
    rw [World.view_nil h.1]
    exact Table.find_some.mpr ⟨ho, hid⟩
  have hf : c.shared.world.Free t (.outbox id) := .inr h.2
  have he : Versions.exec lim t (.updateOutbox id .inProcess (some now)) (.ok, 0) c.shared =
      c.shared.answered (some (.ok (), c.shared.world.write t
        [.updateOutbox id .inProcess (some now)])) := by
    simp [Versions.exec, World.answer, World.whenOk, World.updateOutbox, hrow, hf]
  exact .run ht he (returns_flush (Function.update_self _ _ _))

theorem returns_select {now : DateTime}
    (ht : c.threads t = some (.call (.selectPendingId id) (selected id commits now)))
    (h : Idle id t c.shared.world) (hpast : c.shared.past[0]? = some c.shared.world.db)
    (hp : c.shared.world.db.pending id = true) (hf : c.shared.world.Free t (.outbox id)) :
    Returns lim id c t true := by
  obtain ⟨o, ho, hid, hpend⟩ := pending_iff.mp hp
  have hrow : (c.shared.world.view t).outbox.find? id = some o := by
    rw [view_idle h]
    exact Table.find_some.mpr ⟨ho, hid⟩
  have he : Versions.exec lim t (.selectPendingId id) (.ok, 0) c.shared =
      c.shared.answered (some (.ok (some id),
        (c.shared.world.hold t [.outbox id]).note t (.claimed id))) := by
    simp [Versions.exec, hpast, hp, World.answer, World.whenOk, World.answered,
      World.selectPendingId, World.selectOutbox, hrow, hpend, hf]
  refine .run ht he (returns_update (Function.update_self _ _ _) ⟨h.1, ?_⟩ hp)
  simp [Config.put]

/-- A call that finds the event taken does not wait for it. -/
theorem misses_select {now : DateTime}
    (ht : c.threads t = some (.call (.selectPendingId id) (selected id commits now)))
    (h : Idle id t c.shared.world) (hpast : c.shared.past[0]? = some c.shared.world.db)
    (hf : c.shared.world.db.pending id = true → ¬ c.shared.world.Free t (.outbox id)) :
    Returns lim id c t false := by
  have he : Versions.exec lim t (.selectPendingId id) (.ok, 0) c.shared =
      c.shared.answered (some (.ok none, c.shared.world)) := by
    cases hp : c.shared.world.db.pending id with
    | false => simp [Versions.exec, hpast, hp, World.whenOk]
    | true =>
      obtain ⟨o, ho, hid, hpend⟩ := pending_iff.mp hp
      have hrow : (c.shared.world.view t).outbox.find? id = some o := by
        rw [view_idle h]
        exact Table.find_some.mpr ⟨ho, hid⟩
      simp [Versions.exec, hpast, World.answer, World.whenOk, World.answered,
        World.selectPendingId, World.selectOutbox, hrow, hf hp]
  exact .run ht he (.of_open ⟨commits, Function.update_self _ _ _⟩)

/-- A call starts with the time, which nothing keeps it from. -/
theorem returns_call (ht : c.threads t = some (.call .now (timed id commits)))
    (h : ∀ now c', c'.shared.world = c.shared.world →
      c'.shared.past[0]? = some c'.shared.world.db →
      c'.threads t = some (.call (.selectPendingId id) (selected id commits now)) →
      Returns lim id c' t claimed) : Returns lim id c t claimed := by
  have now : DateTime := ⟨2026, 1, 2, 3, 4, 5, 0, by decide⟩
  have he : Versions.exec lim t .now (.time now, 0) c.shared =
      c.shared.answered (some (.ok now, c.shared.world)) := rfl
  exact .run ht he (h now _ rfl rfl (Function.update_self _ _ _))

variable {db : Db}

/-- Where another transaction has got the event, a call returns that it is taken. -/
theorem Claiming.misses (h : Claiming db id ds c) (ht : Calling c t)
    (hf : c.shared.world.db.pending id = true → ¬ c.shared.world.Free t (.outbox id)) :
    Returns lim id c t false := by
  obtain ⟨p, hp, hres, hne⟩ := ht
  have hstage := h.stage t p hp
  have hnot : ∀ ws, ¬ Owns id t ws c.shared.world :=
    fun ws ho => hf (h.locked t ho.2) (.inr ho.2)
  cases hstage with
  | call commits hi =>
    refine returns_call hp (fun now c' hw hpast ht' => misses_select ht' (hw ▸ hi) hpast ?_)
    rw [hw]
    exact hf
  | select commits now hi => exact misses_select hp hi h.past hf
  | update commits now ho => exact absurd ho (hnot _)
  | flush commits ho =>
    obtain ⟨_, ho⟩ := ho
    exact absurd ho (hnot _)
  | @commit b _ => exact absurd rfl (hne (fun _ => true) b)
  | @rollback b _ => exact absurd rfl (hne (fun _ => false) b)
  | done b _ => cases hres

theorem Claiming.taken (h : Claiming db id ds c) (ht : Open c t true ∨ Committed ds t true)
    (hu : u ≠ t) :
    c.shared.world.db.pending id = true → ¬ c.shared.world.Free u (.outbox id) := by
  intro hp hf
  rcases ht with ht | ht
  · obtain ⟨_, ho⟩ := h.owns ht
    rcases hf with hf | hf
    · cases hf.symm.trans ho.2
    · exact hu (Option.some.inj (hf.symm.trans ho.2))
  · cases (h.after t ht).symm.trans hp

/-- Where no transaction has the event, one of them or another one gets it. -/
theorem Claiming.claimable (h : Claiming db id ds c) (hp : c.shared.world.db.pending id = true)
    (ho : ∀ t, ¬ Open c t true) : ∃ t, Returns lim id c t true := by
  cases hl : c.shared.world.lock (.outbox id) with
  | none =>
    have hs : (claims lim id).start c.next (fun _ => true) c.shared =
        some (claimTransaction id (fun _ => true), c.shared) := rfl
    refine ⟨c.next, .step (.start hs) rfl ?_⟩
    have hi := h.idle c.next (h.fresh c.next (Nat.le_refl _))
    have ht := (Function.update_self c.next (some (claimTransaction id (fun _ => true)))
      c.threads).trans (congrArg some (claim_transaction_eq _))
    exact returns_call ht (fun now c' hw hpast ht =>
      returns_select ht (hw ▸ hi) hpast (hw ▸ hp) (.inl (hw ▸ hl)))
  | some t =>
    refine ⟨t, ?_⟩
    have hno : ¬ Idle id t c.shared.world := fun hi => hi.2 hl
    cases ht : c.threads t with
    | none => exact absurd (h.idle t ht) hno
    | some p =>
      cases h.stage t p ht with
      | call _ hi | select _ _ hi | done _ hi => exact absurd hi hno
      | update commits now ho => exact returns_update ht ho hp
      | flush commits _ => exact returns_flush ht
      | @commit b hr =>
        cases b with
        | true => exact absurd ⟨fun _ => true, ht⟩ (ho t)
        | false => exact absurd hr hno
      | @rollback b hr =>
        cases b with
        | true => exact absurd ⟨fun _ => false, ht⟩ (ho t)
        | false => exact absurd hr hno

end Return

end Claims

/-- An outbox with one event, which is pending. -/
def samplePending : Db where
  payments := .empty
  outbox := Table.empty.insert {
    id := uid 11
    queue := ""
    payload := .null
    occurredAt := sampleTime
    status := .pending
    handledAt := none }

section

open Claims

variable {lim : Limits} {id : UUID} {db : Db} {c : Config Versions Op Op.Res Exc Bool}
  {ds : List (Config Versions Op Op.Res Exc Bool × Move Op (Choice × Nat) (Bool → Bool) Empty)}

/-- In every run of transactions that claim an event, at most one of those that commit has got it;
while it is open, and after it has committed, the calls of the others return that they have not,
and none of them waits; and once all that got it have rolled back, it is pending and one of the
transactions can get it. -/
theorem claim_exclusive (h : (claims lim id).Path (.initial (.of db)) ds c) :
    (∀ t u, Committed ds t true → Committed ds u true → t = u) ∧
      (∀ t, Open c t true ∨ Committed ds t true → ∀ u ≠ t,
        ¬ Open c u true ∧ (Calling c u → Returns lim id c u false)) ∧
      ((∃ t, Got ds c t true) →
        (∀ t, Got ds c t true → ¬ Open c t true ∧ ¬ Committed ds t true) →
        c.shared.world.db.pending id = true ∧ ∃ t, Returns lim id c t true) := by
  have hc := claiming_path h
  refine ⟨hc.once, ?_, ?_⟩
  · intro t ht u hu
    refine ⟨fun ho => ?_, fun hcall => hc.misses hcall (hc.taken ht hu)⟩
    obtain ⟨now, howns⟩ := hc.owns ho
    exact hc.taken ht hu (hc.locked u howns.2) (.inr howns.2)
  · intro hgot hback
    have hnone : ∀ t, ¬ Committed ds t true := by
      intro t ht
      obtain ⟨d, hd, ho, hmove⟩ := ht
      exact (hback t (.inr ⟨d, hd, ho⟩)).2 ⟨d, hd, ho, hmove⟩
    have hopen : ∀ t, ¬ Open c t true := fun t ho => (hback t (.inl ho)).1 ho
    obtain ⟨t, ho | ⟨d, hd, ho⟩⟩ := hgot
    · exact absurd ho (hopen t)
    · obtain ⟨ds₁, ds₂, _, rfl, hpath, _, _⟩ := h.split hd
      have hd := claiming_path hpath
      -- nothing was committed before the call returned either
      have hbefore : d.1.shared.world.db = db := by
        apply hd.before
        intro u ⟨d', hd', hu⟩
        exact hnone u ⟨d', by simp [hd'], hu⟩
      obtain ⟨now, howns⟩ := hd.owns ho
      have hp : c.shared.world.db.pending id = true := by
        rw [hc.before hnone, ← hbefore]
        exact hd.locked t howns.2
      exact ⟨hp, hc.claimable hp hopen⟩

end

open Claims in
/-- While a transaction that got the event is open, another one is told that it is taken. -/
theorem claim_exclusive_second : ∃ ds c t u,
    (claims {} (uid 11)).Path (.initial (.of samplePending)) ds c ∧ Open c t true ∧ Calling c u ∧
      ¬ Open c u true ∧ Returns {} (uid 11) c u false := by
  have hinit := @Claiming.initial (uid 11) samplePending
  obtain ⟨t, c, hreach, commits, ht⟩ := @Claiming.claimable {} _ _ [] _ hinit (by decide)
    (fun t ⟨_, ht⟩ => by cases ht)
  obtain ⟨ds, hpath, _⟩ := hreach.path
  obtain ⟨c', hstart, hcalling, hkept⟩ := (claiming_path hpath).starts (fun _ => true)
  obtain ⟨hne, hopen⟩ := hkept t true ⟨commits, ht⟩
  obtain ⟨hnot, hreturns⟩ := (claim_exclusive (hpath.step hstart)).2.1 t (.inl hopen) c.next
    (Ne.symm hne)
  exact ⟨_, c', t, c.next, hpath.step hstart, hopen, hcalling, hnot, hreturns hcalling⟩

end Payments
