import Payments.Proofs.Atomicity
import Payments.Proofs.Requests
import Payments.Proofs.Scenarios

namespace Payments

open Lib

/-- The steps of a run in which nothing fails and nothing starts but queries for a payment. -/
def OnlyReads (id : UUID) (m : Move Op Choice Req Env) : Prop :=
  works m = true ∧ match m with
    | .start _ req => req = .get id
    | .env _ => False
    | _ => True

namespace World

/-- What a thread notices of queries for a payment: they lock the row of it while it is free. -/
structure Reading (id : UUID) (t : Tid) (w w' : World) : Prop where
  db : w'.db = w.db
  pend : w'.pend t = w.pend t
  free : ∀ x, x ≠ .payment id → w.Free t x → w'.Free t x
  held : ∀ x, w.lock x = some t → w'.lock x = some t
  told : ∀ o, (t, o) ∈ w'.trace ↔ (t, o) ∈ w.trace

variable {id : UUID} {t u : Tid} {w w' w'' : World} {lim : Limits}

theorem Reading.refl (w : World) : Reading id t w w :=
  ⟨rfl, rfl, fun _ _ h => h, fun _ h => h, fun _ => .rfl⟩

theorem Reading.trans (h : Reading id t w w') (h' : Reading id t w' w'') : Reading id t w w'' where
  db := h'.db.trans h.db
  pend := h'.pend.trans h.pend
  free := fun x hx hf => h'.free x hx (h.free x hx hf)
  held := fun x hl => h'.held x (h.held x hl)
  told := fun o => (h'.told o).trans (h.told o)

theorem Reading.dropped (hu : u ≠ t) : Reading id t w (w.drop u) where
  db := rfl
  pend := by simp [Function.update_of_ne (Ne.symm hu)]
  free := fun x _ hf => by
    simp only [Free, drop_lock]
    split
    · exact .inl rfl
    · exact hf
  held := fun _ hl => drop_lock_other hu hl
  told := fun _ => .rfl

theorem Reading.noted (hu : u ≠ t) {o : Obs} : Reading id t w (w.note u o) where
  db := rfl
  pend := rfl
  free := fun _ _ h => h
  held := fun _ h => h
  told := fun o => by simp [Ne.symm hu]

theorem Reading.locked (hf : w.Free u (.payment id)) (hu : u ≠ t) :
    Reading id t w (w.hold u [.payment id]) where
  db := rfl
  pend := rfl
  free := fun x hx h => by simpa [Free, hx] using h
  held := fun x hl => by
    by_cases hx : x = .payment id
    · subst hx
      rcases hf with hf | hf
      · cases hl.symm.trans hf
      · exact absurd (Option.some.inj (hf.symm.trans hl)) hu
    · simpa [hx] using hl
  told := fun _ => .rfl

/-- An effect of a query, as the other threads notice it. -/
theorem Reading.of_does {op : Op} {ch : Choice} {r : Except Exc op.Res} (hop : op.Gets id)
    (hw : works (.run u op ch) = true) (hu : u ≠ t) (h : Does lim u w op ch r w') :
    Reading id t w w' := by
  cases h with
  | fault | lostCommit | lostPublish => cases hw
  | lockPayment _ hid hf =>
    cases hop
    rw [hid] at hf ⊢
    exact .locked hf hu
  | skipPayment => exact .refl w
  | rollback | close => exact .dropped hu
  | _ => exact hop.elim

end World

section

variable [Externals] {lim : Limits} {t : Tid} {id : UUID} {c c' : Config World Op Op.Res Exc Reply}
  {m : Move Op Choice Req Env}

/-- The other threads are queries for a payment. -/
def Queriers (id : UUID) (t : Tid) (c : Config World Op Op.Res Exc Reply) : Prop :=
  ∀ u ≠ t, ∀ p, c.threads u = some p → p.Only (Op.Gets id)

theorem reads_step (hq : Queriers id t c) (ha : OnlyReads id m) (hs : (service lim).Step c m c') :
    Queriers id t c' ∧ (m.thread? ≠ some t → World.Reading id t c.shared c'.shared) := by
  have hput : ∀ (n : Tid) (p : Option (Service Reply)) (w : World),
      (n ≠ t → ∀ q, p = some q → q.Only (Op.Gets id)) → Queriers id t (c.put n p w) := by
    intro n p w hp u hu q he
    by_cases hn : u = n
    · subst hn
      simp only [Config.put, Function.update_self] at he
      exact hp hu q he
    · simp only [Config.put, Function.update_of_ne hn] at he
      exact hq u hu q he
  obtain ⟨hw, ha⟩ := ha
  cases hs with
  | @run u op k ch r w hu he =>
    refine ⟨hput _ _ _ (fun hne q hp => ?_), fun hm => ?_⟩
    · cases hp
      exact (hq _ hne _ hu).2 r
    · have hne : u ≠ t := fun he => hm (congrArg some he)
      exact .of_does (hq _ hne _ hu).1 hw hne (World.exec_does he)
  | @exit u p r hu hr =>
    refine ⟨hput _ _ _ (fun _ q hp => by cases hp), fun hm => ?_⟩
    have hne : u ≠ t := fun he => hm (congrArg some he)
    exact (World.Reading.dropped hne).trans (.noted hne)
  | @start req p w he =>
    cases ha
    cases he
    refine ⟨hput _ _ c.shared (fun _ q hp => ?_), fun _ => .refl _⟩
    cases hp
    exact Prog.Only.bind (only_get_payment id) (fun _ => trivial)
  | kill => cases hw
  | env => exact ha.elim

theorem queriers_reach (hq : Queriers id t c)
    (h : (service lim).Reach (fun _ => OnlyReads id) c c') : Queriers id t c' := by
  induction h with
  | init => exact hq
  | step _ ha hs ih => exact (reads_step ih ha hs).1

/-- What queries alone change for the threads that start after them. -/
theorem reads_before (h : Reachable lim c) (hq : ∀ u, c.threads u = none)
    (h' : (service lim).Reach (fun _ => OnlyReads id) c c') :
    (∀ u p, c'.threads u = some p → p.Only (Op.Gets id)) ∧
      ∀ t, c'.next ≤ t → World.Reading id t c.shared c'.shared := by
  induction h' with
  | init =>
    refine ⟨fun u p hp => ?_, fun t _ => .refl _⟩
    rw [hq u] at hp
    cases hp
  | @step d d' m hr ha hs ih =>
    obtain ⟨honly, hread⟩ := ih
    have hd : Reachable lim d := h.trans (hr.mono (fun _ _ _ => trivial))
    have hrunning := (reachable_holds hd).running
    have hnext : d.next ≤ d'.next := by
      cases hs <;> first | exact Nat.le_refl _ | exact Nat.le_succ _
    have hlt : ∀ u, m.thread? = some u → u < d'.next := by
      intro u hu
      cases hs with
      | run ht _ | exit ht _ | kill ht =>
        cases hu
        exact Nat.lt_of_lt_of_le (hrunning _ _ ht).1 hnext
      | start _ =>
        cases hu
        exact Nat.lt_succ_self _
      | env _ => cases hu
    refine ⟨fun u p hp => ?_, fun t ht => ?_⟩
    · have hne : u ≠ d'.next := by
        have hd' : Reachable lim d' := hd.step trivial hs
        exact Nat.ne_of_lt ((reachable_holds hd').running u p hp).1
      have hqueriers : Queriers id d'.next d := fun u _ p hp => honly u p hp
      exact (reads_step hqueriers ha hs).1 u hne p hp
    · have hm : m.thread? ≠ some t := fun hm => absurd (hlt t hm) (Nat.not_lt.mpr ht)
      have hqueriers : Queriers id t d := fun u _ p hp => honly u p hp
      exact (hread t (Nat.le_trans hnext ht)).trans ((reads_step hqueriers ha hs).2 hm)

end

/-- A thread beside queries for a payment: the tables, the changes of its session, and that it has
sent nothing to the dead letter exchange. -/
structure Beside (id : UUID) (t : Tid) (db : Db) (ws : List Write) (w : World) : Prop where
  db : w.db = db
  pend : w.pend t = ws
  free : ∀ x, x ≠ .payment id → w.Free t x
  quiet : ∀ k m, (t, .accepted paymentsDlx k m) ∉ w.trace

/-- The thread has locked the row of the payment. -/
def Holding (id : UUID) (t : Tid) (db : Db) (ws : List Write) (w : World) : Prop :=
  Beside id t db ws w ∧ w.lock (.payment id) = some t

section

variable {id : UUID} {t : Tid} {db : Db} {ws : List Write} {w w' : World} {lim : Limits}

theorem Beside.stable (h : Beside id t db ws w) (hr : World.Reading id t w w') :
    Beside id t db ws w' where
  db := hr.db.trans h.db
  pend := hr.pend.trans h.pend
  free := fun x hx => hr.free x hx (h.free x hx)
  quiet := fun k m hm => h.quiet k m ((hr.told _).mp hm)

theorem Holding.stable (h : Holding id t db ws w) (hr : World.Reading id t w w') :
    Holding id t db ws w' :=
  ⟨h.1.stable hr, hr.held _ h.2⟩

theorem Beside.view (h : Beside id t db ws w) : w.view t = db.applyAll ws := by
  rw [World.view, h.pend, h.db]

/-- A step of the thread that changes neither the tables nor its changes. -/
theorem Beside.kept (h : Beside id t db ws w) (hdb : w'.db = w.db) (hp : w'.pend t = w.pend t)
    (hf : ∀ x, w.Free t x → w'.Free t x)
    (ht : w'.trace = w.trace ∨ ∃ o, (∀ k m, o ≠ .accepted paymentsDlx k m) ∧
      w'.trace = (t, o) :: w.trace) : Beside id t db ws w' where
  db := hdb.trans h.db
  pend := hp.trans h.pend
  free := fun x hx => hf x (h.free x hx)
  quiet := fun k m hm => by
    rcases ht with ht | ⟨o, ho, ht⟩ <;> rw [ht] at hm
    · exact h.quiet k m hm
    · rcases List.mem_cons.mp hm with he | hm
      · exact ho k m (Prod.mk.inj he).2.symm
      · exact h.quiet k m hm

theorem Beside.hold (h : Beside id t db ws w) (rs : List Resource) :
    Beside id t db ws (w.hold t rs) :=
  h.kept rfl rfl (fun _ => World.free_hold) (.inl rfl)

theorem Beside.write (h : Beside id t db ws w) (xs : List Write) :
    Beside id t db (ws ++ xs) (w.write t xs) :=
  { h.hold (xs.flatMap Write.resources) with pend := by simp [h.pend] }

theorem Beside.drop (h : Beside id t db ws w) : Beside id t db [] (w.drop t) where
  db := h.db
  pend := by simp
  free := fun x hx => World.free_drop (h.free x hx)
  quiet := h.quiet

theorem Beside.commit (h : Beside id t db ws w) : Beside id t (db.applyAll ws) [] (w.commit t) where
  db := h.view
  pend := by simp
  free := fun x hx => World.free_drop (h.free x hx)
  quiet := fun k m hm => by
    rcases List.mem_cons.mp hm with he | hm
    · cases he
    · exact h.quiet k m hm

/-- A quiet effect leaves everything as it is and answers. -/
theorem Beside.quietly {op : Op} {ch : Choice} {r : Except Exc op.Res} (h : Beside id t db ws w)
    (ho : op.Quiet) (hw : works (.run t op ch) = true) (hd : World.Does lim t w op ch r w') :
    (∃ a, r = .ok a) ∧ Beside id t db ws w' := by
  cases hd with
  | fault | lostCommit | lostPublish => cases hw
  | lockPayment | lockKey | lockEvent | pendings => exact ⟨⟨_, rfl⟩, h.hold _⟩
  | uuid4 => exact ⟨⟨_, rfl⟩, h.kept rfl rfl (fun _ hf => hf) (.inl rfl)⟩
  | skipPayment | skipKey | readKey | missKey | skipEvent | flush | now | random | connect =>
    exact ⟨⟨_, rfl⟩, h⟩
  | _ => exact ho.elim

end

/-- The steps of such a run in which the query of the thread meets one of these states. -/
def Selecting (V : World → Prop) (t : Tid) (id : UUID) (w : World)
    (m : Move Op Choice Req Env) : Prop :=
  OnlyReads id m ∧ (m = .run t (.selectPaymentById id) .ok → V w)

/-- The query of the thread has met the row of the payment free. -/
def Found (V : World → Prop) (t : Tid) (id : UUID) : Prop :=
  ∃ w : World, V w ∧ w.Free t (.payment id)

/-- The query of the thread has met the row of the payment locked. -/
def Overlooked (V : World → Prop) (t : Tid) (id : UUID) : Prop :=
  ∃ w : World, V w ∧ ¬ w.Free t (.payment id)

/-- The thread raises for a reason, and nothing is changed. -/
def Missed (F : Prop) (id : UUID) (t : Tid) (db : Db) (e : Exc) (w : World) : Prop :=
  e.isBusinessRule = false ∧ F ∧ Beside id t db [] w

section

variable [Externals] {lim : Limits} {V : World → Prop} {t : Tid} {id : UUID} {db : Db}
  {ws : List Write} {w : World} {F : Prop} {α β : Type}

/-- A program of a thread beside queries for a payment. -/
abbrev Among (lim : Limits) (V : World → Prop) (t : Tid) (id : UUID) (p : Service α)
    (Q : Except Exc α → World → Prop) (w : World) : Prop :=
  wp (service lim) (Selecting V t id) (.relying (World.Reading id)) t p Q w

theorem among_op {op : Op} {Q : Except Exc op.Res → World → Prop} (P : World → Prop) (hP : P w)
    (stable : ∀ w w', P w → World.Reading id t w w' → P w')
    (h : ∀ w₁ ch r w₂, P w₁ → works (.run t op ch) = true → (op = .selectPaymentById id →
      ch = .ok → V w₁) → World.Does lim t w₁ op ch r w₂ → Q r w₂) :
    Among lim V t id (perform op) Q w := by
  refine wp_relying P hP stable (fun w₁ ch r w₂ hp ha he => ?_)
  refine h w₁ ch r w₂ hp ha.1.1 (fun hop hch => ha.2 ?_) (World.exec_does he)
  subst hop hch
  rfl

theorem among_then {p : Service α} {f : α → Service β} {P : α → World → Prop}
    {Q : β → World → Prop} {E : Exc → World → Prop} (hp : Among lim V t id p (Ends P E) w)
    (hf : ∀ a w, P a w → Among lim V t id (f a) (Ends Q E) w) :
    Among lim V t id (p.bind f) (Ends Q E) w :=
  wp_seq _ hp hf (fun _ _ h => h)

theorem among_quiet {op : Op} {E : Exc → World → Prop} (ho : op.Quiet)
    (h : Beside id t db ws w) :
    Among lim V t id (perform op) (Ends (fun _ => Beside id t db ws) E) w := by
  refine among_op _ h (fun _ _ h hr => h.stable hr) (fun w₁ ch r w₂ h hw _ hd => ?_)
  obtain ⟨⟨a, rfl⟩, h'⟩ := h.quietly ho hw hd
  exact h'

theorem among_commit {E : Exc → World → Prop} (h : Beside id t db ws w) :
    Among lim V t id Uow.commit (Ends (fun _ => Beside id t (db.applyAll ws) []) E) w := by
  refine wp_catch (Ends (fun _ => Beside id t (db.applyAll ws) []) (fun _ _ => False))
    (among_op _ h (fun _ _ h hr => h.stable hr) (fun w₁ ch r w₂ h hw _ hd => ?_))
    (fun _ _ hw => hw) (fun _ _ hw => hw.elim)
  cases hd with
  | fault | lostCommit => cases hw
  | commit => exact h.commit

/-- A unit of work ends as its body does and closes the session. -/
theorem among_within {body : Service α} {P : α → Db → Prop}
    (h : Among lim V t id body (Ends (fun a w => ∃ db' ws, P a db' ∧ Beside id t db' ws w)
      (Missed F id t db)) w) :
    Among lim V t id (Uow.within body) (Ends (fun a w => ∃ db', P a db' ∧ Beside id t db' [] w)
      (Missed F id t db)) w := by
  have hclose : ∀ {db' ws w}, Beside id t db' ws w → Among lim V t id (perform .close)
      (Ends (fun _ => Beside id t db' []) (fun _ _ => False)) w := by
    intro db' ws w h
    refine among_op _ h (fun _ _ h hr => h.stable hr) (fun w₁ ch x w₂ h hw _ hd => ?_)
    cases hd with
    | fault => cases hw
    | close => exact h.drop
  refine wp_within h (fun e w hw => ?_) (fun a w hw => ?_) (fun e w hw => ?_)
  · obtain ⟨hrule, hV, h⟩ := hw
    refine among_op _ h (fun _ _ h hr => h.stable hr) (fun w₁ ch x w₂ h hw _ hd => ?_)
    cases hd with
    | fault => cases hw
    | rollback => exact ⟨hrule, hV, h.drop⟩
  · obtain ⟨db', ws, hP, h⟩ := hw
    refine wp_mono (hclose h) (fun x w hx => ?_)
    cases x with
    | ok _ => exact ⟨db', hP, hx⟩
    | error _ => exact hx.elim
  · obtain ⟨hrule, hV, h⟩ := hw
    refine wp_mono (hclose h) (fun x w hx => ?_)
    cases x with
    | ok _ => exact ⟨hrule, hV, hx⟩
    | error _ => exact hx.elim

variable {o : OutboxRow}

/-- The claim works exactly on a pending event. -/
theorem among_claim (ho : o ∈ db.outbox.rows) (h : Beside id t db [] w) :
    Among lim V t id (claim o.id) (Ends (fun b w => ∃ db', (b = decide (o.status = .pending) ∧
      db' = db) ∧ Beside id t db' [] w) (Missed F id t db)) w := by
  refine among_within (among_then (among_quiet trivial h) (fun now w h => ?_))
  refine among_then (P := fun x w => x.isSome = decide (o.status = .pending) ∧
    Beside id t db [] w) (among_op _ h (fun _ _ h hr => h.stable hr)
      (fun w₁ ch r w₂ h hw _ hd => ?_)) (fun x w hx => ?_)
  · have hview : w₁.view t = db := h.view
    cases hd with
    | fault => cases hw
    | claim ho' hid hp =>
      rw [hview] at ho'
      obtain rfl := Table.eq_of_key ho' ho hid
      exact ⟨by simp [hp], (h.hold _).kept rfl rfl (fun _ hf => hf) (.inr ⟨_, by simp, rfl⟩)⟩
    | skipClaim hn =>
      rw [hview] at hn
      have hne : o.status ≠ .pending := fun hp => hn o ho rfl hp (h.free _ (by simp))
      exact ⟨by simp [hne], h⟩
  · obtain ⟨hx, h⟩ := hx
    cases x with
    | none => exact ⟨db, [], ⟨hx, rfl⟩, h⟩
    | some x =>
      refine among_then (P := fun _ w => ∃ ws, Beside id t db ws w) (among_op _ h
        (fun _ _ h hr => h.stable hr) (fun w₁ ch r w₂ h hw _ hd => ?_)) (fun _ w h => ?_)
      · cases hd with
        | fault => cases hw
        | missEvent => exact ⟨_, h⟩
        | updateOutbox => exact ⟨_, h.write _⟩
      · obtain ⟨ws, h⟩ := h
        exact among_then (among_quiet trivial h) (fun _ w h => ⟨db, ws, ⟨hx, rfl⟩, h⟩)

variable {r : PaymentRow}

theorem among_getById (hr : r ∈ db.payments.rows) (hd : ∃ p, PaymentRepository.toDomain r = .ok p)
    (h : Beside r.id t db [] w) :
    Among lim V t r.id (PaymentRepository.getById { value := r.id })
      (Ends (fun p w => PaymentRepository.toDomain r = .ok p ∧ Found V t r.id ∧
        Holding r.id t db [] w) (Missed (Overlooked V t r.id) r.id t db)) w := by
  refine among_then (P := fun row w => row = some r ∧ Found V t r.id ∧ Holding r.id t db [] w ∨
      row = none ∧ Overlooked V t r.id ∧ Beside r.id t db [] w)
    (among_op _ h (fun _ _ h hr => h.stable hr) (fun w₁ ch x w₂ h hw hV hdoes => ?_))
    (fun row w hrow => ?_)
  · have hview : w₁.view t = db := h.view
    cases hdoes with
    | fault => cases hw
    | lockPayment hr' hid hf =>
      rw [hview] at hr'
      obtain rfl := Table.eq_of_key hr' hr hid
      exact .inl ⟨rfl, ⟨w₁, hV rfl rfl, hf⟩, h.hold _, by simp⟩
    | skipPayment hn =>
      rw [hview] at hn
      exact .inr ⟨rfl, ⟨w₁, hV rfl rfl, hn r hr rfl⟩, h⟩
  · rcases hrow with ⟨rfl, hfound, h⟩ | ⟨rfl, hover, h⟩
    · obtain ⟨p, hp⟩ := hd
      refine (wp_ofExcept _).mpr ?_
      rw [hp]
      exact ⟨rfl, hfound, h⟩
    · exact ⟨rfl, hover, h⟩

theorem holding_quiet {op : Op} {E : Exc → World → Prop} (ho : op.Quiet)
    (h : Holding id t db ws w) :
    Among lim V t id (perform op) (Ends (fun _ => Holding id t db ws) E) w := by
  refine among_op _ h (fun _ _ h hr => h.stable hr) (fun w₁ ch r w₂ h hw _ hd => ?_)
  obtain ⟨⟨a, rfl⟩, h'⟩ := h.1.quietly ho hw hd
  have hkept : w₂.lock (.payment id) = some t := by
    cases hd <;> first | exact ho.elim | exact h.2 | simp [h.2]
  exact ⟨h', hkept⟩

theorem among_emulate {p : Payment} {E : Exc → World → Prop}
    (hd : PaymentRepository.toDomain r = .ok p) (hp : r.status = .pending)
    (h : Holding id t db [] w) :
    Among lim V t id (emulateProcessing p) (Ends (fun p' w => ∃ status now eventId occurredAt reason,
      Settled r p' status now eventId occurredAt reason ∧ db.outbox.find? eventId = none ∧
      Holding id t db [] w) E) w := by
  have hst : p.status = .pending := (toDomain_ok hd).2.2.2.2.1.trans hp
  have hpend : p.ensurePending = .ok () := by simp [Payment.ensurePending, hst]
  refine among_then (holding_quiet trivial h) (fun success w h => ?_)
  simp only [hpend, Prog.bind_eq, Prog.ofExcept_ok_bind]
  refine among_then (holding_quiet trivial h) (fun now w h => ?_)
  refine among_then (P := fun u w => db.outbox.find? u = none ∧ Holding id t db [] w)
    (among_op _ h (fun _ _ h hr => h.stable hr) (fun w₁ ch r w₂ h hw _ hd => ?_))
    (fun eventId w h => ?_)
  · cases hd with
    | fault => cases hw
    | uuid4 hu =>
      refine ⟨h.1.db ▸ hu.2.2.2, h.1.kept rfl rfl (fun _ hf => hf) (.inl rfl), h.2⟩
  obtain ⟨hnew, h⟩ := h
  refine among_then (holding_quiet trivial h) (fun occurredAt w h => ?_)
  have hend : ∀ (status : PaymentStatus) (reason : Option String), status ≠ .pending →
      Among lim V t id (Prog.ofExcept (p.settle status (reasonPy reason)
        ⟨eventId, occurredAt, now⟩)) (Ends (fun p' w => ∃ status now eventId occurredAt reason,
        Settled r p' status now eventId occurredAt reason ∧ db.outbox.find? eventId = none ∧
        Holding id t db [] w) E) w := by
    intro status reason hne
    refine (wp_ofExcept _).mpr ?_
    cases hp : p.settle status (reasonPy reason) ⟨eventId, occurredAt, now⟩ with
    | ok p' =>
      exact ⟨status, now, eventId, occurredAt, reason, settled_of_settle hd hne hp, hnew, h⟩
    | error e => exact absurd hst (Payment.settle_error hp).1
  cases success with
  | true => exact hend .confirmed none (by decide)
  | false => exact hend .failed (some "simulated error") (by decide)

theorem among_update {p : Payment} {status : PaymentStatus} {now : DateTime} {eventId : UUID}
    {occurredAt : DateTime} {reason : Option String} {E : Exc → World → Prop}
    (hr : r ∈ db.payments.rows) (hs : Settled r p status now eventId occurredAt reason)
    (h : Holding r.id t db [] w) :
    Among lim V t r.id (PaymentRepository.update p)
      (Ends (fun _ => Beside r.id t db [.updatePayment r.id status now]) E) w := by
  simp only [PaymentRepository.update, hs.stamped, Timestamp.new]
  refine among_then (P := fun x w => x.isSome ∧ Beside r.id t db [.updatePayment r.id status now] w)
    (among_op _ h (fun _ _ h hr => h.stable hr) (fun w₁ ch x w₂ h hw _ hd => ?_))
    (fun x w hx => ?_)
  · have hview : w₁.view t = db := h.1.view
    rw [hs.sameId, hs.newStatus] at hd
    cases hd with
    | fault => cases hw
    | missPayment hn =>
      rw [hview] at hn
      exact absurd rfl (Table.find_none.mp hn r hr)
    | updatePayment => exact ⟨rfl, h.1.write _⟩
  · obtain ⟨hx, h⟩ := hx
    obtain ⟨_, rfl⟩ := Option.isSome_iff_exists.mp hx
    exact among_then (among_quiet trivial h) (fun _ _ h => h)

theorem among_add_event {e : PaymentEvent} {status : PaymentStatus} {now : DateTime}
    {E : Exc → World → Prop} (hst : e.StoredAs o) (hnew : db.outbox.find? o.id = none)
    (h : Beside id t db [.updatePayment id status now] w) :
    Among lim V t id (OutboxRepository.add [e]) (Ends (fun _ => Beside id t db
      [.updatePayment id status now, .insertOutbox o]) E) w := by
  obtain ⟨s, hr, heq⟩ := add_event_eq hst
  rw [heq]
  refine among_then (P := fun _ => Beside id t db [.updatePayment id status now, .insertOutbox o])
    (among_op _ h (fun _ _ h hr => h.stable hr) (fun w₁ ch x w₂ h hw _ hd => ?_))
    (fun _ _ h => among_quiet trivial h)
  have hview : (w₁.view t).outbox.find? o.id = none := by
    rw [h.view]
    exact hnew
  rcases insert_one hd hr hview with ⟨_, rfl, _⟩ | ⟨rfl, rfl, _⟩
  · cases hw
  · exact h.write [.insertOutbox o]

/-- What a settlement has made of the tables: the payment has an outcome with its event. -/
def Concludes (event : PaymentEvent) (V : World → Prop) (t : Tid) (id : UUID) (db : Db)
    (events : List PaymentEvent) (db' : Db) : Prop :=
  event.Outcome events db' ∧ db.Grows db' ∧ Found V t id

variable {event : PaymentEvent}

theorem among_settlement (hev : event.attr "payment_id" = .uuid r.id) (hs : db.Sound)
    (hr : r ∈ db.payments.rows) (hp : r.status = .pending) (h : Beside r.id t db [] w) :
    Among lim V t r.id (settlement event) (Ends (fun events w => ∃ db' ws,
      Concludes event V t r.id db events db' ∧ Beside r.id t db' ws w)
      (Missed (Overlooked V t r.id) r.id t db)) w := by
  have hid : PaymentID.new (event.attr "payment_id") = .ok { value := r.id } := by
    rw [hev]
    simp [PaymentID.new, hs.version r hr]
  simp only [settlement, hid, Prog.bind_eq, Prog.pure_eq, Prog.ofExcept_ok_bind]
  refine among_then (among_getById hr (toDomain_obj (hs.metadata r hr)) h) (fun p w hw => ?_)
  obtain ⟨hd, hfound, h⟩ := hw
  refine among_then (among_emulate hd hp h) (fun p' w hw => ?_)
  obtain ⟨status, now, eventId, occurredAt, reason, hset, hnew, h⟩ := hw
  obtain ⟨o, hst, rfl, hpr, hpend⟩ : ∃ o, (processedEvent (Db.settleRow status now r) eventId
      occurredAt reason).StoredAs o ∧ o.id = eventId ∧
      (Db.settleRow status now r).Processed o ∧ o.status = .pending :=
    ⟨_, processed_stored _ eventId occurredAt reason, rfl, ⟨rfl, reason, rfl⟩, rfl⟩
  refine among_then (P := fun q w => q = p' ∧ Beside r.id t db [.updatePayment r.id status now] w)
    (among_then (among_update hr hset h) (fun _ _ h => ⟨rfl, h⟩)) (fun q w hq => ?_)
  obtain ⟨rfl, h⟩ := hq
  simp only [Payment.pullEvents, hset.recorded]
  refine among_then (among_add_event hst hnew h) (fun _ w h => ?_)
  refine among_then (among_commit h) (fun _ w h => ?_)
  have hchange : db.Change [.updatePayment r.id status now, .insertOutbox o] :=
    .settle r status now o hr hp hset.isSettled hnew hpr hpend
  have houtcome : event.Outcome [processedEvent (Db.settleRow status now r) o.id occurredAt reason]
      (db.applyAll [.updatePayment r.id status now, .insertOutbox o]) :=
    ⟨{ value := r.id }, Db.settleRow status now r, o.id, occurredAt, reason, hid, rfl,
      (Db.mem_payments_settle hr).mpr (.inr rfl), hset.isSettled, rfl, o,
      (Db.mem_outbox_settle hnew).mpr (.inr rfl), hpr, processed_published _ _ _ _ hst⟩
  exact ⟨_, _, ⟨houtcome, hchange.grows, hfound⟩, h⟩

theorem among_publish {events : List PaymentEvent} {E : Exc → World → Prop}
    (ho : event.Outcome events db) (h : Beside id t db [] w) :
    Among lim V t id (EventBus.publishPaymentEvents events) (Ends (fun _ => Beside id t db []) E)
      w := by
  obtain ⟨_, row, eventId, occurredAt, reason, _, _, _, _, rfl, o, _, hp, hm⟩ := ho
  have hqueue : EventBus.queueRegistry (processedEvent row eventId occurredAt reason).cls =
      some notifyPaymentsQ := rfl
  refine among_then (P := fun _ => Beside id t db []) ?_ (fun _ _ h => h)
  unfold EventBus.publishPaymentEvent
  simp only [hqueue, hm]
  refine wp_catch (Ends (fun _ => Beside id t db []) (fun _ _ => False))
    (among_op _ h (fun _ _ h hr => h.stable hr) (fun w₁ ch x w₂ h hw _ hd => ?_))
    (fun _ _ hw => hw) (fun _ _ hw => hw.elim)
  cases hd with
  | fault | lostPublish => cases hw
  | publish =>
    refine h.kept rfl rfl (fun _ hf => hf) (.inr ⟨_, fun k m he => ?_, rfl⟩)
    have hne : paymentsExchange ≠ paymentsDlx := by decide
    exact hne (Obs.accepted.inj he).1

/-- The end state of an event is written beside queries for a payment. -/
theorem among_conclude {status : TaskStatus} (hs : status.Terminal)
    (ho : ∃ o ∈ db.outbox.rows, o.id = event.id) (h : Beside id t db [] w) :
    Among lim V t id (conclude event.id status) (Ends (fun _ w => ∃ db', db.Grows db' ∧
      Beside id t db' [] w) (Missed F id t db)) w := by
  obtain ⟨o, ho, hid⟩ := ho
  refine among_within (among_then (P := fun _ => Beside id t db [.updateOutbox event.id status none])
    (among_then (P := fun x w => x.isSome ∧ Beside id t db [] w) (among_op _ h
      (fun _ _ h hr => h.stable hr) (fun w₁ ch x w₂ h hw _ hd => ?_)) (fun x w hx => ?_))
    (fun _ w h => ?_))
  · have hview : w₁.view t = db := h.view
    cases hd with
    | fault => cases hw
    | lockEvent => exact ⟨rfl, h.hold _⟩
    | skipEvent hn =>
      rw [hview] at hn
      exact absurd (h.free _ (by simp)) (hn o ho hid)
  · obtain ⟨hx, h⟩ := hx
    obtain ⟨_, rfl⟩ := Option.isSome_iff_exists.mp hx
    refine among_then (P := fun _ => Beside id t db [.updateOutbox event.id status none])
      (among_op _ h (fun _ _ h hr => h.stable hr) (fun w₁ ch x w₂ h hw _ hd => ?_))
      (fun _ _ h => among_quiet trivial h)
    have hview : w₁.view t = db := h.view
    cases hd with
    | fault => cases hw
    | missEvent hn =>
      rw [hview] at hn
      exact absurd hid (Table.find_none.mp hn o ho)
    | updateOutbox => exact h.write _
  · refine wp_mono (among_commit (E := fun _ _ => False) h) (fun x w hx => ?_)
    cases x with
    | ok a => exact ⟨_, [], (Db.Change.mark event.id status none hs).grows, hx⟩
    | error e => exact hx.elim

/-- The payment has an outcome with its event, and the thread has asked for no retry. -/
structure World.Pays (w : World) (t : Tid) (r : PaymentRow) : Prop where
  settled : ∃ r' ∈ w.db.payments.rows, r'.id = r.id ∧ r'.status ≠ .pending ∧
    ∃ o ∈ w.db.outbox.rows, r'.Processed o
  unretried : ∀ k m, (t, .accepted paymentsDlx k m) ∉ w.trace

/-- The payment is as it was, and the thread has not changed it. -/
def Unpaid (r : PaymentRow) (t : Tid) (w : World) : Prop :=
  r ∈ w.db.payments.rows ∧ ∀ status at', .updatePayment r.id status at' ∉ w.pend t

/-- The effect settles no payment. -/
def Op.Unpaying (op : Op) : Prop := ∀ id status at', op ≠ .updatePayment id status at'

omit [Externals] in
theorem Unpaid.does {op : Op} {ch : Choice} {x : Except Exc op.Res} {w' : World}
    (h : Unpaid r t w) (hop : op.Unpaying) (hd : World.Does lim t w op ch x w') :
    Unpaid r t w' := by
  constructor
  · by_cases hc : op = .commit
    · subst hc
      cases hd with
      | fault => exact h.1
      | commit | lostCommit => exact Db.kept_applyAll_payments h.1 h.2
    · rw [World.does_db hd hc]
      exact h.1
  · intro status at' hx
    rcases World.does_pend hd hx with hx | ⟨_, hx⟩
    · exact h.2 status at' hx
    · cases op <;> first | exact hx.elim | cases hx
      exact hop _ _ _ rfl

omit [Externals] in
theorem Unpaid.stable {w' : World} (h : Unpaid r t w) (hr : World.Reading id t w w') :
    Unpaid r t w' :=
  ⟨hr.db ▸ h.1, fun status at' hx => h.2 status at' (hr.pend ▸ hx)⟩

omit [Externals] in
theorem Unpaid.not_pays {w' : World} (h : Unpaid r t w) (hp : r.status = .pending)
    (hdb : w'.db = w.db) : ¬ w'.Pays t r := by
  rintro ⟨⟨r', hr', hid, hs, _⟩, _⟩
  rw [hdb] at hr'
  rw [Table.eq_of_key hr' h.1 hid] at hs
  exact hs hp

theorem among_unpaid {p : Service α} (hp : p.Only Op.Unpaying) (h : Unpaid r t w) :
    Among lim V t id p (fun _ => Unpaid r t) w :=
  wp_only hp h (fun _ _ h hr => h.stable hr) (fun _ hop _ _ _ _ hA _ _ he =>
    ⟨trivial, trivial, hA.does hop (World.exec_does he)⟩)

/-- The two ends of a delivery: the query found the payment and it has been settled, or the query
did not find it and nothing has happened to it. -/
def PaidOrMissed (V : World → Prop) (t : Tid) (r : PaymentRow) (event : PaymentEvent) (w : World) :
    Prop :=
  (Found V t r.id ∧ ∃ events db', event.Outcome events db' ∧ Beside r.id t db' [] w) ∨
    Overlooked V t r.id ∧ Unpaid r t w

omit [Externals] in
theorem PaidOrMissed.stable {w' : World} (h : PaidOrMissed V t r event w)
    (hr : World.Reading r.id t w w') : PaidOrMissed V t r event w' := by
  rcases h with ⟨hfound, events, db', ho, h⟩ | ⟨hover, h⟩
  · exact .inl ⟨hfound, events, db', ho, h.stable hr⟩
  · exact .inr ⟨hover, h.stable hr⟩

/-- A first delivery settles the payment where its query meets the row free, and otherwise, as where
its event is not pending any more, leaves the payment as it is. -/
def Ending (V : World → Prop) (t : Tid) (r : PaymentRow) (o : OutboxRow) (event : PaymentEvent)
    (w : World) : Prop :=
  o.status = .pending ∧ PaidOrMissed V t r event w ∨ o.status ≠ .pending ∧ Unpaid r t w

omit [Externals] in
theorem Ending.stable {w' : World} (h : Ending V t r o event w)
    (hr : World.Reading r.id t w w') : Ending V t r o event w' :=
  h.imp (And.imp_right (·.stable hr)) (And.imp_right (·.stable hr))

omit [Externals] in
/-- The thread pays exactly where its event is pending and every query of it meets the row free. -/
theorem Ending.pays {u : World} (h : Ending V t r o event w) (hp : r.status = .pending)
    (hev : event.attr "payment_id" = .uuid r.id) (hdb : u.db = w.db)
    (htr : ∀ k m, (t, .accepted paymentsDlx k m) ∈ u.trace →
      (t, .accepted paymentsDlx k m) ∈ w.trace)
    (hone : ∀ w w', V w → V w' → w = w') :
    u.Pays t r ↔ o.status = .pending ∧ ∀ w, V w → w.Free t (.payment r.id) := by
  rcases h with ⟨hpend, ⟨hfound, events, db', ho, h⟩ | ⟨⟨v, hv, hheld⟩, h⟩⟩ | ⟨hpend, h⟩
  · obtain ⟨v, hv, hfree⟩ := hfound
    refine iff_of_true ⟨?_, fun k m hm => h.quiet k m (htr k m hm)⟩
      ⟨hpend, fun w hw => hone v w hv hw ▸ hfree⟩
    obtain ⟨id, row, _, _, _, hid, hrow, hmem, hne, _, o', ho', hproc, _⟩ := ho
    rw [hev] at hid
    rw [hdb, h.db]
    exact ⟨row, hmem, hrow.trans (payment_id_value hid), hne, o', ho', hproc⟩
  · exact iff_of_false (h.not_pays hp hdb) (fun hall => hheld (hall.2 v hv))
  · exact iff_of_false (h.not_pays hp hdb) (fun hall => hpend hall.1)

variable {m : Message} {maxAttempts : Nat}

theorem among_execute (hev : event.attr "payment_id" = .uuid r.id) (hs : db.Sound)
    (hr : r ∈ db.payments.rows) (hp : r.status = .pending)
    (ho : ∃ o ∈ db.outbox.rows, o.id = event.id) (h : Beside r.id t db [] w) :
    Among lim V t r.id (executePayment maxAttempts m event)
      (fun _ => PaidOrMissed V t r event) w := by
  refine wp_catch (Ends (fun _ w => PaidOrMissed V t r event w)
    (Missed (Overlooked V t r.id) r.id t db)) ?_ (fun _ _ hw => hw) (fun e w hw => ?_)
  · refine among_then (P := fun _ => Beside r.id t db []) (among_op _ h
      (fun _ _ h hr => h.stable hr) (fun w₁ ch x w₂ h hw _ hd => ?_)) (fun _ w h => ?_)
    · cases hd with
      | fault => cases hw
      | enter => exact h.kept rfl rfl (fun _ hf => hf) (.inr ⟨_, by simp, rfl⟩)
    rw [process_payment_eq]
    refine among_then (P := fun _ w => ∃ events db', Concludes event V t r.id db events db' ∧
      Beside r.id t db' [] w) (among_then (among_within (among_settlement hev hs hr hp h))
        (fun events w hw => ?_)) (fun _ w hw => ?_)
    · obtain ⟨db', hc, h⟩ := hw
      refine wp_mono (among_publish (E := fun _ _ => False) hc.1 h) (fun x w hx => ?_)
      cases x with
      | ok _ => exact ⟨events, db', hc, hx⟩
      | error _ => exact hx.elim
    · obtain ⟨events, db', hc, h⟩ := hw
      obtain ⟨o, ho, hid⟩ := ho
      obtain ⟨o', ho', he⟩ := hc.2.1.event o ho
      refine wp_mono (among_conclude (F := False) (.inl rfl) ⟨o', ho', he.same.1.trans hid⟩ h)
        (fun x w hx => ?_)
      cases x with
      | ok _ =>
        obtain ⟨db'', hg, h⟩ := hx
        exact .inl ⟨hc.2.2, events, db'', hc.1.grows hg, h⟩
      | error _ => exact hx.2.1.elim
  · obtain ⟨hrule, hover, h⟩ := hw
    rw [if_neg (by simp [hrule])]
    have hunpaid : Unpaid r t w := by
      refine ⟨h.db ▸ hr, fun status at' hx => ?_⟩
      rw [h.pend] at hx
      cases hx
    refine wp_mono (among_unpaid ((only_retryOrBury _ _ _ _ _ _).mono ?_) hunpaid)
      (fun _ _ hw => .inr ⟨hover, hw⟩)
    rintro op hop id status at' rfl
    rcases hop with hop | ⟨_, _, _, hop⟩ | ⟨_, hop | hop⟩ <;> cases hop

theorem among_handler (hd : decodeNew m.body = .ok event) (hid : event.id = o.id)
    (ha : m.attempt = 0) (hev : event.attr "payment_id" = .uuid r.id) (hs : db.Sound)
    (hr : r ∈ db.payments.rows) (hp : r.status = .pending) (ho : o ∈ db.outbox.rows)
    (h : Beside r.id t db [] w) :
    Among lim V t r.id (handlePaymentProcessing maxAttempts m)
      (fun _ => Ending V t r o event) w := by
  have hunpaid : ∀ {w}, Beside r.id t db [] w → Unpaid r t w := by
    intro w h
    refine ⟨h.db ▸ hr, fun status at' hx => ?_⟩
    rw [h.pend] at hx
    cases hx
  simp only [handlePaymentProcessing, hd, Prog.bind_eq, Prog.pure_eq, Prog.ofExcept_ok_bind]
  refine wp_seq (Ends (fun _ => Beside r.id t db []) (fun _ _ => False)) (among_quiet trivial h)
    (fun _ w h => ?_) (fun _ _ hw => hw.elim)
  refine wp_seq _ (hid ▸ among_claim (F := False) ho h) (fun claimed w hw => ?_)
    (fun _ _ hw => hw.2.1.elim)
  obtain ⟨db', ⟨rfl, hdb⟩, h⟩ := hw
  rw [hdb] at h
  have hack : Op.Unpaying .ack := fun _ _ _ he => by cases he
  by_cases hpend : o.status = .pending
  · have hadmit : Admitted (decide (o.status = .pending)) m.attempt maxAttempts :=
      .inl (decide_eq_true hpend)
    rw [if_pos hadmit]
    refine wp_seq (fun _ => PaidOrMissed V t r event)
      (among_execute hev hs hr hp ⟨o, ho, hid.symm⟩ h) (fun _ w hw => ?_)
      (fun _ _ hw => .inl ⟨hpend, hw⟩)
    rcases hw with ⟨hfound, events, db', hout, h⟩ | ⟨hover, hw⟩
    · refine among_op _ h (fun _ _ h hr => h.stable hr) (fun w₁ ch x w₂ h hw _ hd => ?_)
      cases hd with
      | fault => cases hw
      | ack =>
        exact .inl ⟨hpend, .inl ⟨hfound, events, db', hout,
          h.kept rfl rfl (fun _ hf => hf) (.inr ⟨_, by simp, rfl⟩)⟩⟩
    · exact wp_mono (among_unpaid (only_op hack) hw) (fun _ _ hw => .inl ⟨hpend, .inr ⟨hover, hw⟩⟩)
  · have hshut : ¬ Admitted (decide (o.status = .pending)) m.attempt maxAttempts := by
      simp [Admitted, hpend, ha]
    rw [if_neg hshut]
    exact wp_mono (among_unpaid (only_op hack) (hunpaid h)) (fun _ _ hw => .inr ⟨hpend, hw⟩)

end

/-- The effect is the query for a payment. -/
def Op.loads (id : UUID) : Op → Bool
  | .selectPaymentById id' => id' = id
  | _ => false

theorem process_payment_once (id : UUID) (event : PaymentEvent) :
    (processPayment event).AtMost (fun op => op.loads id = true) 1 := by
  have hno : ∀ {α : Type} {p : Service α} {P : Op → Prop}, p.Only P →
      (∀ op, P op → ¬ op.loads id = true) → p.AtMost (fun op => op.loads id = true) 0 :=
    fun hp h => (hp.mono h).atMost
  have hget : ∀ x : PaymentID, (PaymentRepository.getById x).AtMost
      (fun op => op.loads id = true) 1 := by
    intro x
    refine Prog.AtMost.bind (m := 1) (n := 0) Prog.atMost_perform (fun row => ?_)
    cases row with
    | none => trivial
    | some row => exact hno (P := fun _ => False) (Prog.only_ofExcept _) (fun _ h => h.elim)
  have hrest : ∀ {α : Type} {p : Service α}, p.Only (fun op => op.loads id = false) →
      p.AtMost (fun op => op.loads id = true) 0 := fun hp => hno hp (fun _ h => by simp [h])
  have hbody : (settlement event).AtMost (fun op => op.loads id = true) 1 := by
    refine Prog.AtMost.bind (m := 0) (n := 1) (hrest (Prog.only_ofExcept _)) (fun x => ?_)
    refine Prog.AtMost.bind (m := 1) (n := 0) (hget x) (fun p => hrest ?_)
    have hemulate := @only_emulateProcessing (fun op => op.loads id = false) rfl rfl rfl p
    have hupdate := @only_update (fun op => op.loads id = false) (fun _ _ _ => rfl) rfl
    have hadd := @only_add_events (fun op => op.loads id = false) (fun _ => rfl) rfl
    have hcommit := @only_commit (fun op => op.loads id = false) rfl rfl
    refine Prog.Only.bind hemulate (fun p' => ?_)
    refine Prog.Only.bind (Prog.Only.bind (hupdate p') (fun _ => trivial)) (fun p'' => ?_)
    exact Prog.Only.bind (hadd _) (fun _ => Prog.Only.bind hcommit (fun _ => trivial))
  rw [process_payment_eq]
  refine Prog.AtMost.bind (m := 1) (n := 0) ?_ (fun events => hrest ((only_publish events).mono ?_))
  · refine Prog.AtMost.bind (m := 1) (n := 0) hbody.outcome (fun r => hrest ?_)
    refine Prog.Only.bind ?_ (fun _ => Prog.Only.bind (only_op rfl) (fun _ => Prog.only_ofExcept r))
    cases r with
    | ok _ => trivial
    | error _ => exact @only_rollback (fun op => op.loads id = false) rfl
  · rintro op ⟨_, _, rfl⟩
    rfl

theorem handle_payment_once (id : UUID) (maxAttempts : Nat) (m : Message) :
    (handlePaymentProcessing maxAttempts m).AtMost (fun op => op.loads id = true) 1 := by
  have hrest : ∀ {α : Type} {p : Service α}, p.Only (fun op => ¬ op.loads id = true) →
      p.AtMost (fun op => op.loads id = true) 0 := fun hp => hp.atMost
  have hconclude : ∀ e status, (conclude e status).Only (fun op => ¬ op.loads id = true) := by
    refine fun e status => (only_conclude e status).mono (fun op h => ?_)
    cases op <;> first | exact h.elim | exact Bool.false_ne_true
  refine Prog.AtMost.bind (m := 0) (n := 1) (hrest (only_op Bool.false_ne_true)) (fun _ => ?_)
  refine Prog.AtMost.bind (m := 0) (n := 1) (hrest (Prog.only_ofExcept _)) (fun event => ?_)
  refine Prog.AtMost.bind (m := 0) (n := 1) (hrest ((only_claim event.id).mono ?_)) (fun b => ?_)
  · intro op h
    cases op <;> first | exact h.elim | exact Bool.false_ne_true
  refine Prog.AtMost.bind (m := 1) (n := 0) ?_ (fun _ => hrest (only_op Bool.false_ne_true))
  split
  swap
  · trivial
  refine Prog.AtMost.handle (m := 1) (n := 0) ?_ (fun e => hrest ?_)
  · refine Prog.AtMost.bind (m := 0) (n := 1) (hrest (only_op Bool.false_ne_true)) (fun _ => ?_)
    exact Prog.AtMost.bind (m := 1) (n := 0) (process_payment_once id event) (fun _ =>
      hrest (hconclude _ _))
  · split
    · trivial
    · apply (only_retryOrBury _ _ _ _ _ _).mono
      rintro op hop
      rcases hop with rfl | ⟨_, _, _, rfl⟩ | ⟨_, hop | rfl⟩
      · exact Bool.false_ne_true
      · exact Bool.false_ne_true
      · cases op <;> first | exact hop.elim | exact Bool.false_ne_true
      · exact Bool.false_ne_true

section

variable [Externals] {lim : Limits} {t : Tid} {c c₀ c₁ c₂ c' : Config World Op Op.Res Exc Reply}
  {ds : List (Config World Op Op.Res Exc Reply × Move Op Choice Req Env)} {r : PaymentRow}
  {o : OutboxRow} {m : Message} {i : Nat}

/-- How a delivery starts beside queries alone. -/
theorem started_beside (h : Reachable lim c) (hq : ∀ u, c.threads u = none)
    (h₀ : (service lim).Reach (fun _ => OnlyReads r.id) c c₀)
    (hm : c₀.shared.ready[i]? = some (newPaymentsQ, m))
    (hs : (service lim).Step c₀ (.start t (.deliver i)) c₁) :
    Beside r.id t c.shared.db [] c₁.shared ∧ Queriers r.id t c₁ ∧ t < c₁.next ∧
      c₁.threads t = some ((handlePaymentProcessing lim.process m).bind (fun _ => .ret .done)) := by
  have hr₀ : Reachable lim c₀ := h.trans (h₀.mono (fun _ _ _ => trivial))
  obtain ⟨honly, hread⟩ := reads_before h hq h₀
  obtain ⟨p, hp, hw, hlt, ht, _⟩ := started_delivery hr₀ hm hs
  obtain rfl := hs.started.1
  obtain rfl : handlePaymentProcessing lim.process m = p := Option.some.inj hp
  have hfree : ∀ x, c.shared.Free c₀.next x := by
    intro x
    cases hl : c.shared.lock x with
    | none => exact .inl hl
    | some u => exact absurd (hq u) (lock_running h x u hl)
  have hread := hread c₀.next (Nat.le_refl _)
  refine ⟨?_, fun u hu p hp => ?_, hlt, ht⟩
  · rw [hw]
    refine ⟨hread.db, (reachable_holds hr₀).fresh _ (Nat.le_refl _), fun x hx =>
      hread.free x hx (hfree x), fun k m hm => ?_⟩
    rcases List.mem_cons.mp hm with he | hm
    · cases he
    · exact absurd (trace_numbered hr₀ _ hm) (Nat.lt_irrefl _)
  · have hother : (Move.start c₀.next (.deliver i) : Move Op Choice Req Env).thread? ≠ some u :=
      fun he => hu (Option.some.inj he).symm
    exact honly u p (hs.other hother ▸ hp)

/-- In a run of queries for a pending payment and of one first delivery of its created event, where
nothing fails, the delivery settles the payment exactly where the event is pending and the query
of the delivery does not meet the row of the payment locked. -/
theorem reads_and_processing (h : Reachable lim c) (hq : ∀ u, c.threads u = none)
    (hr : r ∈ c.shared.db.payments.rows) (hp : r.status = .pending)
    (ho : o ∈ c.shared.db.outbox.rows) (hc : r.Created o)
    (h₀ : (service lim).Reach (fun _ => OnlyReads r.id) c c₀)
    (hm : c₀.shared.ready[i]? = some (newPaymentsQ, m)) (hb : m.body = o.body) (ha : m.attempt = 0)
    (hs : (service lim).Step c₀ (.start t (.deliver i)) c₁) (h₁ : (service lim).Path c₁ ds c₂)
    (hds : ∀ d ∈ ds, OnlyReads r.id d.2) (he : (service lim).Step c₂ (.exit t) c') :
    c'.shared.Pays t r ↔ o.status = .pending ∧ ∀ d ∈ ds,
      d.2 = .run t (.selectPaymentById r.id) .ok → d.1.shared.Free t (.payment r.id) := by
  obtain ⟨hbeside, hqueriers, hlt, ht⟩ := started_beside h hq h₀ hm hs
  have hd : decodeNew m.body = .ok (createdEvent r.id o.id o.occurredAt) := hb ▸ decode_created hc
  have hattr : (createdEvent r.id o.id o.occurredAt).attr "payment_id" = .uuid r.id := rfl
  let V : World → Prop := fun w => ∃ d ∈ ds, d.1.shared = w ∧
    d.2 = .run t (.selectPaymentById r.id) .ok
  let event := createdEvent r.id o.id o.occurredAt
  have hwp : Among lim V t r.id ((handlePaymentProcessing lim.process m).bind
      (fun _ => .ret Reply.done)) (fun _ => Ending V t r o event) c₁.shared :=
    wp_seq _ (among_handler hd rfl ha hattr (reachable_holds h).inv.sound hr hp ho hbeside)
      (fun _ _ hw => hw) (fun _ _ hw => hw)
  have hreach : (service lim).Reach (Selecting V t r.id) c₁ c₂ :=
    h₁.reach (fun d hd => ⟨hds d hd, fun hm => ⟨d, hd, rfl, hm⟩⟩)
  have hreads : ∀ d, (service lim).Reach (Selecting V t r.id) c₁ d → Queriers r.id t d :=
    fun d hr => queriers_reach hqueriers (hr.mono (fun _ _ ha => ha.1))
  have hend := (wp_reach (C := .relying (World.Reading r.id)) hlt (fun p hp => by
      cases ht.symm.trans hp
      exact hwp)
    World.Reading.refl (fun _ _ _ h h' => World.Reading.trans h h')
    (fun _ _ _ hw hr => Ending.stable hw hr) (fun _ _ => trivial)
    (fun d _ _ hr ha hs hm => (reads_step (hreads d hr) ha.1 hs).2 hm) hreach).2
  have hpath := h₁.step he
  cases he with
  | @exit _ q x hq hx =>
    have hq' := wp_result (hend q hq) hx
    have hcourse : Sys.Course (service lim) t _ (Sys.own t ds) x :=
      hpath.course hlt ht List.mem_cons_self rfl hq hx
    have hone : ∀ w w', V w → V w' → w = w' := by
      rintro w w' hw hw'
      have honce : ((handlePaymentProcessing lim.process m).bind
          (fun _ => .ret Reply.done)).AtMost (fun op => op.loads r.id = true) 1 :=
        Prog.AtMost.bind (m := 1) (n := 0) (handle_payment_once r.id lim.process m)
          (fun _ => trivial)
      have hu := hcourse.unique honce (Sys.mem_own.mpr hw) (Sys.mem_own.mpr hw')
        (by simp [Op.loads]) (by simp [Op.loads])
      exact (Prod.mk.inj hu).1
    have hpays := hq'.pays (u := c₂.shared.finish t x) hp hattr rfl (fun k m hm => ?_) hone
    · refine hpays.trans (and_congr_right (fun _ => ?_))
      exact ⟨fun hall d hd hm => hall _ ⟨d, hd, rfl, hm⟩,
        fun hall w ⟨d, hd, hw, hm⟩ => hw ▸ hall d hd hm⟩
    · rcases List.mem_cons.mp hm with he | hm
      · cases he
      · exact hm

end

/-- The steps that such a run may take, decided. -/
def onlyReads (id : UUID) (m : Move Op Choice Req Env) : Bool :=
  works m && match m with
    | .start _ (.get id') => id' = id
    | .start _ _ | .env _ => false
    | _ => true

theorem onlyReads_sound {id : UUID} {m : Move Op Choice Req Env} (h : onlyReads id m = true) :
    OnlyReads id m := by
  simp only [onlyReads, Bool.and_eq_true] at h
  obtain ⟨hw, h⟩ := h
  refine ⟨hw, ?_⟩
  split at h
  · simpa using h
  · cases h
  · cases h
  · split <;> simp_all

/-- The steps of it that do not meet a row of the payment that another transaction has locked, where
they query it for the thread. -/
def readsFree (t : Tid) (id : UUID) (w : World) (m : Move Op Choice Req Env) : Bool :=
  onlyReads id m && match m with
    | .run u op _ => !(u = t && op.loads id) || w.lock (.payment id) = none
    | _ => true

/-- A first delivery beside a query that starts before it: the configurations before both, before
the delivery, after its start, before its end and after that. -/
def readersRun (ok : World → Move Op Choice Req Env → Bool) (as : Schedule) :
    Option (Config World Op Op.Res Exc Reply × Config World Op Op.Res Exc Reply ×
      Config World Op Op.Res Exc Reply × Config World Op Op.Res Exc Reply ×
      Config World Op Op.Res Exc Reply) :=
  (after {} (createRun 0 (uid 1) (uid 10) (uid 11))).bind (fun c =>
    ((sampleService {}).play ok [.start (.get (uid 10)), .run 1 .ok] c).bind (fun c₀ =>
      ((sampleService {}).next? c₀ (.start (.deliver 0))).bind (fun x =>
        ((sampleService {}).play ok ([.run 2 .ok] ++ claimRun 2 ++ as) x.2).bind (fun c₂ =>
          ((sampleService {}).next? c₂ (.exit 2)).map (fun y => (c, c₀, x.2, c₂, y.2))))))

/-- The query ends before the delivery queries the payment, and another one finds it locked. -/
def besideRun : Schedule :=
  [.run 1 .ok, .exit 1] ++ oks 2 2 ++ [.start (.get (uid 10))] ++ oks 3 3 ++ [.exit 3] ++
    [.run 2 (.coin true)] ++ stamps 2 (uid 12) ++ oks 2 13

/-- The delivery queries the payment before the query ends. -/
def overlookedRun : Schedule := oks 2 7

/-- A creation has ended and nothing has followed it, and the delivery is then the third thread. -/
def fresh (c c₀ : Config World Op Op.Res Exc Reply) : Bool :=
  c.next == 1 && (c.threads 0).isNone && c.shared.db.outbox.rows.all (fun o => o.status = .pending) &&
    c.shared.db.payments.rows.all (fun r => r.id = uid 10 && r.status = .pending) &&
    c₀.next == 2 && awaits 0 c₀.shared

set_option maxRecDepth 20000 in
theorem besideRun_fresh : (readersRun (readsFree 2 (uid 10)) besideRun).any (fun x =>
    fresh x.1 x.2.1) = true := by decide +kernel

set_option maxRecDepth 20000 in
theorem overlookedRun_fresh : (readersRun (fun _ => onlyReads (uid 10)) overlookedRun).any (fun x =>
    fresh x.1 x.2.1 && x.2.2.2.2.shared.db.payments.rows.all (fun r => r.status = .pending)) =
    true := by decide +kernel

/-- What a run beside a query is: the hypotheses of the theorem above at its configurations. -/
theorem readers_of_run {ok : World → Move Op Choice Req Env → Bool} {as : Schedule}
    {c c₀ c₁ c₂ c' : Config World Op Op.Res Exc Reply}
    (hok : ∀ w m, ok w m = true → OnlyReads (uid 10) m)
    (h : readersRun ok as = some (c, c₀, c₁, c₂, c')) (hf : fresh c c₀ = true) :
    @Reachable sample {} c ∧ (∀ u, c.threads u = none) ∧
      (sampleService {}).Reach (fun _ => OnlyReads (uid 10)) c c₀ ∧
      (sampleService {}).Step c₀ (.start 2 (.deliver 0)) c₁ ∧
      (∃ ds, (sampleService {}).Path c₁ ds c₂ ∧ ∀ d ∈ ds, ok d.1.shared d.2 = true) ∧
      (sampleService {}).Step c₂ (.exit 2) c' ∧ ∃ r ∈ c.shared.db.payments.rows, r.id = uid 10 ∧
      r.status = .pending ∧ ∃ o ∈ c.shared.db.outbox.rows, r.Created o ∧ o.status = .pending ∧
      ∃ m, c₀.shared.ready[0]? = some (newPaymentsQ, m) ∧ m.body = o.body ∧ m.attempt = 0 := by
  obtain ⟨c, hc, h⟩ := Option.bind_eq_some_iff.mp h
  obtain ⟨c₀, hc₀, h⟩ := Option.bind_eq_some_iff.mp h
  obtain ⟨⟨m, c₁⟩, hm, h⟩ := Option.bind_eq_some_iff.mp h
  obtain ⟨c₂, hc₂, h⟩ := Option.bind_eq_some_iff.mp h
  obtain ⟨⟨m', c'⟩, hm', he⟩ := Option.map_eq_some_iff.mp h
  cases he
  simp only [fresh, Bool.and_eq_true, beq_iff_eq, List.all_eq_true, decide_eq_true_eq] at hf
  obtain ⟨⟨⟨⟨⟨hnext, hnone⟩, houtbox⟩, hpayments⟩, hnext₀⟩, hawaits⟩ := hf
  have hr : @Reachable sample {} c := Sys.reach_of_play (fun _ _ _ => trivial) hc
  have hq : ∀ u, c.threads u = none := by
    apply @quiet_of_started sample {} c hr
    intro u hu
    rw [hnext] at hu
    obtain rfl : u = 0 := Nat.lt_one_iff.mp hu
    exact hnone
  have hr₀ : (sampleService {}).Reach (fun _ => OnlyReads (uid 10)) c c₀ :=
    Sys.reach_of_play hok hc₀
  obtain ⟨m, hready, ha⟩ := ready_of_awaits hawaits
  have hreach₀ : @Reachable sample {} c₀ := hr.trans (hr₀.mono (fun _ _ _ => trivial))
  have hi := (@reachable_holds sample {} c₀ hreach₀).inv
  obtain ⟨o, ho, hb, r, hrow, hcreated⟩ :=
    (hi.ready _ (List.mem_of_getElem? hready)).created hi.agree
  have hdb : c₀.shared.db = c.shared.db :=
    ((@reads_before sample {} (uid 10) c c₀ hr hq hr₀).2 2 (by rw [hnext₀])).db
  rw [hdb] at ho hrow
  obtain ⟨hid, hp⟩ := hpayments r hrow
  have hs := Sys.step_of_start hm
  rw [hnext₀] at hs
  exact ⟨hr, hq, hr₀, hs, Sys.path_of_play hc₂, Sys.step_of_exit hm', r, hrow, hid, hp, o, ho,
    hcreated, houtbox o ho, m, hready, hb, ha⟩

theorem readsFree_free {t : Tid} {id : UUID} {w : World} {m : Move Op Choice Req Env}
    (h : readsFree t id w m = true) (hm : m = .run t (.selectPaymentById id) .ok) :
    w.Free t (.payment id) := by
  subst hm
  obtain ⟨_, h⟩ := Bool.and_eq_true_iff.mp h
  have hfree : w.lock (.payment id) = none := by simpa [Op.loads] using h
  exact .inl hfree

theorem reads_and_processing_beside : ∃ (c c₀ c₁ c₂ c' : Config World Op Op.Res Exc Reply)
    (ds : List (Config World Op Op.Res Exc Reply × Move Op Choice Req Env)) (r : PaymentRow),
    @Reachable sample {} c ∧ r ∈ c.shared.db.payments.rows ∧ r.status = .pending ∧
    (sampleService {}).Reach (fun _ => OnlyReads r.id) c c₀ ∧
    (sampleService {}).Step c₀ (.start 2 (.deliver 0)) c₁ ∧ (sampleService {}).Path c₁ ds c₂ ∧
    (∀ d ∈ ds, OnlyReads r.id d.2) ∧ (sampleService {}).Step c₂ (.exit 2) c' ∧
    c'.shared.Pays 2 r := by
  obtain ⟨⟨c, c₀, c₁, c₂, c'⟩, hrun, hfresh⟩ := (Option.any_eq_true _ _).mp besideRun_fresh
  have hok : ∀ w m, readsFree 2 (uid 10) w m = true → OnlyReads (uid 10) m := fun _ _ h =>
    onlyReads_sound (Bool.and_eq_true_iff.mp h).1
  obtain ⟨hr, hq, hr₀, hs, ⟨ds, hpath, hds⟩, hexit, r, hrow, hid, hp, o, ho, hc, hpend, m, hm, hb,
    ha⟩ := readers_of_run hok hrun hfresh
  rw [← hid] at hr₀ hds
  have hreads : ∀ d ∈ ds, OnlyReads r.id d.2 := fun d hd =>
    onlyReads_sound (Bool.and_eq_true_iff.mp (hds d hd)).1
  exact ⟨c, c₀, c₁, c₂, c', ds, r, hr, hrow, hp, hr₀, hs, hpath, hreads, hexit,
    (@reads_and_processing sample {} 2 c c₀ c₁ c₂ c' ds r o m 0 hr hq hrow hp ho hc hr₀ hm hb ha hs
      hpath hreads hexit).mpr ⟨hpend, fun d hd => readsFree_free (hds d hd)⟩⟩

/-- A query that has the row of a payment locked turns the first delivery of its pending event into
a retry. -/
theorem reader_overlooked : ∃ (c c₀ c₁ c₂ c' : Config World Op Op.Res Exc Reply)
    (ds : List (Config World Op Op.Res Exc Reply × Move Op Choice Req Env)) (r : PaymentRow)
    (o : OutboxRow) (m : Message), @Reachable sample {} c ∧ (∀ u, c.threads u = none) ∧
    r ∈ c.shared.db.payments.rows ∧ r.status = .pending ∧ o ∈ c.shared.db.outbox.rows ∧
    r.Created o ∧ o.status = .pending ∧ (sampleService {}).Reach (fun _ => OnlyReads r.id) c c₀ ∧
    c₀.shared.ready[0]? = some (newPaymentsQ, m) ∧ m.body = o.body ∧ m.attempt = 0 ∧
    (sampleService {}).Step c₀ (.start 2 (.deliver 0)) c₁ ∧ (sampleService {}).Path c₁ ds c₂ ∧
    (∀ d ∈ ds, OnlyReads r.id d.2) ∧ (sampleService {}).Step c₂ (.exit 2) c' ∧
    ¬ c'.shared.Pays 2 r := by
  obtain ⟨⟨c, c₀, c₁, c₂, c'⟩, hrun, hx⟩ := (Option.any_eq_true _ _).mp overlookedRun_fresh
  simp only [Bool.and_eq_true, List.all_eq_true, decide_eq_true_eq] at hx
  obtain ⟨hfresh, hpending⟩ := hx
  obtain ⟨hr, hq, hr₀, hs, ⟨ds, hpath, hds⟩, hexit, r, hrow, hid, hp, o, ho, hc, hpend, m, hm, hb,
    ha⟩ := readers_of_run (fun _ _ => onlyReads_sound) hrun hfresh
  rw [← hid] at hr₀
  have hreads : ∀ d ∈ ds, OnlyReads r.id d.2 := fun d hd => hid ▸ onlyReads_sound (hds d hd)
  refine ⟨c, c₀, c₁, c₂, c', ds, r, o, m, hr, hq, hrow, hp, ho, hc, hpend, hr₀, hm, hb, ha, hs,
    hpath, hreads, hexit, fun hpays => ?_⟩
  obtain ⟨r', hr', _, hne, _⟩ := hpays.settled
  exact hne (hpending r' hr')

end Payments
