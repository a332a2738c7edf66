import Payments.Proofs.Atomicity
import Payments.Proofs.Footprint

namespace Payments

open Lib

/-- How a commit fails when the database is out of reach for a moment. -/
inductive CommitFailure where
  | exhausted
  | unavailable

/-- What the driver raises. -/
def CommitFailure.driver : CommitFailure → Exc
  | .exhausted => .sqlTimeout
  | .unavailable => .operational

/-- What `PaymentsUoWSQLAlchemy.commit` raises in its place. -/
def CommitFailure.raised : CommitFailure → Exc
  | .exhausted => .repositoriesExhausted
      "Connection pool exhausted; unable to acquire connection within timeout"
  | .unavailable => .repositoriesUnavailable "Database unavailable: " .operational

/-- The failures that a call meets before its commit succeeds: at most two, or three and then it
does not. -/
structure Outages where
  failures : List CommitFailure
  few : failures.length ≤ 3

/-- The outcomes of the commits of a call that is retried. -/
def Outages.outcomes (s : Outages) : List Choice :=
  s.failures.map (fun f => .fault f.driver) ++ if s.failures.length < 3 then [.ok] else []

def Op.isCommit : Op → Bool
  | .commit => true
  | _ => false

/-- The outcomes of the commits among some effects. -/
def commits (ms : List (Op × Choice)) : List Choice :=
  (ms.filter (fun m => m.1.isCommit)).map Prod.snd

/-- Of the effects of a thread only commits fail. -/
def OnlyCommitsFail (t : Tid) (ms : List (Op × Choice)) : Prop :=
  ∀ m ∈ ms, m.1.isCommit = false → works (.run t m.1 m.2) = true

/-- The command is valid, its values can be stored, and no payment has its key. -/
structure Acceptable [Externals] (db : Db) (command : CreatePaymentCommand) (parts : PaymentParts) :
    Prop where
  valid : command.parts = .ok parts
  amount : storeNumeric parts.amount.value ≠ none
  metadata : ∃ json, storeJson parts.metadata.asDict = .ok json
  key : ∀ r ∈ db.payments.rows, r.idempotencyKey ≠ command.key

/-- The call makes a commit for each outcome. It returns a response and has created one payment
with its event when the last one is a success, and raises the last failure and has committed
nothing when none is. -/
def Outages.Retried (s : Outages) (command : CreatePaymentCommand) (w : World)
    (ms : List (Op × Choice)) (r : Except Exc CreatePaymentResponse) (w' : World) : Prop :=
  commits ms = s.outcomes ∧
    if s.failures.length < 3 then
      (∃ response, r = .ok response) ∧ ∃ o, w.db.AddsPayment command o w'.db
    else (∃ f ∈ s.failures.getLast?, r = .error f.raised) ∧ w'.db = w.db

section

variable [Externals] {lim : Limits} {t : Tid} {w w₀ : World} {ws : List Write} {α β : Type}

/-- The decorator retries the construction of the use case and not its calls. -/
theorem call_create_payment (command : CreatePaymentCommand) :
    callCreatePayment command = createPayment command := rfl

/-- A program that runs alone where nothing fails returns, and ends in `P`. -/
abbrev Works (lim : Limits) (t : Tid) (p : Service α) (P : α → World → Prop) (w : World) : Prop :=
  Solo lim (fun _ m => works m = true) t p (Ends P (fun _ _ => False)) w

theorem works_op {op : Op} {P : op.Res → World → Prop}
    (h : ∀ ch r w', (∀ e, ch ≠ .fault e) → (∀ e, ch ≠ .lost e) → World.Does lim t w op ch r w' →
      ∃ a, r = .ok a ∧ P a w') : Works lim t (perform op) P w := by
  refine solo_op (fun ch r w' ha hd => ?_)
  obtain ⟨a, rfl, hP⟩ := h ch r w' (by rintro e rfl; cases ha) (by rintro e rfl; cases ha) hd
  exact hP

theorem works_quiet {op : Op} (ho : op.Quiet) (h : Draft t w₀ ws w) :
    Works lim t (perform op) (fun _ => Draft t w₀ ws) w := by
  refine works_op (fun ch r w' hf hl hd => ?_)
  have h' := h.quiet ho hd
  cases hd with
  | fault => exact absurd rfl (hf _)
  | lostCommit | lostPublish => exact absurd rfl (hl _)
  | refusePayment | conflict | refuseOutbox => exact ho.elim
  | _ => exact ⟨_, rfl, h'⟩

theorem works_uuid4 (h : Draft t w₀ ws w) :
    Works lim t (perform .uuid4) (fun u w => Draft t w₀ ws w ∧ w₀.db.payments.find? u = none ∧
      w₀.db.outbox.find? u = none) w := by
  refine works_op (fun ch r w' hf _ hd => ?_)
  have h' : Draft t w₀ ws w' := @Draft.quiet _ _ _ _ h lim .uuid4 trivial _ _ _ hd
  cases hd with
  | fault => exact absurd rfl (hf _)
  | uuid4 hu => exact ⟨_, rfl, h', h.db ▸ hu.2.2.1, h.db ▸ hu.2.2.2⟩

theorem works_getByKey {key : IdempotencyKey} (h : Draft t w₀ [] w)
    (hk : ∀ r ∈ w₀.db.payments.rows, r.idempotencyKey ≠ key.value) :
    Works lim t (PaymentRepository.getByKey key) (fun x w => x = none ∧ Draft t w₀ [] w) w := by
  refine solo_then (P := fun row w => row = none ∧ Draft t w₀ [] w)
    (works_op (fun ch r w' hf _ hd => ?_)) ?_
  · cases hd with
    | fault => exact absurd rfl (hf _)
    | lockKey hr hkey =>
      rw [h.view] at hr
      exact absurd hkey (hk _ hr)
    | skipKey => exact ⟨_, rfl, rfl, h⟩
  · rintro _ w ⟨rfl, h⟩
    exact ⟨rfl, h⟩

theorem works_add {p : Payment} (h : Draft t w₀ [] w)
    (hk : ∀ r ∈ w₀.db.payments.rows, r.idempotencyKey ≠ p.key.value)
    (hid : w₀.db.payments.find? p.id.value = none)
    {row : PaymentRow} (hrow : (PaymentRepository.values p).toRow = .ok row) :
    Works lim t (PaymentRepository.add p) (fun _ => Draft t w₀ [.insertPayment row]) w := by
  obtain ⟨hrid, hrkey⟩ := World.toRow_id hrow
  refine solo_then (P := fun x w => x = none ∧ Draft t w₀ [] w)
    (works_op (fun ch r w' hf _ hd => ?_)) ?_
  · cases hd with
    | fault => exact absurd rfl (hf _)
    | readKey hr hkey =>
      rw [h.view] at hr
      exact absurd hkey (hk _ hr)
    | missKey => exact ⟨_, rfl, rfl, h⟩
  · rintro _ w ⟨rfl, h⟩
    refine solo_then (P := fun _ => Draft t w₀ [.insertPayment row])
      (works_op (fun ch r w' hf _ hd => ?_)) (fun _ _ h => works_quiet trivial h)
    cases hd with
    | fault => exact absurd rfl (hf _)
    | refusePayment hv => cases hrow.symm.trans hv
    | conflict hv hr hc =>
      cases hrow.symm.trans hv
      rw [h.view] at hr
      rcases hc with hc | hc
      · exact absurd (hc.trans hrid) (Table.find_none.mp hid _ hr)
      · exact absurd (hc.trans hrkey) (hk _ hr)
    | insertPayment hv =>
      cases hrow.symm.trans hv
      exact ⟨(), rfl, h.write _⟩

theorem works_service_create {amount : Amount} {currency : Currency} {description : Description}
    {metadata : Metadata} {key : IdempotencyKey} {webhookUrl : WebhookUrl} (h : Draft t w₀ [] w)
    (hk : ∀ r ∈ w₀.db.payments.rows, r.idempotencyKey ≠ key.value)
    (ha : storeNumeric amount.value ≠ none) (hm : ∃ json, storeJson metadata.asDict = .ok json) :
    Works lim t (PaymentService.create amount currency description metadata key webhookUrl)
      (fun p w => ∃ row eventId occurredAt, p.events = [createdEvent row.id eventId occurredAt] ∧
        w₀.db.outbox.find? eventId = none ∧ Draft t w₀ [.insertPayment row] w) w := by
  refine solo_then (works_getByKey h hk) (fun existing w h => ?_)
  obtain ⟨rfl, h⟩ := h
  refine solo_then (works_uuid4 h) (fun id w h => ?_)
  obtain ⟨h, hid, _⟩ := h
  refine solo_then (works_quiet trivial h) (fun createdAt w h => ?_)
  refine solo_then (works_uuid4 h) (fun eventId w h => ?_)
  obtain ⟨h, _, hnew⟩ := h
  refine solo_then (works_quiet trivial h) (fun occurredAt w h => ?_)
  simp only [Payment.postInit, Payment.recordEvent, Prog.ofExcept, Prog.bind_eq, Prog.bind,
    ne_eq, not_true_eq_false, false_and, Bool.false_eq_true, ↓reduceIte]
  obtain ⟨value, ha⟩ := Option.ne_none_iff_exists'.mp ha
  obtain ⟨json, hm⟩ := hm
  refine solo_then (works_add h hk hid (by
    simp only [PaymentRepository.values, PaymentValues.toRow, hm, ha]
    rfl)) (fun _ w h => ?_)
  exact ⟨_, eventId, occurredAt, rfl, hnew, h⟩

/-- Storing one event works. -/
theorem works_add_event {e : PaymentEvent} {o : OutboxRow} (hst : e.StoredAs o)
    (h : Draft t w₀ ws w) :
    Works lim t (OutboxRepository.add [e]) (fun _ w => ∃ ws, Draft t w₀ ws w) w := by
  obtain ⟨s, hr, heq⟩ := add_event_eq hst
  have hrow : [s].mapM SerializedEvent.toRow = .ok [o] := by
    simp [List.mapM_cons, hr, bind, Except.bind, pure, Except.pure]
  rw [heq]
  refine solo_then (P := fun _ w => ∃ ws, Draft t w₀ ws w)
    (works_op (fun ch r w' hf _ hd => ?_)) (fun _ _ hw => ?_)
  · cases hd with
    | fault => exact absurd rfl (hf _)
    | refuseOutbox hv => cases hrow.symm.trans hv
    | insertOutbox => exact ⟨(), rfl, _, h.write _⟩
  · obtain ⟨ws, h⟩ := hw
    refine wp_mono (works_quiet trivial h) (fun r _ hr => ?_)
    cases r with
    | ok _ => exact ⟨ws, hr⟩
    | error _ => exact hr

theorem works_commit : Works lim t Uow.commit (fun _ _ => True) w := by
  refine solo_handle (Ends (fun _ _ => True) (fun _ _ => False))
    (works_op (fun ch r w' hf hl hd => ?_)) (fun _ _ hw => hw) (fun _ _ hw => hw.elim)
  cases hd with
  | fault => exact absurd rfl (hf _)
  | lostCommit => exact absurd rfl (hl _)
  | commit => exact ⟨(), rfl, trivial⟩

theorem works_within {body : Service α} {P : α → Prop}
    (h : Works lim t body (fun a _ => P a) w) :
    Works lim t (Uow.within body) (fun a _ => P a) w := by
  refine wp_within h (fun _ _ hw => hw.elim) (fun a w ha => ?_) (fun _ _ hw => hw.elim)
  refine works_op (fun ch r w' hf _ hd => ?_)
  cases hd with
  | fault => exact absurd rfl (hf _)
  | close => exact ⟨(), rfl, ha⟩

theorem works_publish {e : PaymentEvent} {body : Json} {q : RabbitQueue}
    (hq : EventBus.queueRegistry e.cls = some q) (hp : parseEventToMessage e = .ok body) :
    Works lim t (EventBus.publishPaymentEvents [e]) (fun _ _ => True) w := by
  refine solo_then (P := fun _ _ => True) ?_ (fun _ _ _ => trivial)
  unfold EventBus.publishPaymentEvent
  simp only [hq, hp]
  refine solo_handle (Ends (fun _ _ => True) (fun _ _ => False))
    (works_op (fun ch r w' hf hl hd => ?_)) (fun _ _ hw => hw) (fun _ _ hw => hw.elim)
  cases hd with
  | fault => exact absurd rfl (hf _)
  | lostPublish => exact absurd rfl (hl _)
  | publish => exact ⟨(), rfl, trivial⟩

/-- A command that can be accepted is answered when nothing fails. -/
theorem works_create_payment {command : CreatePaymentCommand} {parts : PaymentParts}
    (ha : Acceptable w.db command parts) (hp : w.pend t = []) :
    Works lim t (createPayment command) (fun _ _ => True) w := by
  simp only [createPayment, Prog.bind_eq, Prog.pure_eq]
  rw [ha.valid, Prog.ofExcept_ok_bind]
  have hkey := idempotency_key_value (parts_ok ha.valid).2.1
  refine solo_then (P := fun x _ => ∃ pid eventId occurredAt,
    x.2 = [createdEvent pid eventId occurredAt]) (works_within ?_) ?_
  · refine solo_then (works_service_create (.refl hp) (fun r hr => hkey ▸ ha.key r hr) ha.amount
      ha.metadata) (fun p w₁ hw => ?_)
    obtain ⟨row, eventId, occurredAt, hev, hnew, h⟩ := hw
    simp only [Payment.pullEvents, hev]
    refine solo_then (works_add_event (created_stored row.id eventId occurredAt) h)
      (fun _ w₁ h => ?_)
    exact solo_then works_commit (fun _ _ _ => ⟨_, _, _, rfl⟩)
  · rintro ⟨p, events⟩ w ⟨pid, eventId, occurredAt, rfl⟩
    have hst := created_stored pid eventId occurredAt
    exact solo_then (works_publish rfl (created_published _ _ _ hst)) (fun _ _ _ => trivial)

section Count

omit [Externals]

theorem commit_once : Uow.commit.AtMost (fun op => op.isCommit = true) 1 := by
  refine Prog.AtMost.handle (m := 1) (n := 0) Prog.atMost_perform (fun e => ?_)
  refine Prog.Only.atMost ?_
  split
  · exact Prog.Only.bind (only_op (by simp [Op.isCommit])) (fun _ => trivial)
  · exact Prog.Only.bind (only_op (by simp [Op.isCommit])) (fun _ => trivial)
  · trivial

theorem within_once {n : Nat} {body : Service α}
    (h : body.AtMost (fun op => op.isCommit = true) n) :
    (Uow.within body).AtMost (fun op => op.isCommit = true) n := by
  refine Prog.AtMost.bind (n := 0) h.outcome (fun r => Prog.Only.atMost ?_)
  refine Prog.Only.bind ?_ (fun _ => Prog.Only.bind (only_op (by simp [Op.isCommit]))
    (fun _ => Prog.only_ofExcept r))
  cases r with
  | ok _ => trivial
  | error _ => exact only_rollback (by simp [Op.isCommit])

end Count

/-- A call makes one commit at most. -/
theorem create_payment_once (command : CreatePaymentCommand) :
    (createPayment command).AtMost (fun op => op.isCommit = true) 1 := by
  simp only [createPayment, Prog.bind_eq, Prog.pure_eq]
  cases command.parts with
  | error e => trivial
  | ok parts =>
    rw [Prog.ofExcept_ok_bind]
    refine Prog.AtMost.bind (m := 1) (n := 0) (within_once ?_) (fun x => Prog.Only.atMost ?_)
    · refine Prog.AtMost.bind (m := 0) (n := 1) (Prog.Only.atMost ?_) (fun p => ?_)
      · refine (only_service_create _ _ _ _ _ _).mono (fun op ho => ?_)
        cases op <;> first | exact ho.elim | simp [Op.isCommit]
      · refine Prog.AtMost.bind (m := 0) (n := 1) (Prog.Only.atMost (only_add_events
          (by simp [Op.isCommit]) (by simp [Op.isCommit]) _)) (fun _ => ?_)
        exact Prog.AtMost.bind (m := 1) (n := 0) commit_once (fun _ => trivial)
    · exact Prog.Only.bind ((only_publish _).mono (by
        rintro _ ⟨_, _, rfl⟩
        simp [Op.isCommit])) (fun _ => trivial)

theorem commits_length {p : Service α} {ms : List (Op × Choice)} {r : Except Exc α} {w' : World}
    {n : Nat} (h : (service lim).Trail t p w ms r w')
    (hp : p.AtMost (fun op => op.isCommit = true) n) : (commits ms).length ≤ n := by
  rw [commits, List.length_map, ← List.countP_eq_length_filter]
  simpa using h.atMost hp

omit [Externals] in
theorem mem_commits {ms : List (Op × Choice)} {m : Op × Choice} (hm : m ∈ ms)
    (hc : m.1.isCommit = true) : m.2 ∈ commits ms :=
  List.mem_map.mpr ⟨m, List.mem_filter.mpr ⟨hm, hc⟩, rfl⟩

omit [Externals] in
theorem Op.eq_commit {op : Op} (h : op.isCommit = true) : op = .commit := by
  cases op <;> first | rfl | cases h

variable {command : CreatePaymentCommand} {parts : PaymentParts} {ms : List (Op × Choice)}
  {r : Except Exc CreatePaymentResponse} {w' : World} {s : Outages}

/-- A call whose commit does not fail creates the payment. -/
theorem call_works (ha : Acceptable w.db command parts) (hp : w.pend t = [])
    (hl : ∀ x, w.lock x ≠ some t) (h : (service lim).Trail t (createPayment command) w ms r w')
    (hs : OnlyCommitsFail t ms) (hc : commits ms <+: [.ok]) :
    commits ms = [.ok] ∧ (∃ response, r = .ok response) ∧
      ∃ o, w.db.AddsPayment command o w'.db := by
  have hdrop : w.drop t = w := by
    simp [World.drop, hl, hp.symm]
  have hworks : ∀ m ∈ ms, ∀ w : World, works (.run t m.1 m.2) = true := by
    intro m hm _
    cases hi : m.1.isCommit with
    | false => exact hs m hm hi
    | true =>
      have hok : m.2 = .ok := List.mem_singleton.mp (hc.subset (mem_commits hm hi))
      rw [hok]
      rfl
  obtain ⟨response, rfl⟩ : ∃ response, r = .ok response := by
    have hr := Runs.alone (h.runs hworks) (works_create_payment ha hp)
    cases r with
    | ok response => exact ⟨response, rfl⟩
    | error e => exact hr.elim
  have hadds : ∃ o, w.db.AddsPayment command o w'.db := by
    have hrun : Sys.Runs (service lim) (fun _ _ => True) t (createPayment command) w (.ok response)
        w' :=
      h.runs (fun _ _ _ => trivial)
    cases Runs.alone hrun (solo_create_payment command hp hdrop) with
    | @stored _ o _ _ hst =>
      obtain ⟨w₁, ws, hd, hC, rfl⟩ := hst
      exact ⟨o, by simpa [World.view, hd.pend, hd.db] using hC.adds⟩
    | @published _ o v _ _ _ _ hst =>
      obtain ⟨w₁, ws, hd, hC, rfl⟩ := hst
      exact ⟨o, by simpa [World.view, hd.pend, hd.db] using hC.adds⟩
  refine ⟨?_, ⟨response, rfl⟩, hadds⟩
  -- without a commit the tables would be the same
  rcases List.prefix_cons_iff.mp hc with hnone | ⟨cs, hcs, hpre⟩
  · exfalso
    have hdb : w'.db = w.db := by
      refine h.unchanged (P := fun op => op ≠ .commit) (fun op ch v r v' ho he => ?_)
        (fun m hm he => ?_)
      · exact World.does_db (World.exec_does he) ho
      · have := mem_commits hm (by rw [he]; rfl)
        rw [hnone] at this
        cases this
    obtain ⟨o, row, _, _, _, _, hrows, _⟩ := hadds
    rw [hdb] at hrows
    have := congrArg List.length hrows
    simp at this
  · rw [hcs, List.prefix_nil.mp hpre]

/-- Where a command can be accepted, a call copes with the failures of its commits exactly when
there are none. -/
theorem transient_failures_retried (ha : Acceptable w.db command parts) (hp : w.pend t = [])
    (hl : ∀ x, w.lock x ≠ some t)
    (h : (service lim).Trail t (callCreatePayment command) w ms r w') (hs : OnlyCommitsFail t ms)
    (hc : commits ms <+: s.outcomes) : s.Retried command w ms r w' ↔ s.failures = [] := by
  rw [call_create_payment] at h
  constructor
  · rintro ⟨hall, _⟩
    have hone : (commits ms).length ≤ 1 := commits_length h (create_payment_once command)
    rw [hall, Outages.outcomes, List.length_append, List.length_map] at hone
    refine List.eq_nil_of_length_eq_zero ?_
    split at hone
    · simpa using hone
    · omega
  · intro hnone
    have hout : s.outcomes = [.ok] := by simp [Outages.outcomes, hnone]
    rw [hout] at hc
    obtain ⟨h₁, h₂, h₃⟩ := call_works ha hp hl h hs hc
    refine ⟨h₁.trans hout.symm, ?_⟩
    rw [if_pos (by simp [hnone])]
    exact ⟨h₂, h₃⟩

end

/-- The commit fails in a given way, and no other effect does. -/
def commitsFail (ch : Choice) (_ : World) : Move Op Choice Req Env → Bool
  | .run _ .commit ch' => match ch, ch' with
    | .ok, .ok => true
    | .fault .operational, .fault .operational => true
    | _, _ => false
  | m => works m

theorem commitsFail_choice {ch ch' : Choice} {w : World} {t : Tid}
    (h : commitsFail ch w (.run t .commit ch') = true) : ch' = ch := by
  simp only [commitsFail] at h
  split at h <;> first | rfl | cases h

/-- A run in which each commit has the same outcome. -/
theorem trail_of_commits [Externals] {lim : Limits} {ch : Choice} {cs : List Choice} {t : Tid}
    {command : CreatePaymentCommand} {chs : List Choice} {w : World}
    {x : Except Exc CreatePaymentResponse × World}
    (h : (service lim).alone? (commitsFail ch) t chs (callCreatePayment command) w = some x) :
    ∃ ms, (service lim).Trail t (callCreatePayment command) w ms x.1 x.2 ∧ OnlyCommitsFail t ms ∧
      commits ms <+: ch :: cs := by
  obtain ⟨ms, ht, hms⟩ := Sys.trail_of_alone h
  have hone : (commits ms).length ≤ 1 :=
    commits_length ht (call_create_payment command ▸ create_payment_once command)
  refine ⟨ms, ht, fun m hm hi => ?_, ?_⟩
  · obtain ⟨v, hv⟩ := hms m hm
    obtain ⟨op, ch'⟩ := m
    cases op <;> first | exact hv | cases hi
  · have hall : ∀ c ∈ commits ms, c = ch := by
      intro c hc
      obtain ⟨⟨op, ch'⟩, hm, rfl⟩ := List.mem_map.mp hc
      obtain ⟨hm, hi⟩ := List.mem_filter.mp hm
      obtain ⟨v, hv⟩ := hms _ hm
      rw [Op.eq_commit hi] at hv
      exact commitsFail_choice hv
    cases hcs : commits ms with
    | nil => exact List.nil_prefix
    | cons c rest =>
      rw [hcs] at hone hall
      obtain rfl : rest = [] := List.eq_nil_of_length_eq_zero (by simpa using hone)
      rw [hall c List.mem_cons_self]
      exact ⟨cs, rfl⟩

/-- The choices of a creation up to its commit. -/
def uncommitted : List Choice :=
  [.ok, .uuid (uid 10), .time sampleTime, .uuid (uid 11), .time sampleTime] ++
    List.replicate 5 .ok

/-- A creation whose commit works. -/
def commitWorks : Option (Except Exc CreatePaymentResponse × World) :=
  (sampleService {}).alone? (commitsFail .ok) 0 (uncommitted ++ List.replicate 3 .ok)
    (@callCreatePayment sample (sampleCommand (uid 1))) {}

/-- A creation whose commit fails. -/
def commitFails : Option (Except Exc CreatePaymentResponse × World) :=
  (sampleService {}).alone? (commitsFail (.fault .operational)) 0
    (uncommitted ++ [.fault .operational] ++ List.replicate 3 .ok)
    (@callCreatePayment sample (sampleCommand (uid 1))) {}

set_option maxRecDepth 20000 in
theorem commitWorks_some : commitWorks.isSome = true := by decide +kernel

set_option maxRecDepth 20000 in
theorem commitFails_some : commitFails.isSome = true := by decide +kernel

theorem sample_acceptable : ∃ parts, @Acceptable sample .empty (sampleCommand (uid 1)) parts :=
  ⟨_, @Acceptable.mk sample _ _ _ rfl (by decide) ⟨_, rfl⟩ (fun _ h => by cases h)⟩

theorem transient_failures_retried_cases :
    (∃ ms r w',
      (sampleService {}).Trail 0 (@callCreatePayment sample (sampleCommand (uid 1))) {} ms r w' ∧
        (⟨[], Nat.zero_le 3⟩ : Outages).Retried (sampleCommand (uid 1)) {} ms r w') ∧
    ∃ ms r w',
      (sampleService {}).Trail 0 (@callCreatePayment sample (sampleCommand (uid 1))) {} ms r w' ∧
        ¬ (⟨[.unavailable], by decide⟩ : Outages).Retried (sampleCommand (uid 1)) {} ms r w' := by
  obtain ⟨parts, ha⟩ := sample_acceptable
  constructor
  · obtain ⟨ms, ht, hs, hc⟩ := @trail_of_commits sample _ _ [] _ _ _ _ _
      (Option.some_get commitWorks_some).symm
    exact ⟨ms, _, _, ht, (@transient_failures_retried sample {} 0 {} _ parts ms _ _
      ⟨[], Nat.zero_le 3⟩ ha rfl (fun _ h => by cases h) ht hs hc).mpr rfl⟩
  · obtain ⟨ms, ht, hs, hc⟩ := @trail_of_commits sample _ _ [.ok] _ _ _ _ _
      (Option.some_get commitFails_some).symm
    refine ⟨ms, _, _, ht, fun h => ?_⟩
    cases (@transient_failures_retried sample {} 0 {} _ parts ms _ _
      ⟨[.unavailable], by decide⟩ ha rfl (fun _ h => by cases h) ht hs hc).mp h

theorem commitFails_error : (commitFails.get commitFails_some).1.toOption.isNone = true := by
  decide +kernel

theorem transient_failure_not_retried : ∃ ms r w',
    (sampleService {}).Trail 0 (@callCreatePayment sample (sampleCommand (uid 1))) {} ms r w' ∧
      OnlyCommitsFail 0 ms ∧ commits ms <+: (⟨[.unavailable], by decide⟩ : Outages).outcomes ∧
      ¬ (⟨[.unavailable], by decide⟩ : Outages).Retried (sampleCommand (uid 1)) {} ms r w' := by
  obtain ⟨ms, ht, hs, hc⟩ := @trail_of_commits sample _ _ [.ok] _ _ _ _ _
    (Option.some_get commitFails_some).symm
  refine ⟨ms, _, _, ht, hs, hc, ?_⟩
  rintro ⟨_, hr⟩
  rw [if_pos (by decide)] at hr
  obtain ⟨⟨response, hr⟩, _⟩ := hr
  have herr := commitFails_error
  rw [hr] at herr
  cases herr

end Payments
