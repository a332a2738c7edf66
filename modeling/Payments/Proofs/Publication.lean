import Payments.Proofs.Agreement

namespace Payments

open Lib

/-- The message carries the identifier, the queue and the payload of a committed event of a
committed payment. -/
def Message.Genuine (m : Message) (db : Db) : Prop :=
  ∃ o ∈ db.outbox.rows, m.body.text "id" = some o.id.str ∧ m.body.text "queue" = some o.queue ∧
    m.body.member "payload" = some o.payload ∧ ∃ r ∈ db.payments.rows, o.Names r.id

theorem Message.Carried.genuine {m : Message} {db : Db} (h : m.Carried db) (ha : db.Agree) :
    m.Genuine db := by
  obtain ⟨o, ho, hb⟩ := h
  obtain ⟨r, hr, hn⟩ := ha.origin o ho
  refine ⟨o, ho, ?_, ?_, ?_, r, hr, hn.elim (fun h => h.names) (fun h => h.2.names)⟩
  · simp [hb, OutboxRow.body, Json.text]
  · simp [hb, OutboxRow.body, Json.text]
  · simp [hb, OutboxRow.body]

theorem Carries.genuine {db : Db} {q : RabbitQueue} {m : Message} (h : Carries db q m)
    (ha : db.Agree) : m.Genuine db := by
  obtain ⟨_, o, ho, hb, _⟩ := h
  exact Message.Carried.genuine ⟨o, ho, hb⟩ ha

section

variable [Externals] {lim : Limits} {c c' : Config World Op Op.Res Exc Reply}
  {mv : Move Op Choice Req Env}

/-- Each notification that a run sends tells the truth about a settled payment. -/
theorem notifications_truthful (h : Reachable lim c) :
    ∀ t url payload, (t, .posted url payload) ∈ c.shared.trace →
      Truthful c.shared.db url payload :=
  (reachable_holds h).inv.posted

/-- A step publishes only messages that carry events committed before it. -/
theorem step_publishes (h : Reachable lim c) (hs : (service lim).Step c mv c') :
    ∃ new, c'.shared.trace = new ++ c.shared.trace ∧
      ∀ u x k m, (u, .accepted x k m) ∈ new → m.Carried c.shared.db := by
  have hw := (contract_valid.holds_step (reachable_holds h) trivial hs).2
  cases hs with
  | run => exact hw.published
  | exit => exact hw.published
  | start => exact hw.published
  | kill => exact hw.published
  | @env e s he =>
    refine ⟨[], ?_, fun _ _ _ _ h => by cases h⟩
    cases e with
    | expire i =>
      obtain ⟨d, _, hd⟩ := Option.bind_eq_some_iff.mp he
      obtain ⟨args, _, rfl⟩ := Option.map_eq_some_iff.mp hd
      rfl
    | requeue t =>
      obtain ⟨d, _, rfl⟩ := Option.map_eq_some_iff.mp he
      rfl
    | duplicate i =>
      simp only [service, World.environment, World.duplicate] at he
      split at he
      · cases he
        rfl
      · cases he

/-- The broker has accepted only messages that carry a committed event. -/
theorem accepted_carried (h : Reachable lim c) : ∀ t x k m,
    (t, .accepted x k m) ∈ c.shared.trace → m.Carried c.shared.db := by
  induction h with
  | init => exact fun _ _ _ _ hm => absurd hm List.not_mem_nil
  | step hr ha hs ih =>
    have hgrows := @reach_grows _ lim _ _ (fun _ _ => True) hr (.step .init ha hs)
    obtain ⟨new, hn, hnew⟩ := step_publishes hr hs
    intro t x k m hm
    rw [hn] at hm
    rcases List.mem_append.mp hm with hm | hm
    · exact (hnew t x k m hm).grows hgrows
    · exact (ih t x k m hm).grows hgrows

/-- Every message that a step of a run makes the broker accept carries an event that was
committed before the step, and every message that waits, is being handled or was delivered
names a committed event and a committed payment. -/
theorem no_phantom_events (h : Reachable lim c) (hs : (service lim).Step c mv c') :
    (∃ new, c'.shared.trace = new ++ c.shared.trace ∧
      ∀ t x k m, (t, .accepted x k m) ∈ new → m.Genuine c.shared.db) ∧
    (∀ d ∈ c'.shared.ready, d.2.Genuine c'.shared.db) ∧
    (∀ d ∈ c'.shared.unacked, d.2.2.Genuine c'.shared.db) ∧
    ∀ t q m, (t, .delivered q m) ∈ c'.shared.trace → m.Genuine c'.shared.db := by
  have hi := (reachable_holds h).inv
  have hi' := (reachable_holds (h.step trivial hs)).inv
  obtain ⟨new, hn, ha⟩ := step_publishes h hs
  exact ⟨⟨new, hn, fun t x k m hm => (ha t x k m hm).genuine hi.agree⟩,
    fun d hd => (hi'.ready d hd).genuine hi'.agree,
    fun d hd => (hi'.unacked d hd).genuine hi'.agree,
    fun t q m hm => (hi'.delivered t q m hm).genuine hi'.agree⟩

end

/-- The settled payment, whose notification is delivered. -/
def notifiedRun : Schedule := settledRun ++ notifyRun 2 0

set_option maxRecDepth 20000 in
theorem notifiedRun_some : (after {} notifiedRun).isSome = true := by decide +kernel

/-- The payloads that a run has posted. -/
def World.posts (w : World) : List (String × List (String × PyVal)) :=
  w.trace.filterMap (fun d => match d.2 with
    | .posted url payload => some (url, payload)
    | _ => none)

theorem World.mem_posts {w : World} {url : String} {payload : List (String × PyVal)}
    (h : (url, payload) ∈ w.posts) : ∃ t, (t, .posted url payload) ∈ w.trace := by
  obtain ⟨⟨t, o⟩, hm, ho⟩ := List.mem_filterMap.mp h
  cases o <;> cases ho
  exact ⟨t, hm⟩

set_option maxRecDepth 20000 in
theorem notifications_truthful_notified : ∃ c, @Reachable sample {} c ∧
    ∃ url payload, (url, payload) ∈ c.shared.posts ∧ Truthful c.shared.db url payload := by
  have hr := reachable_after notifiedRun_some
  have hp : ((after {} notifiedRun).get notifiedRun_some).shared.posts ≠ [] := by
    intro h
    have hl := congrArg List.length h
    revert hl
    decide +kernel
  obtain ⟨⟨url, payload⟩, hm⟩ := List.exists_mem_of_ne_nil _ hp
  obtain ⟨t, ht⟩ := World.mem_posts hm
  exact ⟨_, hr, url, payload, hm, @notifications_truthful sample _ _ hr t url payload ht⟩

/-- A creation that has committed and is about to publish. -/
def committedRun : Schedule := (createRun 0 (uid 1) (uid 10) (uid 11)).take 13

set_option maxRecDepth 20000 in
theorem committedRun_some : (after {} committedRun).isSome = true := by decide +kernel

/-- The publish of the creation. -/
def publishing : Option (Move Op Choice Req Env × Config World Op Op.Res Exc Reply) :=
  (sampleService {}).next? ((after {} committedRun).get committedRun_some) (.run 0 .ok)

set_option maxRecDepth 20000 in
theorem publishing_some : publishing.isSome = true := by decide +kernel

set_option maxRecDepth 20000 in
theorem no_phantom_events_created : ∃ c d, @Reachable sample {} c ∧
    d ∈ (publishing.get publishing_some).2.shared.ready ∧
    d.2.Genuine (publishing.get publishing_some).2.shared.db := by
  have hr := reachable_after committedRun_some
  have hs := Sys.step_of_next (Option.some_get publishing_some).symm
  have hready : (publishing.get publishing_some).2.shared.ready ≠ [] := by
    intro h
    have hl := congrArg List.length h
    revert hl
    decide +kernel
  obtain ⟨d, hd⟩ := List.exists_mem_of_ne_nil _ hready
  exact ⟨_, d, hr, hd, (@no_phantom_events sample _ _ _ _ hr hs).2.1 d hd⟩

end Payments
