import Payments.Proofs.Responses

namespace Payments

open Lib

/-- The calls on the database of a unit of work: each `execute`, each `flush` and the commit. -/
def Op.isCall : Op → Bool
  | .rollback | .close => false
  | op => op.onDatabase

/-- The exceptions of an outage, with what the claim of the service calls them. -/
def Exc.Classifies : Exc → Exc → Prop
  | .sqlTimeout, .repositoriesExhausted _ => True
  | .operational, .repositoriesUnavailable _ _ => True
  | _, _ => False

/-- The call raises this exception, whether it took effect or not. -/
def Choice.Raises (ch : Choice) (e : Exc) : Prop := ch = .fault e ∨ ch = .lost e

theorem classifies_unavailable {e e' : Exc} (h : e.Classifies e') :
    ∃ r, e'.response = some r ∧ r.status = 503 := by
  cases e <;> cases e' <;> first | exact h.elim | exact ⟨_, rfl, rfl⟩

theorem classifies_database {e e' : Exc} (h : e'.isDatabase = true) : ¬ e.Classifies e' := by
  intro hc
  cases e' with
  | repositoriesExhausted | repositoriesUnavailable => cases h
  | _ => cases e <;> exact hc

section

variable [Externals] {lim : Limits} {t : Tid}

theorem exec_raises {op : Op} {ch : Choice} {e : Exc} (h : ch.Raises e) {w w' : World}
    {r : Except Exc op.Res} (he : (service lim).exec t op ch w = some (r, w')) : r = .error e := by
  have hd := @World.exec_does lim t op ch w w' r he
  rcases h with rfl | rfl <;> cases hd <;> rfl

omit [Externals] in
theorem straight_add_events (events : List PaymentEvent) :
    (OutboxRepository.add events).Straight := by
  unfold OutboxRepository.add
  split
  · trivial
  · exact Prog.Straight.bind (Prog.straight_ofExcept _) (fun _ =>
      Prog.Straight.bind (Prog.straight_perform _) (fun _ => Prog.straight_perform _))

omit [Externals] in
theorem straight_getById (id : PaymentID) : (PaymentRepository.getById id).Straight := by
  refine Prog.Straight.bind (Prog.straight_perform _) (fun row => ?_)
  cases row with
  | none => trivial
  | some row => exact Prog.straight_ofExcept _

omit [Externals] in
theorem straight_service_create (amount : Amount) (currency : Currency) (description : Description)
    (metadata : Metadata) (key : IdempotencyKey) (webhookUrl : WebhookUrl) :
    (PaymentService.create amount currency description metadata key webhookUrl).Straight := by
  have hop : ∀ op : Op, (perform op).Straight := fun op => Prog.straight_perform op
  refine Prog.Straight.bind (Prog.Straight.bind (hop _) (fun row => ?_)) (fun existing => ?_)
  · cases row with
    | none => trivial
    | some row => exact Prog.Straight.bind (Prog.straight_ofExcept _) (fun _ => trivial)
  cases existing with
  | some _ => trivial
  | none =>
    refine Prog.Straight.bind (hop _) (fun id => Prog.Straight.bind (hop _) (fun createdAt =>
      Prog.Straight.bind (hop _) (fun eventId => Prog.Straight.bind (hop _) (fun occurredAt =>
        Prog.Straight.bind (Prog.straight_ofExcept _) (fun payment =>
          Prog.Straight.bind ?_ (fun _ => trivial))))))
    refine Prog.Straight.bind (hop _) (fun existing => ?_)
    cases existing with
    | some _ => trivial
    | none => exact Prog.Straight.bind (hop _) (fun _ => hop _)

/-- The commit of a unit of work in an outage: it rolls back, and classifies the exception if
that works. -/
theorem commit_outage {ms : List (World × Op × Choice)} {r : Except Exc Unit} {w : World}
    {op : Op} {ch : Choice} {e : Exc} (h : Sys.Course (service lim) t Uow.commit ms r)
    (hm : (w, op, ch) ∈ ms) (hop : op.isCall = true) (hch : ch.Raises e)
    (he : e = .sqlTimeout ∨ e = .operational) : op = .commit ∧ ∃ w' ch' e',
      ms = [(w, .commit, ch), (w', .rollback, ch')] ∧ r = .error e' ∧
        (ch' = .ok ∧ e.Classifies e' ∨ ch' = .fault e' ∧ e'.isDatabase = true) := by
  rcases h.of_handle with ⟨a, hc, rfl⟩ | ⟨e₁, ms₁, ms₂, rfl, hc, hr⟩
  · obtain ⟨w₁, ch₁, _, rfl, hexec⟩ := hc.of_perform
    cases List.mem_singleton.mp hm
    cases exec_raises hch hexec
  obtain ⟨w₁, ch₁, _, rfl, hexec⟩ := hc.of_perform
  -- what follows the commit is a rollback, so the call is the commit
  have hafter : ∀ m ∈ ms₂, m.2.1 = .rollback := by
    refine hr.of_only (P := fun op => op = .rollback) ?_
    cases e₁ <;> first | trivial | exact ⟨rfl, fun r => by cases r <;> trivial⟩
  obtain ⟨rfl, rfl, rfl⟩ : w = w₁ ∧ op = .commit ∧ ch = ch₁ := by
    rcases List.mem_append.mp hm with hm | hm
    · cases List.mem_singleton.mp hm
      exact ⟨rfl, rfl, rfl⟩
    · cases hafter _ hm
      cases hop
  cases exec_raises hch hexec
  refine ⟨rfl, ?_⟩
  have hrollback : ∀ {e'}, Sys.Course (service lim) t
      ((perform .rollback).bind (fun _ => (.raise e' : Service Unit))) ms₂ r → e.Classifies e' →
        ∃ w' ch' e',
        [(w, .commit, ch)] ++ ms₂ = [(w, .commit, ch), (w', .rollback, ch')] ∧ r = .error e' ∧
          (ch' = .ok ∧ e.Classifies e' ∨ ch' = .fault e' ∧ e'.isDatabase = true) := by
    intro e' hr hcls
    rcases hr.of_bind with ⟨_, ms₃, ms₄, rfl, hp, hraise⟩ | ⟨e₂, hp, rfl⟩
    · obtain ⟨w', ch', _, rfl, hexec'⟩ := hp.of_perform
      cases hraise
      cases World.exec_does hexec'
      exact ⟨w', .ok, e', rfl, rfl, .inl ⟨rfl, hcls⟩⟩
    · obtain ⟨w', ch', _, rfl, hexec'⟩ := hp.of_perform
      cases World.exec_does hexec' with
      | fault hf => exact ⟨w', .fault e₂, e₂, rfl, rfl, .inr ⟨rfl, hf⟩⟩
  rcases he with rfl | rfl
  · exact hrollback hr trivial
  · exact hrollback hr trivial

omit [Externals] in
/-- What `createPayment` does in its unit of work. -/
def registration (parts : PaymentParts) : Service (Payment × List PaymentEvent) := do
  let payment ← PaymentService.create parts.amount parts.currency parts.description
    parts.metadata parts.key parts.webhookUrl
  let (events, payment) := payment.pullEvents
  OutboxRepository.add events
  Uow.commit
  pure (payment, events)

theorem create_payment_eq {command : CreatePaymentCommand} {parts : PaymentParts}
    (h : command.parts = .ok parts) : createPayment command =
      (Uow.within (registration parts)).bind (fun x =>
        (EventBus.publishPaymentEvents x.2).bind (fun _ =>
          .ret (CreatePaymentResponse.fromDomain x.1))) := by
  simp only [createPayment, h, Prog.bind_eq, Prog.ofExcept_ok_bind]
  rfl

/-- The effects of a part of a transaction that does not commit. -/
def Uncommitted (ms : List (World × Op × Choice)) : Prop := ∀ m ∈ ms, m.2.1 ≠ .commit

omit [Externals] in
theorem Uncommitted.append {ms ms' : List (World × Op × Choice)} (h : Uncommitted ms)
    (h' : Uncommitted ms') : Uncommitted (ms ++ ms') := fun m hm =>
  (List.mem_append.mp hm).elim (h m) (h' m)

omit [Externals] in
theorem uncommitted_of_only {α : Type} {p : Service α} {ms : List (World × Op × Choice)}
    {S : Sys World Op Op.Res Exc Reply Choice Req Env} {r : Except Exc α}
    (h : Sys.Course S t p ms r) (hp : p.Only (fun op => op ≠ .commit)) : Uncommitted ms :=
  h.of_only hp

omit [Externals] in
theorem uncommitted_service_create (parts : PaymentParts) :
    (PaymentService.create parts.amount parts.currency parts.description parts.metadata parts.key
      parts.webhookUrl).Only (fun op => op ≠ .commit) := by
  refine (only_service_create _ _ _ _ _ _).mono ?_
  rintro op hop rfl
  exact hop

omit [Externals] in
theorem uncommitted_add_events (events : List PaymentEvent) :
    (OutboxRepository.add events).Only (fun op => op ≠ .commit) :=
  only_add_events (fun _ => by simp) (by simp) events

/-- A call of a transaction that raises, other than its commit, ends it with its exception. -/
theorem registration_fails {parts : PaymentParts} {ms : List (World × Op × Choice)}
    {r : Except Exc (Payment × List PaymentEvent)} {w : World} {op : Op} {ch : Choice} {e : Exc}
    (h : Sys.Course (service lim) t (registration parts) ms r) (hm : (w, op, ch) ∈ ms)
    (hop : op.isCall = true) (hne : op ≠ .commit)
    (he : ∀ r w', (service lim).exec t op ch w = some (r, w') → r = .error e) :
    r = .error e ∧ Uncommitted ms := by
  have hcreate := uncommitted_service_create parts
  have hraise : ∀ {α : Type} {p : Service α} {ms y}, Sys.Course (service lim) t p ms y →
      p.Straight → (w, op, ch) ∈ ms → y = .error e := fun h hp hm => h.of_straight hp hm he
  rcases h.of_bind with ⟨payment, ms₁, ms', rfl, h₁, h'⟩ | ⟨e₁, h₁, rfl⟩
  swap
  · cases hraise h₁ (straight_service_create _ _ _ _ _ _) hm
    exact ⟨rfl, uncommitted_of_only h₁ hcreate⟩
  have hm' : (w, op, ch) ∈ ms' := (List.mem_append.mp hm).resolve_left (fun hm => by
    cases hraise h₁ (straight_service_create _ _ _ _ _ _) hm)
  have hu₁ := uncommitted_of_only h₁ hcreate
  rcases h'.of_bind with ⟨_, ms₂, ms₃, rfl, h₂, h₃⟩ | ⟨e₂, h₂, rfl⟩
  swap
  · cases hraise h₂ (straight_add_events _) hm'
    exact ⟨rfl, hu₁.append (uncommitted_of_only h₂ (uncommitted_add_events _))⟩
  have hm₃ : (w, op, ch) ∈ ms₃ := (List.mem_append.mp hm').resolve_left (fun hm => by
    cases hraise h₂ (straight_add_events _) hm)
  -- what follows is the commit, with a rollback if it fails
  have hend := only_commit (P := fun op => op = .commit ∨ op = .rollback) (.inl rfl) (.inr rfl)
  rcases h₃.of_only (Prog.Only.bind hend (fun _ => trivial)) _ hm₃ with hc | hc
  · exact absurd hc hne
  · rw [show op = .rollback from hc] at hop
    cases hop

/-- A call of a creation in an outage, where the transaction has come to it: the transaction has
not committed and ends with the exception, or the call is its commit and it ends as that does. -/
theorem registration_outage {parts : PaymentParts} {ms : List (World × Op × Choice)}
    {r : Except Exc (Payment × List PaymentEvent)} {w : World} {op : Op} {ch : Choice} {e : Exc}
    (h : Sys.Course (service lim) t (registration parts) ms r) (hm : (w, op, ch) ∈ ms)
    (hop : op.isCall = true) (hch : ch.Raises e) (he : e = .sqlTimeout ∨ e = .operational) :
    op ≠ .commit ∧ r = .error e ∧ Uncommitted ms ∨
      op = .commit ∧ ∃ ms₁ w' ch' e', Uncommitted ms₁ ∧
        ms = ms₁ ++ [(w, .commit, ch), (w', .rollback, ch')] ∧ r = .error e' ∧
        (ch' = .ok ∧ e.Classifies e' ∨ ch' = .fault e' ∧ e'.isDatabase = true) := by
  by_cases hc : op = .commit
  swap
  · exact .inl ⟨hc, registration_fails h hm hop hc (fun _ _ => exec_raises hch)⟩
  -- the commit is in neither of the parts before it
  rcases h.of_bind with ⟨payment, ms₁, ms', rfl, h₁, h'⟩ | ⟨e₁, h₁, rfl⟩
  swap
  · exact absurd hc (uncommitted_of_only h₁ (uncommitted_service_create parts) _ hm)
  have hu₁ := uncommitted_of_only h₁ (uncommitted_service_create parts)
  have hm' : (w, op, ch) ∈ ms' := (List.mem_append.mp hm).resolve_left (fun hm => hu₁ _ hm hc)
  rcases h'.of_bind with ⟨_, ms₂, ms₃, rfl, h₂, h₃⟩ | ⟨e₂, h₂, rfl⟩
  swap
  · exact absurd hc (uncommitted_of_only h₂ (uncommitted_add_events _) _ hm')
  have hu₂ := uncommitted_of_only h₂ (uncommitted_add_events _)
  have hm₃ : (w, op, ch) ∈ ms₃ := (List.mem_append.mp hm').resolve_left (fun hm => hu₂ _ hm hc)
  rcases h₃.of_bind with ⟨_, ms₄, ms₅, rfl, h₄, h₅⟩ | ⟨e₄, h₄, rfl⟩
  · cases h₅
    obtain ⟨_, _, _, _, _, hr, _⟩ := commit_outage h₄ (by simpa using hm₃) hop hch he
    cases hr
  · obtain ⟨hc, w', ch', e', rfl, hr, hcls⟩ := commit_outage h₄ hm₃ hop hch he
    cases hr
    exact .inr ⟨hc, ms₁ ++ ms₂, w', ch', e₄, hu₁.append hu₂, by simp, rfl, hcls⟩

omit [Externals] in
/-- A call is made in the body of its unit of work. -/
theorem call_in_body {α : Type} {r : Except Exc α} {ms₁ ms₂ : List (World × Op × Choice)}
    {w w' : World} {op : Op} {ch ch' : Choice} (hu : Undone r ms₂) (hop : op.isCall = true)
    (hm : (w, op, ch) ∈ ms₁ ++ (ms₂ ++ [(w', .close, ch')])) : (w, op, ch) ∈ ms₁ := by
  simp only [List.mem_append, List.mem_singleton, Prod.mk.injEq] at hm
  rcases hm with hm | hm | ⟨_, rfl, _⟩
  · exact hm
  · cases hu.rollbacks _ hm
    cases hop
  · cases hop

/-- A call of a creation that raises, other than its commit, ends it with its exception where the
session can be closed. -/
theorem create_fails {command : CreatePaymentCommand} {parts : PaymentParts}
    {ms : List (World × Op × Choice)} {x : Except Exc CreatePaymentResponse} {w : World} {op : Op}
    {ch : Choice} {e : Exc} (h : Sys.Course (service lim) t (createPayment command) ms x)
    (hvalid : command.parts = .ok parts) (hm : (w, op, ch) ∈ ms) (hop : op.isCall = true)
    (hne : op ≠ .commit)
    (he : ∀ r w', (service lim).exec t op ch w = some (r, w') → r = .error e)
    (hok : ∀ m ∈ ms, works (.run t m.2.1 m.2.2) = true) : x = .error e := by
  rw [create_payment_eq hvalid] at h
  have hclosed : ∀ {msw y}, Sys.Course (service lim) t (Uow.within (registration parts)) msw y →
      (∀ m ∈ msw, m ∈ ms) → (w, op, ch) ∈ msw → y = .error e := by
    intro msw y hw hsub hmem
    obtain ⟨r, ms₁, ms₂, w', ch', rfl, hbody, hu, hend⟩ := within_course hw
    cases (registration_fails hbody (call_in_body hu hop hmem) hop hne he).1
    rcases hend with ⟨_, rfl⟩ | ⟨e', rfl, _⟩
    · rfl
    · cases hok _ (hsub (w', .close, .fault e') (by simp))
  rcases h.of_bind with ⟨a, msw, msp, rfl, hw, hpub⟩ | ⟨e₁, hw, rfl⟩
  · rcases List.mem_append.mp hm with hmem | hmem
    · cases hclosed hw (fun _ hm => List.mem_append_left _ hm) hmem
    · obtain ⟨_, _, rfl⟩ := hpub.of_only (Prog.Only.bind (only_publish _) (fun _ => trivial)) _ hmem
      cases hop
  · cases hclosed hw (fun _ hm => hm) hm
    rfl

variable {c c₁ c' : Config World Op Op.Res Exc Reply}
  {ds : List (Config World Op Op.Res Exc Reply × Move Op Choice Req Env)}

/-- A commit that took effect although it raised is told. -/
theorem lost_committed {w : World} {e : Exc} (h : (service lim).Path c₁ ds c')
    (hm : (w, .commit, .lost e) ∈ Sys.own t ds) : ∃ ws, (t, .committed ws) ∈ c'.shared.trace := by
  obtain ⟨d, hd, _, he⟩ := Sys.mem_own.mp hm
  clear hm
  induction h with
  | init => cases hd
  | @step ds c c' m hpath hs ih =>
    rcases List.mem_cons.mp hd with rfl | hd
    · have hmove : m = .run t .commit (.lost e) := he
      subst hmove
      cases hs with
      | run _ hexec =>
        have hdoes := @World.exec_does lim t .commit (.lost e) _ _ _ hexec
        cases hdoes
        exact ⟨_, List.mem_cons_self⟩
    · obtain ⟨ws, hw⟩ := ih hd
      exact ⟨ws, step_seen hs _ hw⟩

/-- The outage is answered as one: the use case raises the exception for it, the response is 503,
and nothing is committed. -/
def Classified (t : Tid) (e : Exc) (x : Except Exc Reply) (w : World) : Prop :=
  (∃ e' r, x = .error e' ∧ e.Classifies e' ∧ e'.response = some r ∧ r.status = 503) ∧
    ∀ ws, (t, .committed ws) ∉ w.trace

omit [Externals] in
theorem Classified.not_database {e e' : Exc} {w : World} {x : Except Exc Reply}
    (hx : x = .error e') (he : e'.isDatabase = true) : ¬ Classified t e x w := by
  rintro ⟨⟨e'', r, h, hcls, _⟩, _⟩
  cases hx.symm.trans h
  exact classifies_database he hcls

/-- The last effects of the thread are its commit, the rollback of the commit and the end of the
session, and of these the rollback of the commit and the close of the session work. -/
def Recovered (t : Tid) (ds : List (Config World Op Op.Res Exc Reply × Move Op Choice Req Env)) :
    Prop :=
  ∃ ms w₁ ch₁ w₂ w₃ ch₃ w₄, Sys.own t ds = ms ++ [(w₁, .commit, ch₁), (w₂, .rollback, .ok),
    (w₃, .rollback, ch₃), (w₄, .close, .ok)]

/-- An outage that a call of a request meets is classified exactly where the call is the commit,
which did not take effect, and the session can be rolled back and closed. -/
theorem outages_classified {req : Req} {x : Except Exc Reply}
    {d : Config World Op Op.Res Exc Reply × Move Op Choice Req Env} {op : Op} {ch : Choice}
    {e : Exc} (h : Reachable lim c) (hreq : (∃ command, req = .create command) ∨ ∃ id, req = .get id)
    (hs : (service lim).Step c (.start t req) c₁) (h' : (service lim).Path c₁ ds c')
    (hx : .ended x ∈ c'.shared.story t) (hd : d ∈ ds) (hm : d.2 = .run t op ch)
    (hop : op.isCall = true) (hch : ch.Raises e) (he : e = .sqlTimeout ∨ e = .operational) :
    Classified t e x c'.shared ↔ op = .commit ∧ ch = .fault e ∧ Recovered t ds := by
  have hcall : (d.1.shared, op, ch) ∈ Sys.own t ds := Sys.mem_own.mpr ⟨d, hd, rfl, hm⟩
  have hdb : e.isDatabase = true := by rcases he with rfl | rfl <;> rfl
  obtain ⟨p, ⟨w, hp⟩, hlt, ht, hstory, _, htrace⟩ := started_fresh h hs
    (fun i hi => by rcases hreq with ⟨_, rfl⟩ | ⟨_, rfl⟩ <;> cases hi)
  have hcourse := ended_course h' hlt ht (by rw [hstory]; exact List.not_mem_nil) hx
  rcases hreq with ⟨command, rfl⟩ | ⟨id, rfl⟩
  swap
  · obtain ⟨rfl, _⟩ := Prod.mk.inj (Option.some.inj hp)
    have hnever : op ≠ .commit := by
      rintro rfl
      exact hcourse.of_only (Prog.Only.bind (only_get_payment id) (fun _ => trivial)) _ hcall
    refine ⟨fun hc => ?_, fun hc => absurd hc.1 hnever⟩
    cases hid : PaymentID.new (.uuid id) with
    | error e' =>
      simp only [getPayment, hid, Prog.bind_eq, Prog.ofExcept_error_bind] at hcourse
      generalize Sys.own t ds = ms at hcourse hcall
      cases hcourse
      cases hcall
    | ok payment_id =>
      simp only [getPayment, hid, Prog.bind_eq, Prog.pure_eq, Prog.ofExcept_ok_bind] at hcourse
      obtain ⟨_, hresponse, rfl⟩ := hcourse.of_map
      obtain ⟨_, hwithin, rfl⟩ := hresponse.of_map
      obtain ⟨r, ms₁, ms₂, w, ch', hown, hbody, hu, hend⟩ := within_course hwithin
      obtain rfl : r = .error e := hbody.of_straight (straight_getById _)
        (call_in_body hu hop (hown ▸ hcall)) (fun _ _ => exec_raises hch)
      rcases hend with ⟨_, rfl⟩ | ⟨e', _, he', rfl⟩
      · exact absurd hc (Classified.not_database rfl hdb)
      · exact absurd hc (Classified.not_database rfl he')
  · obtain ⟨rfl, _⟩ := Prod.mk.inj (Option.some.inj hp)
    obtain ⟨y, hcreate, rfl⟩ := hcourse.of_map
    cases hparts : command.parts with
    | error e' =>
      simp only [createPayment, hparts, Prog.bind_eq, Prog.ofExcept_error_bind] at hcreate
      generalize Sys.own t ds = ms at hcreate hcall
      cases hcreate
      cases hcall
    | ok parts =>
    rw [create_payment_eq hparts] at hcreate
    rcases hcreate.of_bind with ⟨a, msw, msp, hown, hw, hpub⟩ | ⟨e₁, hw, rfl⟩
    · exfalso
      rcases List.mem_append.mp (hown ▸ hcall) with hmem | hmem
      · obtain ⟨r, ms₁, ms₂, w, ch', rfl, hbody, hu, hend⟩ := within_course hw
        obtain ⟨_, rfl⟩ | ⟨_, _, _, hend⟩ := hend
        · rcases registration_outage hbody (call_in_body hu hop hmem) hop hch he with
            ⟨_, hr, _⟩ | ⟨_, _, _, _, _, _, _, hr, _⟩ <;> cases hr
        · cases hend
      · have hemit := hpub.of_only (Prog.Only.bind (only_publish _) (fun _ => trivial)) _ hmem
        obtain ⟨_, _, rfl⟩ := hemit
        cases hop
    obtain ⟨r, ms₁, ms₂, w, ch', hown, hbody, hu, hend⟩ := within_course hw
    rcases registration_outage hbody (call_in_body hu hop (hown ▸ hcall)) hop hch he with
      ⟨hnever, rfl, _⟩ | ⟨rfl, ms₀, w', ch₂, e₂, hu₀, rfl, rfl, hroll⟩
    · -- the exception of another call than the commit reaches the caller as it is
      refine ⟨fun hc => ?_, fun hc => absurd hc.1 hnever⟩
      rcases hend with ⟨_, hy⟩ | ⟨e', _, he', hy⟩ <;> cases hy
      · exact absurd hc (Classified.not_database rfl hdb)
      · exact absurd hc (Classified.not_database rfl he')
    · obtain ⟨w₃, ch₃, rfl⟩ := hu
      have hlast : Sys.own t ds = ms₀ ++ [(d.1.shared, .commit, ch), (w', .rollback, ch₂),
          (w₃, .rollback, ch₃), (w, .close, ch')] := by rw [hown]; simp
      constructor
      · intro hc
        have hfault : ch = .fault e := hch.resolve_right (fun hlost => by
          obtain ⟨ws, hws⟩ := lost_committed h' (hlost ▸ hcall)
          exact hc.2 ws hws)
        rcases hend with ⟨rfl, hy⟩ | ⟨e', _, he', hy⟩ <;> cases hy
        · rcases hroll with ⟨rfl, _⟩ | ⟨_, he₂⟩
          · exact ⟨rfl, hfault, ms₀, _, _, _, _, _, _, hlast⟩
          · exact absurd hc (Classified.not_database rfl he₂)
        · exact absurd hc (Classified.not_database rfl he')
      · rintro ⟨_, rfl, ms, w₁, ch₁, w₂, w₃', ch₃', w₄, heq⟩
        have htail := (List.append_inj' (hlast.symm.trans heq) rfl).2
        simp only [List.cons.injEq, Prod.mk.injEq, true_and, and_true] at htail
        obtain ⟨_, ⟨_, rfl⟩, _, _, rfl⟩ := htail
        have hcls : e.Classifies e₂ := by
          rcases hroll with ⟨_, hcls⟩ | ⟨hr, _⟩
          · exact hcls
          · cases hr
        rcases hend with ⟨_, hy⟩ | ⟨_, hc, _⟩
        swap
        · cases hc
        cases hy
        obtain ⟨r, hr, hstatus⟩ := classifies_unavailable hcls
        refine ⟨⟨_, r, rfl, hcls, hr, hstatus⟩, fun ws hws => ?_⟩
        -- the only commit of the thread is the one that fails
        obtain ⟨w'', ch'', hmem, hne⟩ := committed_own h' (htrace ws) hws
        rw [hlast] at hmem
        rcases List.mem_append.mp hmem with hmem | hmem
        · exact hu₀ _ hmem rfl
        · simp only [List.mem_cons, Prod.mk.injEq, List.not_mem_nil, or_false] at hmem
          rcases hmem with ⟨_, _, hch''⟩ | ⟨_, hop', _⟩ | ⟨_, hop', _⟩ | ⟨_, hop', _⟩
          · exact hne _ hch''
          all_goals cases hop'

end

/-- A creation of a thread that meets an outage at one of its calls. -/
def outageRun (as : Schedule) : Option (List (Config World Op Op.Res Exc Reply ×
    Move Op Choice Req Env) × Config World Op Op.Res Exc Reply) :=
  (sampleService {}).record as (@createConfig sample (Config.initial {}) (sampleCommand (uid 1)))

/-- A call of the first thread raises without effect. -/
def failsAt (p : Op → Bool) : Move Op Choice Req Env → Bool
  | .run 0 op (.fault .operational) => p op
  | _ => false

theorem eq_of_failsAt {p : Op → Bool} {m : Move Op Choice Req Env} (h : failsAt p m = true) :
    ∃ op, p op = true ∧ m = .run 0 op (.fault .operational) := by
  unfold failsAt at h
  split at h
  · exact ⟨_, h, rfl⟩
  · cases h

/-- The commit fails, and the rollback and the close work. -/
def commitRun : Schedule :=
  [.run 0 .ok, .run 0 (.uuid (uid 10))] ++ stamps 0 (uid 11) ++ oks 0 5 ++
    [.run 0 (.fault .operational)] ++ oks 0 3 ++ [.exit 0]

set_option maxRecDepth 20000 in
theorem commitRun_some : (outageRun commitRun).isSome = true := by decide +kernel

set_option maxRecDepth 20000 in
theorem commitRun_fails : ((outageRun commitRun).get commitRun_some).1.any
    (fun d => failsAt (fun op => op matches .commit) d.2) = true := by decide +kernel

set_option maxRecDepth 20000 in
theorem commitRun_ends :
    ends 0 ((outageRun commitRun).get commitRun_some).2.shared.trace = true := by decide +kernel

theorem outages_classified_commit : ∃ ds c' x, (sampleService {}).Path
      (@createConfig sample (Config.initial {}) (sampleCommand (uid 1))) ds c' ∧
    .ended x ∈ c'.shared.story 0 ∧ (Classified 0 .operational x c'.shared ↔ Recovered 0 ds) := by
  obtain ⟨x, hx⟩ := mem_of_ends commitRun_ends
  have hpath := Sys.path_of_record (Option.some_get commitRun_some).symm
  obtain ⟨d, hd, hfails⟩ := List.any_eq_true.mp commitRun_fails
  obtain ⟨op, hop, hm⟩ := eq_of_failsAt hfails
  cases op <;> cases hop
  have hend : .ended x ∈ ((outageRun commitRun).get commitRun_some).2.shared.story 0 :=
    World.mem_story.mpr ⟨hx, rfl⟩
  refine ⟨_, _, x, hpath, hend, (@outages_classified sample {} 0 (Config.initial {}) _ _ _ _ x d
    .commit (.fault .operational) .operational .init (.inl ⟨_, rfl⟩) (@step_create sample {} _ _)
    hpath hend hd hm rfl (.inl rfl) (.inr rfl)).trans ?_⟩
  simp

/-- The first `SELECT` of a creation fails. -/
def selectRun : Schedule := [.run 0 (.fault .operational)] ++ oks 0 2 ++ [.exit 0]

set_option maxRecDepth 20000 in
theorem selectRun_some : (outageRun selectRun).isSome = true := by decide +kernel

set_option maxRecDepth 20000 in
theorem selectRun_fails : ((outageRun selectRun).get selectRun_some).1.any
    (fun d => failsAt (fun op => op matches .selectPaymentByKey _) d.2) = true := by decide +kernel

/-- A thread has ended with the exception of the driver. -/
def raisesOperational (t : Tid) (trace : List (Tid × Obs)) : Bool :=
  trace.any (fun d => d.1 = t && match d.2 with
    | .ended (.error .operational) => true
    | _ => false)

theorem mem_of_raisesOperational {t : Tid} {trace : List (Tid × Obs)}
    (h : raisesOperational t trace = true) : (t, .ended (.error .operational)) ∈ trace := by
  obtain ⟨⟨u, o⟩, hm, ho⟩ := List.any_eq_true.mp h
  simp only [Bool.and_eq_true, decide_eq_true_eq] at ho
  obtain ⟨rfl, ho⟩ := ho
  split at ho
  · exact hm
  · cases ho

set_option maxRecDepth 20000 in
theorem selectRun_raises : raisesOperational 0
    ((outageRun selectRun).get selectRun_some).2.shared.trace = true := by decide +kernel

/-- An outage that the first `SELECT` of a creation meets is answered with 500. -/
theorem outage_unclassified : ∃ ds c' d key, (sampleService {}).Path
      (@createConfig sample (Config.initial {}) (sampleCommand (uid 1))) ds c' ∧ d ∈ ds ∧
    d.2 = .run 0 (.selectPaymentByKey key) (.fault .operational) ∧
    .ended (.error .operational) ∈ c'.shared.story 0 ∧
    Exc.operational.response = some ⟨500, "Internal server error", some "INTERNAL_ERROR"⟩ ∧
    ¬ Classified 0 .operational (.error .operational) c'.shared := by
  obtain ⟨d, hd, hfails⟩ := List.any_eq_true.mp selectRun_fails
  obtain ⟨op, hop, hm⟩ := eq_of_failsAt hfails
  cases op <;> cases hop
  rename_i key
  exact ⟨_, _, d, key, Sys.path_of_record (Option.some_get selectRun_some).symm, hd, hm,
    World.mem_story.mpr ⟨mem_of_raisesOperational selectRun_raises, rfl⟩, rfl,
    Classified.not_database rfl rfl⟩

end Payments
