import Payments.Proofs.Progress

namespace Payments

open Lib

section Draws

variable {α β : Type}

/-- The program draws at most so many identifiers, on each of its paths. -/
abbrev Draws (p : Service α) (n : Nat) : Prop := p.AtMost (fun op => op.draws = true) n

theorem draws_none {p : Service α} (hp : p.Only (fun op => op.draws = false)) : Draws p 0 :=
  (hp.mono (fun _ h => by simp [h])).atMost

theorem draws_op {op : Op} (h : op.draws = false) : Draws (perform op) 0 := draws_none (only_op h)

theorem draws_within {body : Service α} {n : Nat} (h : Draws body n) :
    Draws (Uow.within body) n := by
  refine Prog.AtMost.bind (m := n) (n := 0) h.outcome (fun r => draws_none ?_)
  refine Prog.Only.bind ?_ (fun _ => Prog.Only.bind (only_op rfl) (fun _ => Prog.only_ofExcept r))
  cases r with
  | ok _ => trivial
  | error _ => exact @only_rollback (fun op => op.draws = false) rfl

theorem draws_publish (events : List PaymentEvent) :
    Draws (EventBus.publishPaymentEvents events) 0 := by
  refine draws_none ((only_publish events).mono ?_)
  rintro op ⟨_, _, rfl⟩
  rfl

/-- A transaction draws nothing after its body has found its events. -/
theorem draws_store {events : List PaymentEvent} {a : α} :
    Draws ((OutboxRepository.add events).bind (fun _ => Uow.commit.bind (fun _ => .ret a))) 0 := by
  have hadd := @only_add_events (fun op => op.draws = false) (fun _ => rfl) rfl events
  have hcommit := @only_commit (fun op => op.draws = false) rfl rfl
  exact draws_none (Prog.Only.bind hadd (fun _ => Prog.Only.bind hcommit (fun _ => trivial)))

theorem draws_service_create (amount : Amount) (currency : Currency) (description : Description)
    (metadata : Metadata) (key : IdempotencyKey) (webhookUrl : WebhookUrl) :
    Draws (PaymentService.create amount currency description metadata key webhookUrl) 2 := by
  have hget : (PaymentRepository.getByKey key).Only (fun op => op.draws = false) := by
    refine Prog.Only.bind (only_op rfl) (fun row => ?_)
    cases row with
    | none => trivial
    | some row => exact Prog.Only.bind (Prog.only_ofExcept _) (fun _ => trivial)
  refine Prog.AtMost.bind (m := 0) (n := 2) (draws_none hget) (fun existing => ?_)
  cases existing with
  | some _ => trivial
  | none =>
    refine Prog.AtMost.bind (m := 1) (n := 1) Prog.atMost_perform (fun id => ?_)
    refine Prog.AtMost.bind (m := 0) (n := 1) (draws_op rfl) (fun createdAt => ?_)
    refine Prog.AtMost.bind (m := 1) (n := 0) Prog.atMost_perform (fun eventId => ?_)
    refine draws_none (Prog.Only.bind (only_op rfl) (fun occurredAt => ?_))
    refine Prog.Only.bind (Prog.only_ofExcept _) (fun payment => ?_)
    refine Prog.Only.bind (Prog.Only.bind (only_op rfl) (fun existing => ?_)) (fun _ => trivial)
    cases existing with
    | some _ => trivial
    | none => exact Prog.Only.bind (only_op rfl) (fun _ => only_op rfl)

theorem draws_create_payment [Externals] (command : CreatePaymentCommand) :
    Draws (createPayment command) 2 := by
  refine Prog.AtMost.bind (m := 0) (n := 2) (draws_none (Prog.only_ofExcept _)) (fun parts => ?_)
  refine Prog.AtMost.bind (m := 2) (n := 0) (draws_within ?_) (fun x => ?_)
  · exact Prog.AtMost.bind (m := 2) (n := 0) (draws_service_create _ _ _ _ _ _)
      (fun _ => draws_store)
  · exact Prog.AtMost.bind (m := 0) (n := 0) (draws_publish _) (fun _ => trivial)

theorem draws_process_payment (event : PaymentEvent) : Draws (processPayment event) 1 := by
  rw [process_payment_eq]
  refine Prog.AtMost.bind (m := 1) (n := 0) (draws_within ?_) (fun events => draws_publish events)
  refine Prog.AtMost.bind (m := 0) (n := 1) (draws_none (Prog.only_ofExcept _)) (fun id => ?_)
  have hget := @only_getById (fun op => op.draws = false) id rfl
  refine Prog.AtMost.bind (m := 0) (n := 1) (draws_none hget) (fun p => ?_)
  refine Prog.AtMost.bind (m := 1) (n := 0) ?_ (fun p' => ?_)
  · refine Prog.AtMost.bind (m := 0) (n := 1) (draws_op rfl) (fun success => ?_)
    refine Prog.AtMost.bind (m := 0) (n := 1) (draws_none (Prog.only_ofExcept _)) (fun _ => ?_)
    refine Prog.AtMost.bind (m := 0) (n := 1) (draws_op rfl) (fun now => ?_)
    refine Prog.AtMost.bind (m := 1) (n := 0) Prog.atMost_perform (fun eventId => ?_)
    exact draws_none (Prog.Only.bind (only_op rfl) (fun _ => Prog.only_ofExcept _))
  · have hupdate := @only_update (fun op => op.draws = false) (fun _ _ _ => rfl) rfl p'
    have hstore : Draws (PaymentService.updateProcessedPayment p') 0 :=
      draws_none (Prog.Only.bind hupdate (fun _ => trivial))
    exact Prog.AtMost.bind (m := 0) (n := 0) hstore (fun _ => draws_store)

theorem draws_concludes {op : Op} {e : UUID} {status : TaskStatus} (h : op.Concludes e status) :
    op.draws = false := by
  cases op <;> first | exact h.elim | rfl

theorem draws_buries {op : Op} {q : RabbitQueue} {n : Nat} {m : Message} {e : UUID}
    {deadKey : String} {deadHeaders : Option Nat} (h : op.Buries q n m e deadKey deadHeaders) :
    op.draws = false := by
  rcases h with rfl | ⟨_, _, _, rfl⟩ | ⟨_, h | rfl⟩
  · rfl
  · rfl
  · exact draws_concludes h
  · rfl

theorem draws_handle_payment (n : Nat) (m : Message) : Draws (handlePaymentProcessing n m) 1 := by
  refine Prog.AtMost.bind (m := 0) (n := 1) (draws_op rfl) (fun _ => ?_)
  refine Prog.AtMost.bind (m := 0) (n := 1) (draws_none (Prog.only_ofExcept _)) (fun event => ?_)
  have hclaim : Draws (claim event.id) 0 := draws_none ((only_claim event.id).mono (fun op h => by
    cases op <;> first | exact h.elim | rfl))
  refine Prog.AtMost.bind (m := 0) (n := 1) hclaim (fun claimed => ?_)
  refine Prog.AtMost.bind (m := 1) (n := 0) ?_ (fun _ => draws_op rfl)
  split
  swap
  · trivial
  refine Prog.AtMost.handle (m := 1) (n := 0) ?_ (fun e => ?_)
  · refine Prog.AtMost.bind (m := 0) (n := 1) (draws_op rfl) (fun _ => ?_)
    exact Prog.AtMost.bind (m := 1) (n := 0) (draws_process_payment event) (fun _ =>
      draws_none ((only_conclude _ _).mono (fun _ => draws_concludes)))
  · split
    · trivial
    · exact draws_none ((only_retryOrBury _ _ _ _ _ _).mono (fun _ => draws_buries))

theorem draws_handle_notify [Externals] (n : Nat) (m : Message) :
    Draws (handleNotifyClient n m) 0 := by
  refine draws_none (only_handleNotifyClient (fun event _ op h => ?_))
  cases h with
  | claims h => cases op <;> first | exact h.elim | rfl
  | enters | acks => rfl
  | uses h =>
    obtain ⟨_, _, _, rfl⟩ := h
    rfl
  | concludes h => exact draws_concludes h
  | buries h => exact draws_buries h

/-- No thread draws more than two identifiers. -/
theorem draws_start [Externals] {lim : Limits} {t : Tid} {req : Req} {w w' : World}
    {p : Service Reply} (hs : w.start lim t req = some (p, w')) : Draws p 2 := by
  have hthread : ∀ {α : Type} {n : Nat} {p : Service α} {f : α → Reply}, Draws p n → n ≤ 2 →
      Draws (p.bind (fun a => pure (f a))) 2 :=
    fun {_ n _ f} hp hn => (Prog.AtMost.bind (m := n) (n := 0) (f := fun a => .ret (f a)) hp
      (fun _ => trivial)).mono hn
  cases req with
  | create command =>
    cases hs
    exact hthread (draws_create_payment command) (Nat.le_refl 2)
  | get id =>
    cases hs
    refine hthread (draws_none ((only_get_payment id).mono (fun op h => ?_))) (Nat.zero_le 2)
    cases op <;> first | exact h.elim | rfl
  | poll =>
    cases hs
    refine hthread (draws_none (only_handle_bad_events.mono (fun op h => ?_))) (Nat.zero_le 2)
    rcases h with h | ⟨_, _, rfl⟩
    · cases op <;> first | exact h.elim | rfl
    · rfl
  | deliver i =>
    obtain ⟨⟨q, m⟩, _, hm⟩ := Option.bind_eq_some_iff.mp hs
    obtain ⟨p, hp, he⟩ := Option.map_eq_some_iff.mp hm
    cases he
    unfold subscriber at hp
    split at hp
    · cases hp
      exact hthread (draws_handle_payment _ m) (Nat.le_succ 1)
    · split at hp
      · cases hp
        exact hthread (draws_handle_notify _ m) (Nat.zero_le 2)
      · cases hp

theorem draws_reach [Externals] {lim : Limits} {c : Config World Op Op.Res Exc Reply}
    (h : Reachable lim c) : ∀ t p, c.threads t = some p → Draws p 2 := by
  refine h.programs (fun _ _ ht => by cases ht) (fun _ _ _ _ _ hs => draws_start hs) ?_
  intro op k r hp
  refine (hp.2 r).mono ?_
  split
  · exact Nat.le_succ 1
  · exact Nat.le_refl 2

end Draws

namespace World

variable {lim : Limits} {t : Tid} {op : Op} {ch : Choice} {w w' : World} {r : Except Exc op.Res}
  {n : Nat}

/-- So many identifiers can still be drawn. -/
def Spare (n : Nat) (w : World) : Prop :=
  ∃ ids : List UUID, ids.Nodup ∧ n ≤ ids.length ∧ ∀ u ∈ ids, w.Unused u

theorem Spare.exists (h : w.Spare n) (hn : 0 < n) : ∃ u, w.Unused u := by
  obtain ⟨ids, _, hlen, hids⟩ := h
  obtain ⟨u, hu⟩ := List.exists_mem_of_length_pos (Nat.lt_of_lt_of_le hn hlen)
  exact ⟨u, hids u hu⟩

theorem Spare.mono {m : Nat} (h : w.Spare n) (hm : m ≤ n) : w.Spare m := by
  obtain ⟨ids, hnd, hlen, hids⟩ := h
  exact ⟨ids, hnd, Nat.le_trans hm hlen, hids⟩

/-- An identifier stays unused until it is drawn. -/
theorem does_unused (hi : w.Inv) (hd : Does lim t w op ch r w') {u : UUID} (hu : w.Unused u)
    (hne : ch ≠ .uuid u) : w'.Unused u := by
  obtain ⟨hv, hdrawn, hp, ho⟩ := hu
  have hview : (w.view t).payments.find? u = none ∧ (w.view t).outbox.find? u = none := by
    constructor
    · refine Table.find_none.mpr (Db.forall_applyAll_payments (Table.find_none.mp hp) ?_ ?_)
      · intro row hm he
        have hrow := hi.payment t row hm
        rw [he, hdrawn] at hrow
        cases hrow
      · exact fun _ _ _ h => h
    · refine Table.find_none.mpr (Db.forall_applyAll_outbox (Table.find_none.mp ho) ?_ ?_)
      · intro o hm he
        have hrow := hi.event t o hm
        rw [he, hdrawn] at hrow
        cases hrow
      · exact fun _ _ _ _ _ _ h => h
  cases hd with
  | commit | lostCommit => exact ⟨hv, hdrawn, hview.1, hview.2⟩
  | @uuid4 v =>
    have hvu : u ≠ v := fun he => hne (he ▸ rfl)
    exact ⟨hv, (Function.update_of_ne hvu _ _).trans hdrawn, hp, ho⟩
  | fault => cases op <;> exact ⟨hv, hdrawn, hp, ho⟩
  | _ => exact ⟨hv, hdrawn, hp, ho⟩

theorem does_spare (hi : w.Inv) (hd : Does lim t w op ch r w') (h : w.Spare n) :
    w'.Spare (if op.draws = true then n - 1 else n) := by
  obtain ⟨ids, hnd, hlen, hids⟩ := h
  have hkeep : ∀ u ∈ ids, ch ≠ .uuid u → w'.Unused u := fun u hu => does_unused hi hd (hids u hu)
  by_cases ho : op = .uuid4
  · subst ho
    cases hd with
    | fault he => cases he
    | @uuid4 v hv =>
      refine ⟨ids.erase v, hnd.erase v, ?_, fun u hu => ?_⟩
      · have := List.le_length_erase (a := v) (l := ids)
        simp only [Op.draws, if_true]
        omega
      · obtain ⟨hne, hm⟩ := (List.Nodup.mem_erase_iff hnd).mp hu
        refine hkeep u hm (fun he => ?_)
        cases he
        exact hne rfl
  · have hno : op.draws ≠ true := by
      cases op <;> first | exact absurd rfl ho | exact Bool.false_ne_true
    rw [if_neg hno]
    refine ⟨ids, hnd, hlen, fun u hu => hkeep u hu ?_⟩
    rintro rfl
    cases hd
    exact ho rfl

end World

section Drain

variable [Externals] {lim : Limits} {c₀ c : Config World Op Op.Res Exc Reply} {t : Tid} {n : Nat}

/-- What the service has come to since a configuration, when nothing has started: so many
identifiers are left, and a thread that ran then runs still or has ended. -/
structure Going (lim : Limits) (c₀ : Config World Op Op.Res Exc Reply) (n : Nat)
    (c : Config World Op Op.Res Exc Reply) : Prop where
  reach : Reachable lim c
  spare : c.shared.Spare n
  next : c.next = c₀.next
  ended : ∀ t, c₀.threads t ≠ none →
    c.threads t ≠ none ∨ ∃ r, (t, .ended r) ∈ c.shared.trace

theorem Going.mono {m : Nat} (h : Going lim c₀ n c) (hm : m ≤ n) : Going lim c₀ m c :=
  { h with spare := h.spare.mono hm }

theorem Going.run {op : Op} {k : Except Exc op.Res → Service Reply} {ch : Choice}
    {r : Except Exc op.Res} {w : World} (h : Going lim c₀ n c)
    (ht : c.threads t = some (.call op k)) (he : World.exec lim t op ch c.shared = some (r, w)) :
    Going lim c₀ (if op.draws = true then n - 1 else n) (c.put t (some (k r)) w) where
  reach := .step h.reach trivial (.run ht he)
  spare := World.does_spare (reachable_holds h.reach).inv (World.exec_does he) h.spare
  next := h.next
  ended := by
    intro u hu
    by_cases htu : u = t
    · subst htu
      exact .inl (by simp [Config.put])
    · rcases h.ended u hu with hrun | ⟨x, hx⟩
      · exact .inl (by simpa [Config.put, Function.update_of_ne htu] using hrun)
      · exact .inr ⟨x, World.does_seen (World.exec_does he) _ hx⟩

theorem Going.exit {p : Service Reply} {r : Except Exc Reply} (h : Going lim c₀ n c)
    (ht : c.threads t = some p) (hr : p.result? = some r) :
    Going lim c₀ n (c.put t none (c.shared.finish t r)) where
  reach := .step h.reach trivial (.exit ht hr)
  spare := by
    obtain ⟨ids, hnd, hlen, hids⟩ := h.spare
    exact ⟨ids, hnd, hlen, hids⟩
  next := h.next
  ended := by
    intro u hu
    by_cases htu : u = t
    · subst htu
      exact .inr ⟨r, List.mem_cons_self⟩
    · rcases h.ended u hu with hrun | ⟨x, hx⟩
      · exact .inl (by simpa [Config.put, Function.update_of_ne htu] using hrun)
      · exact .inr ⟨x, List.mem_cons_of_mem _ hx⟩

/-- The steps that go on. -/
abbrev Onward (lim : Limits) (c c' : Config World Op Op.Res Exc Reply) : Prop :=
  (service lim).Reach (fun _ m => carriesOn m = true) c c'

/-- The effect at which a thread stands can be performed, where no other thread stands in its way
at the insert of a payment. -/
theorem Going.performs {op : Op} {k : Except Exc op.Res → Service Reply} (h : Going lim c₀ n c)
    (ht : c.threads t = some (.call op k)) (hn : op.draws = true → 0 < n)
    (hfree : ∀ values u, op = .insertPayment values → t ≠ u →
      c.shared.lock (.paymentKey values.idempotencyKey) ≠ some u) :
    ∃ ch r w, carriesOn (.run t op ch) = true ∧
      World.exec lim t op ch c.shared = some (r, w) := by
  rcases World.due_performs (anchored_reach h.reach) (due_reach h.reach ht)
    (fun hd => h.spare.exists (hn hd)) with hgo | ⟨values, u, he, hne, hl⟩
  · exact hgo
  · exact absurd hl (hfree values u he hne)

omit [Externals] in
theorem keyless_other {op : Op} {ch : Choice} {r : Except Exc op.Res} {w w' : World} {u : Tid}
    (hd : World.Does lim t w op ch r w') (hu : t ≠ u) (hk : Keyless u w) : Keyless u w' :=
  fun key hl => (World.does_lock hd hl).elim (hk key) (fun he => hu he.symm)

omit [Externals] in
theorem keyless_drop {w : World} {u : Tid} (hk : Keyless u w) : Keyless u (w.drop t) := by
  intro key hl
  rw [World.drop_lock] at hl
  split at hl
  · cases hl
  · exact hk key hl

/-- A thread goes on until something is so or it comes to its end, while it keeps what its effects
keep. -/
theorem Going.runs {A E : World → Prop} {p : Service Reply}
    (hA : ∀ op ch r w w', A w → World.Does lim t w op ch r w' → A w')
    (hfree : ∀ c values k, Reachable lim c → A c.shared → ¬ E c.shared →
      c.threads t = some (.call (.insertPayment values) k) →
      ∀ u, t ≠ u → c.shared.lock (.paymentKey values.idempotencyKey) ≠ some u)
    (h : Going lim c₀ (n + 2) c) (ha : A c.shared) (hp : c.threads t = some p) :
    ∃ c', Onward lim c c' ∧ (Going lim c₀ n c' ∧ A c'.shared) ∧
      (∀ u, t ≠ u → c'.threads u = c.threads u) ∧
      (E c'.shared ∨ ∃ q r, c'.threads t = some q ∧ q.result? = some r) := by
  have hbudget : Going lim c₀ (2 + n) c ∧ A c.shared := ⟨h.mono (by omega), ha⟩
  refine Sys.runs_on (I := fun n c => Going lim c₀ n c ∧ A c.shared)
    (fun _ _ _ hle hI => ⟨hI.1.mono hle, hI.2⟩) ?_ (draws_reach h.reach t p hp) hp hbudget
  intro n c op k hI hstop ht hn
  obtain ⟨ch, r, w, hgo, he⟩ := hI.1.performs ht hn (by
    rintro values u rfl hu
    exact hfree c values k hI.1.reach hI.2 hstop ht u hu)
  exact ⟨ch, r, w, hgo, he, hI.1.run ht he, hA _ _ _ _ _ hI.2 (World.exec_does he)⟩

/-- A thread can be run until it holds the lock on no key. -/
theorem drain_key (h : Going lim c₀ (n + 2) c) : ∃ c', Onward lim c c' ∧ Going lim c₀ n c' ∧
    Keyless t c'.shared ∧ ∀ u, Keyless u c.shared → Keyless u c'.shared := by
  cases hp : c.threads t with
  | none =>
    have hk : Keyless t c.shared := fun key hl => lock_running h.reach _ t hl hp
    exact ⟨c, .init, h.mono (Nat.le_add_right n 2), hk, fun _ hk => hk⟩
  | some p =>
    obtain ⟨c', hr, ⟨hg, hkeep⟩, _, hend⟩ := h.runs
      (A := fun w => ∀ u, t ≠ u → Keyless u c.shared → Keyless u w) (E := Keyless t)
      (fun _ _ _ _ _ hk hd u hu hu' => keyless_other hd hu (hk u hu hu'))
      (fun c values k hc _ hstop ht => absurd (due_reach hc ht).2 hstop)
      (fun _ _ hk => hk) hp
    -- a thread that has come to its end ends its transaction
    have hall : ∀ {w : World}, Keyless t w → (∀ u, t ≠ u → Keyless u c.shared → Keyless u w) →
        ∀ u, Keyless u c.shared → Keyless u w := by
      intro w hk hother u hu
      by_cases htu : t = u
      · exact htu ▸ hk
      · exact hother u htu hu
    rcases hend with hk | ⟨q, r, hq, hres⟩
    · exact ⟨c', hr, hg, hk, hall hk hkeep⟩
    · have hk : Keyless t (c'.shared.finish t r) := (World.outside_drop c'.shared t).keyless
      refine ⟨_, hr.trans (Sys.Reach.init.step rfl (.exit hq hres)), hg.exit hq hres, hk, ?_⟩
      exact hall hk (fun u hu hu' => keyless_drop (hkeep u hu hu'))

/-- Where nobody holds the lock on a key a thread can be run to its end. -/
theorem drain_thread (h : Going lim c₀ (n + 2) c) (hk : ∀ u, Keyless u c.shared) :
    ∃ c', Onward lim c c' ∧ (Going lim c₀ n c' ∧ ∀ u, Keyless u c'.shared) ∧
      c'.threads t = none ∧ ∀ u, c.threads u = none → c'.threads u = none := by
  cases hp : c.threads t with
  | none => exact ⟨c, .init, ⟨h.mono (Nat.le_add_right n 2), hk⟩, hp, fun _ hu => hu⟩
  | some p =>
    obtain ⟨c', hr, ⟨hg, hkeep⟩, hother, hend⟩ := h.runs
      (A := fun w => ∀ u, t ≠ u → Keyless u w) (E := fun _ => False)
      (fun _ _ _ _ _ hk hd u hu => keyless_other hd hu (hk u hu))
      (fun c values k _ hkeep _ _ u hu => hkeep u hu _) (fun u _ => hk u) hp
    obtain ⟨q, r, hq, hres⟩ := hend.resolve_left id
    refine ⟨_, hr.trans (Sys.Reach.init.step rfl (.exit hq hres)), ⟨hg.exit hq hres, ?_⟩,
      Function.update_self _ _ _, ?_⟩
    · intro u
      by_cases htu : t = u
      · subst htu
        exact (World.outside_drop c'.shared t).keyless
      · exact keyless_drop (hkeep u htu)
    · intro u hu
      by_cases htu : t = u
      · subst htu
        exact Function.update_self _ _ _
      · exact (Function.update_of_ne (Ne.symm htu) _ _).trans ((hother u htu).trans hu)

/-- The service can always come to rest without a failure. Every thread that runs can be brought
to its end, and then no lock is held and no transaction is open. It takes a few identifiers that
nobody has drawn. -/
theorem drains (h : Reachable lim c) {ids : List UUID} (hnd : ids.Nodup)
    (hids : ∀ u ∈ ids, c.shared.Unused u) (hlen : 4 * c.next ≤ ids.length) :
    ∃ c', (service lim).Reach (fun _ m => carriesOn m = true) c c' ∧
      (∀ t, c'.threads t = none) ∧ (∀ x, c'.shared.lock x = none) ∧
      (∀ t, c'.shared.pend t = []) ∧
      ∀ t, c.threads t ≠ none → ∃ r, (t, .ended r) ∈ c'.shared.trace := by
  have hbudget : c.next * 2 + c.next * 2 ≤ ids.length := by
    have hfour : ∀ k : Nat, k * 2 + k * 2 = 4 * k := by omega
    exact (hfour c.next).trans_le hlen
  have hstart : Going lim c (c.next * 2 + (List.range c.next).length * 2) c :=
    ⟨h, ⟨ids, hnd, by simpa using hbudget, hids⟩, rfl, fun _ ht => .inl ht⟩
  -- first the threads that hold a key, then all of them
  obtain ⟨c₁, hr₁, hg₁, hk₁, _⟩ := Sys.sweep (S := service lim) (l := List.range c.next) (b := 2)
    (I := fun n c' => Going lim c n c') (D := fun t c => Keyless t c.shared)
    (fun t _ n c' hI => drain_key hI) hstart
  have hkeyless : ∀ u, Keyless u c₁.shared := by
    intro u
    by_cases hu : u < c.next
    · exact hk₁ u (List.mem_range.mpr hu)
    · exact (outside_fresh hg₁.reach (by rw [hg₁.next]; exact Nat.not_lt.mp hu)).keyless
  have hmiddle : Going lim c (0 + (List.range c.next).length * 2) c₁ ∧
      ∀ u, Keyless u c₁.shared := ⟨hg₁.mono (by simp), hkeyless⟩
  obtain ⟨c₂, hr₂, ⟨hg₂, _⟩, hn₂, _⟩ := Sys.sweep (S := service lim) (l := List.range c.next)
    (b := 2) (I := fun n c' => Going lim c n c' ∧ ∀ u, Keyless u c'.shared)
    (D := fun t c => c.threads t = none) (fun t _ n c' hI => drain_thread hI.1 hI.2) hmiddle
  have hnone : ∀ t, c₂.threads t = none := by
    intro t
    by_cases ht : t < c.next
    · exact hn₂ t (List.mem_range.mpr ht)
    · cases hp : c₂.threads t with
      | none => rfl
      | some p =>
        have hlt := ((reachable_holds hg₂.reach).running t p hp).1
        rw [hg₂.next] at hlt
        exact absurd hlt ht
  have hlock : ∀ x, c₂.shared.lock x = none := by
    intro x
    cases hl : c₂.shared.lock x with
    | none => rfl
    | some u => exact absurd (hnone u) (lock_running hg₂.reach x u hl)
  refine ⟨c₂, hr₁.trans hr₂, hnone, hlock, fun t => ?_, fun t ht => ?_⟩
  · by_contra hpend
    obtain ⟨x, hx⟩ := List.exists_mem_of_ne_nil _ hpend
    have hheld := (reachable_holds hg₂.reach).inv.locked t x hx
    obtain ⟨y, hy⟩ : ∃ y, y ∈ x.resources := by
      cases x <;> exact ⟨_, List.mem_cons_self⟩
    have := hheld y hy
    rw [hlock y] at this
    cases this
  · exact (hg₂.ended t ht).resolve_left (fun hrun => hrun (hnone t))

end Drain

set_option maxRecDepth 20000 in
theorem drains_colliding : colliding.threads 0 ≠ none ∧ colliding.threads 1 ≠ none ∧
    ∃ c', (sampleService {}).Reach (fun _ m => carriesOn m = true) colliding c' ∧
      ∀ t, c'.threads t = none := by
  have hr : @Reachable sample {} colliding := reachable_after collidingRun_some
  have hfirst : (colliding.threads 0).isSome = true := by decide +kernel
  have hsecond : (colliding.threads 1).isSome = true := by decide +kernel
  have hnd : ((List.range 8).map (fun i => uid (100 + i))).Nodup := by decide +kernel
  have hids : ∀ u ∈ (List.range 8).map (fun i => uid (100 + i)), colliding.shared.Unused u := by
    decide +kernel
  have hlen : 4 * colliding.next ≤ ((List.range 8).map (fun i => uid (100 + i))).length := by
    decide +kernel
  obtain ⟨c', hc, hnone, _⟩ := @drains sample _ _ hr _ hnd hids hlen
  exact ⟨Option.isSome_iff_ne_none.mp hfirst, Option.isSome_iff_ne_none.mp hsecond, c', hc, hnone⟩

end Payments
