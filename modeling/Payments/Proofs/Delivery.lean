import Payments.Proofs.History

namespace Payments

open Lib

/-- What a thread that handles a delivery takes on beside the contract of the service. Each
duty asks in addition that a thread is told of in its own story only. -/
structure Duty where
  inv : World → Prop := fun _ => True
  rely : Tid → World → World → Prop := fun _ _ _ => True
  guar : Tid → World → World → Prop
  /-- What holds when the program of a thread has ended. -/
  idle : Tid → World → Prop := fun _ _ => True

namespace Duty

variable (d : Duty)

def contract : Contract World where
  inv := d.inv
  rely := fun t w w' => w'.story t = w.story t ∧ d.rely t w w'
  guar := fun t w w' => (∀ u, t ≠ u → w'.story u = w.story u) ∧ d.guar t w w'
  fresh := fun t w => w.story t = []

/-- Others do not break the assertion. -/
def Stable (t : Tid) (P : World → Prop) : Prop :=
  ∀ w w', P w → World.Rely t w w' → w'.story t = w.story t → d.rely t w w' → P w'

theorem stable_true {t : Tid} : d.Stable t (fun _ => True) := fun _ _ _ _ _ _ => trivial

theorem stable_told {t : Tid} {o : Obs} : d.Stable t (fun w => o ∈ w.story t) :=
  fun w w' h _ hs _ => by
    show o ∈ w'.story t
    rw [hs]
    exact h

variable {d} {t : Tid} {A : World → Prop}

theorem Stable.during {ws : List Write} (h : d.Stable t A) :
    d.Stable t (fun w => w.pend t = ws ∧ A w) :=
  fun w w' hw hr hs hd => ⟨hr.pend.trans hw.1, h w w' hw.2 hr hs hd⟩

end Duty

section Rules

variable [Externals] {d : Duty} {lim : Limits} {allow : World → Move Op Choice Req Env → Prop}
  {t : Tid} {w : World} {α β : Type}

/-- Under its duty a program ends in `Q`. -/
abbrev Tells (d : Duty) (lim : Limits) (allow : World → Move Op Choice Req Env → Prop) (t : Tid)
    (p : Service α) (Q : Except Exc α → World → Prop) (w : World) : Prop :=
  wp (service lim) (World.contract.Given allow) (World.contract.under d.contract) t p Q w

/-- One effect, from an assertion that is stable. -/
theorem tells_op {op : Op} {Q : Except Exc op.Res → World → Prop} (P : World → Prop) (hP : P w)
    (hs : d.Stable t P) (h : ∀ w₁ ch r w₂, P w₁ → w₁.Inv → d.inv w₁ → allow w₁ (.run t op ch) →
      World.Does lim t w₁ op ch r w₂ → d.inv w₂ ∧ d.guar t w₁ w₂ ∧ Q r w₂) :
    Tells d lim allow t (perform op) Q w := by
  refine wp_perform hP (fun w w' hp hr => hs w w' hp hr.1 hr.2.1 hr.2.2) ?_
  intro w₁ ch r w₂ hp hi ha he
  have hd := World.exec_does he
  obtain ⟨h₁, h₂, h₃⟩ := h w₁ ch r w₂ hp ha.1 hi ha.2 hd
  exact ⟨h₁, ⟨fun u hu => World.does_story hd hu, h₂⟩, h₃⟩

/-- A program of effects that keep the duty and an assertion. -/
theorem tells_only {P : Op → Prop} {A : World → Prop} {p : Service α} (hp : p.Only P) (hA : A w)
    (hs : d.Stable t A) (h : ∀ op, P op → ∀ w₁ ch r w₂, A w₁ → w₁.Inv → d.inv w₁ →
      allow w₁ (.run t op ch) → World.Does lim t w₁ op ch r w₂ →
      d.inv w₂ ∧ d.guar t w₁ w₂ ∧ A w₂) :
    Tells d lim allow t p (fun _ => A) w := by
  refine wp_only hp hA (fun w w' hp hr => hs w w' hp hr.1 hr.2.1 hr.2.2) ?_
  intro op ho w₁ ch r w₂ hp hi ha he
  have hd := World.exec_does he
  obtain ⟨h₁, h₂, h₃⟩ := h op ho w₁ ch r w₂ hp ha.1 hi ha.2 hd
  exact ⟨h₁, ⟨fun u hu => World.does_story hd hu, h₂⟩, h₃⟩

/-- A unit of work ends as its body does, or in the exception of its close, and the session
is empty afterwards. -/
theorem tells_within {body : Service α} {Q : Except Exc α → World → Prop}
    (R : Except Exc α → World → Prop) (hs : ∀ r, d.Stable t (R r))
    (hbody : Tells d lim allow t body R w)
    (hdrop : ∀ r w, R r w → d.inv w → d.inv (w.drop t) ∧ d.guar t w (w.drop t) ∧ R r (w.drop t))
    (hstill : ∀ w, d.guar t w w)
    (hok : ∀ r (w : World), R r (w.drop t) → Q r (w.drop t))
    (herr : ∀ r e w, R r w → R r (w.drop t) → allow w (.run t .close (.fault e)) →
      Q (.error e) (w.drop t)) :
    Tells d lim allow t (Uow.within body) Q w := by
  refine wp_unit R hbody (fun e w hr => ?_) (fun r w hr => ?_)
  · refine tells_op _ hr (hs _) (fun w₁ ch r' w₂ hR _ hi _ hd => ?_)
    cases hd with
    | fault => exact ⟨hi, hstill _, hR⟩
    | rollback => exact hdrop _ _ hR hi
  · refine tells_op _ hr (hs r) (fun w₁ ch r' w₂ hR _ hi ha hd => ?_)
    obtain ⟨h₁, h₂, h₃⟩ := hdrop _ _ hR hi
    cases hd with
    | fault => exact ⟨h₁, h₂, herr _ _ _ hR h₃ ha⟩
    | close => exact ⟨h₁, h₂, hok _ _ h₃⟩

/-- What the growth of the tables keeps holds after a program that commits nothing. -/
theorem tells_frame {p : Service α} {Q : Except Exc α → World → Prop} {H : Db → Prop}
    (hp : p.Only (fun op => op ≠ .commit)) (hH : ∀ db db', H db → db.Grows db' → H db')
    (h : Tells d lim allow t p Q w) (hw : H w.db) :
    Tells d lim allow t p (fun r w => Q r w ∧ H w.db) w := by
  induction p generalizing w with
  | ret a => exact ⟨h, hw⟩
  | raise e => exact ⟨h, hw⟩
  | call op k ih =>
    intro w₁ hr hi ch r w₂ ha he
    obtain ⟨hi₂, hg, hk⟩ := h w₁ hr hi ch r w₂ ha he
    have hdb : w₂.db = w₁.db := World.does_db (World.exec_does he) hp.1
    exact ⟨hi₂, hg, ih r (hp.2 r) hk (hdb ▸ hH _ _ hw hr.1.grows)⟩

/-- A commit that raises ends as it does without the rollback that may follow. -/
theorem tells_commit {R : World → Prop} (E : World → Prop) (hs : d.Stable t E)
    (hdrop : ∀ w, E w → d.inv w → d.inv (w.drop t) ∧ d.guar t w (w.drop t) ∧ E (w.drop t))
    (hstill : ∀ w, d.guar t w w)
    (hcommit : Tells d lim allow t (perform .commit)
      (fun r w => match r with | .ok _ => R w | .error _ => E w) w) :
    Tells d lim allow t Uow.commit (fun r w => match r with | .ok _ => R w | .error _ => E w) w := by
  have hroll : ∀ w, E w → Tells d lim allow t (perform .rollback) (fun _ => E) w := by
    refine fun w hw => tells_op E hw hs (fun w₁ ch r w₂ hE _ hi _ hd => ?_)
    cases hd with
    | fault => exact ⟨hi, hstill _, hE⟩
    | rollback => exact hdrop _ hE hi
  refine wp_catch _ hcommit (fun _ _ hw => hw) (fun e w hw => ?_)
  split
  · exact wp_seq _ (hroll w hw) (fun _ _ hw => hw) (fun _ _ hw => hw)
  · exact wp_seq _ (hroll w hw) (fun _ _ hw => hw) (fun _ _ hw => hw)
  · exact hw

section Apart

variable {A : World → Prop} (hs : d.Stable t A)
  (h : ∀ op, op.Apart → ∀ w₁ ch r w₂, w₁.Apart t → A w₁ → w₁.Inv → d.inv w₁ →
    allow w₁ (.run t op ch) → World.Does lim t w₁ op ch r w₂ → d.inv w₂ ∧ d.guar t w₁ w₂ ∧ A w₂)
include hs h

omit [Externals] h in
theorem Duty.Stable.apart : d.Stable t (fun w => w.Apart t ∧ A w) :=
  fun w w' hw hr hst hd => ⟨fun x hx => hw.1 x (hr.pend ▸ hx), hs w w' hw.2 hr hst hd⟩

theorem tells_apart {p : Service α} (hp : p.Only Op.Apart) (hw : w.Apart t) (hA : A w) :
    Tells d lim allow t p (fun _ w => w.Apart t ∧ A w) w := by
  refine tells_only hp ⟨hw, hA⟩ hs.apart (fun op ho w₁ ch r w₂ hw₁ hi hd ha hdoes => ?_)
  obtain ⟨h₁, h₂, h₃⟩ := h op ho w₁ ch r w₂ hw₁.1 hw₁.2 hi hd ha hdoes
  exact ⟨h₁, h₂, (World.does_apart hdoes (.inl ho) hw₁.1).2, h₃⟩

/-- The use case of a payment keeps what every effect keeps that stays apart, and leaves the
session empty. -/
theorem tells_process
    (hdrop : ∀ w, A w → d.inv w → d.inv (w.drop t) ∧ d.guar t w (w.drop t) ∧ A (w.drop t))
    (hstill : ∀ w, d.guar t w w) (event : PaymentEvent) (hp : w.pend t = []) (hA : A w) :
    Tells d lim allow t (processPayment event) (fun _ w => w.pend t = [] ∧ A w) w := by
  refine wp_seq (fun _ w => w.pend t = [] ∧ A w) (tells_within (fun _ w => w.Apart t ∧ A w)
    (fun _ => hs.apart) (tells_apart hs h ((only_settlement event).mono (fun _ ho => ho.apart))
      (World.apart_nil hp) hA)
    (fun _ w hw hi => ?_) hstill (fun _ _ hw => ⟨by simp, hw.2⟩)
    (fun _ _ _ _ hw _ => ⟨by simp, hw.2⟩)) (fun events w hw => ?_) (fun _ _ hw => hw)
  · obtain ⟨h₁, h₂, h₃⟩ := hdrop w hw.2 hi
    exact ⟨h₁, h₂, .drop, h₃⟩
  · refine tells_only (announces_publish events) hw
      (fun w w' hw hr hst hd => ⟨hr.pend.trans hw.1, hs w w' hw.2 hr hst hd⟩) ?_
    intro op ho w₁ ch r w₂ hw₁ hi hd ha hdoes
    obtain ⟨h₁, h₂, h₃⟩ := h op ho.apart w₁ ch r w₂ (World.apart_nil hw₁.1) hw₁.2 hi hd ha hdoes
    obtain ⟨x, k, m, rfl, _⟩ := ho
    refine ⟨h₁, h₂, ?_, h₃⟩
    cases hdoes <;> exact hw₁.1

end Apart

/-- What follows the claim of a handler. -/
theorem tells_gated {claimed : Bool} {m : Message} {maxAttempts : Nat} {run : Service Unit}
    {Q : Except Exc Unit → World → Prop} (R : World → Prop) (hQ : ∀ e w, R w → Q (.error e) w)
    (hrun : Admitted claimed m.attempt maxAttempts → Tells d lim allow t run (fun _ => R) w)
    (hskip : ¬ Admitted claimed m.attempt maxAttempts → R w)
    (hack : ∀ w, R w → Tells d lim allow t (perform .ack) Q w) :
    Tells d lim allow t ((if Admitted claimed m.attempt maxAttempts then run
      else Prog.ret ()).bind (fun _ => perform .ack)) Q w := by
  split
  · rename_i h
    exact wp_seq _ (hrun h) (fun _ w hw => hack w hw) hQ
  · rename_i h
    exact hack w (hskip h)

end Rules

/-- The obligations of a duty: those of a contract over that of the service, where every
program but the two handlers is one that stays apart. -/
structure Duty.Met [Externals] (lim : Limits) (allow : World → Move Op Choice Req Env → Prop)
    (d : Duty) : Prop where
  refl : ∀ t w, d.rely t w w
  trans : ∀ t w w' w'', d.rely t w w' → d.rely t w' w'' → d.rely t w w''
  compat : ∀ t u w w', t ≠ u → World.Guar t w w' → (∀ v, t ≠ v → w'.story v = w.story v) →
    d.guar t w w' → d.rely u w w'
  idle : ∀ t, d.Stable t (d.idle t)
  aside : ∀ t w w', World.Aside w w' → w'.db = w.db → w'.lock = w.lock → w'.pend = w.pend →
    (∀ x ∈ w.trace, x ∈ w'.trace) → d.inv w → d.inv w' ∧ d.guar t w w'
  deliver : ∀ t w i q m, w.ready[i]? = some (q, m) → d.inv w → w.story t = [] →
    d.inv (w.deliver t i q m) ∧ d.guar t w (w.deliver t i q m)
  finish : ∀ t r w, d.idle t w → d.inv w → d.inv (w.finish t r) ∧ d.guar t w (w.finish t r)
  crash : ∀ t w, allow w (.kill t) → d.inv w → d.inv (w.crash t) ∧ d.guar t w (w.crash t)
  environment : ∀ e w w', allow w (.env e) → w.Inv → d.inv w → w.environment lim e = some w' →
    d.inv w' ∧ ∀ t, d.rely t w w'
  polls : ∀ {α : Type} (p : Service α) t w, p.Only Op.Polls → p.Only (fun op => ¬ op.Updates) →
    w.pend t = [] → w.story t = [] →
    Tells d lim allow t p (fun _ => d.idle t) w
  payment : ∀ t w i m, allow w (.start t (.deliver i)) → w.ready[i]? = some (newPaymentsQ, m) →
    w.Inv → d.inv w → w.pend t = [] → w.story t = [] →
    Tells d lim allow t (handlePaymentProcessing lim.process m)
      (fun _ => d.idle t) (w.deliver t i newPaymentsQ m)
  notify : ∀ t w i m, allow w (.start t (.deliver i)) → w.ready[i]? = some (notifyPaymentsQ, m) →
    w.Inv → d.inv w → w.pend t = [] → w.story t = [] →
    Tells d lim allow t (handleNotifyClient lim.notify m)
      (fun _ => d.idle t) (w.deliver t i notifyPaymentsQ m)

namespace Duty.Met

variable [Externals] {lim : Limits} {allow : World → Move Op Choice Req Env → Prop} {d : Duty}
  (h : d.Met lim allow) {t : Tid}
include h

theorem done {w : World} (r : Except Exc Reply) (hw : d.idle t w) :
    (World.contract.under d.contract).Done (service lim) (World.contract.Given allow) t r w := by
  intro w₁ hr hi _
  obtain ⟨h₁, h₂⟩ := h.finish t r w₁ (h.idle t w w₁ hw hr.1 hr.2.1 hr.2.2) hi
  exact ⟨h₁, fun u hu => World.story_other rfl hu, h₂⟩

/-- The program of a thread that ends idle is within the duty. -/
theorem thread {α : Type} {p : Service α} {f : α → Reply} {w : World}
    (hp : Tells d lim allow t p (fun _ => d.idle t) w) :
    Tells d lim allow t (p.bind (fun a => pure (f a)))
      ((World.contract.under d.contract).Done (service lim) (World.contract.Given allow) t) w :=
  wp_seq _ hp (fun _ _ hw => h.done _ hw) (fun _ _ hw => h.done _ hw)

theorem start {req : Req} {p : Service Reply} {w w' : World} (ha : allow w (.start t req))
    (hi : w.Inv) (hd : d.inv w) (hp : w.pend t = []) (hs : w.story t = [])
    (he : w.start lim t req = some (p, w')) :
    d.inv w' ∧ d.contract.guar t w w' ∧ Tells d lim allow t p
      ((World.contract.under d.contract).Done (service lim) (World.contract.Given allow) t) w' := by
  have hrequest : ∀ o : Obs, o.aside = true → d.inv (w.note t o) ∧ d.contract.guar t w (w.note t o) ∧
      (w.note t o).story t = [] := by
    intro o ho
    have hstory : ∀ u, (w.note t o).story u = w.story u := fun _ => World.story_aside rfl ho
    obtain ⟨h₁, h₂⟩ := h.aside t w (w.note t o) (.of_eq hstory rfl rfl) rfl rfl rfl
      (fun _ hx => List.mem_cons_of_mem _ hx) hd
    exact ⟨h₁, ⟨fun u _ => hstory u, h₂⟩, (hstory t).trans hs⟩
  cases req with
  | create command =>
    cases he
    obtain ⟨h₁, h₂, hs'⟩ := hrequest (.created command) rfl
    exact ⟨h₁, h₂, h.thread (h.polls _ t _
      ((apart_create_payment command).mono (fun _ ho => .inl ho))
      ((only_create_payment command).mono (fun _ ho => ho.elim (fun ho => ho.not_updates)
        (fun ho => ho.not_updates))) hp hs')⟩
  | get id =>
    cases he
    obtain ⟨h₁, h₂⟩ := h.aside t w w (.of_eq (fun _ => rfl) rfl rfl) rfl rfl rfl (fun _ hx => hx) hd
    exact ⟨h₁, ⟨fun _ _ => rfl, h₂⟩, h.thread (h.polls _ t _
      ((apart_get_payment id).mono (fun _ ho => .inl ho))
      ((only_get_payment id).mono (fun _ ho => ho.not_updates)) hp hs)⟩
  | poll =>
    cases he
    obtain ⟨h₁, h₂, hs'⟩ := hrequest .polled rfl
    exact ⟨h₁, h₂, h.thread (h.polls _ t _ polls_handle_bad_events
      (only_handle_bad_events.mono (fun _ ho => ho.elim (fun ho => ho.not_updates)
        (fun ho => ho.not_updates))) hp hs')⟩
  | deliver i =>
    obtain ⟨⟨q, m⟩, hr, hm⟩ := Option.bind_eq_some_iff.mp he
    obtain ⟨p, hsub, he⟩ := Option.map_eq_some_iff.mp hm
    cases he
    obtain ⟨h₁, h₂⟩ := h.deliver t w i q m hr hd hs
    refine ⟨h₁, ⟨fun u hu => World.story_other rfl hu, h₂⟩, ?_⟩
    unfold subscriber at hsub
    split at hsub
    · rename_i hq
      cases hsub
      subst hq
      exact h.thread (h.payment t w i m ha hr hi hd hp hs)
    · split at hsub
      · rename_i hq
        cases hsub
        subst hq
        exact h.thread (h.notify t w i m ha hr hi hd hp hs)
      · cases hsub

theorem validOver : World.contract.ValidOver (service lim) allow d.contract where
  refl := fun t w => ⟨rfl, h.refl t w⟩
  trans := fun t w w' w'' hr hr' => ⟨hr'.1.trans hr.1, h.trans t w w' w'' hr.2 hr'.2⟩
  compat := fun t u w w' hu _ _ hg hg' => ⟨hg'.1 u hu, h.compat t u w w' hu hg hg'.1 hg'.2⟩
  fresh := fun _ _ _ hr hs => hr.1.trans hs
  start := fun _ _ _ _ _ hi hd hp hs ha he => h.start ha hi hd hp hs he
  kill := fun t w _ hd ha => by
    obtain ⟨h₁, h₂⟩ := h.crash t w ha hd
    exact ⟨h₁, fun u hu => World.story_other rfl hu, h₂⟩
  env := fun e w w' hi hd ha he => by
    obtain ⟨h₁, h₂⟩ := h.environment e w w' ha hi hd he
    obtain ⟨_, _, hw⟩ := World.environment_same he
    exact ⟨h₁, fun t => ⟨World.story_same (by rw [hw]), h₂ t⟩⟩

/-- The service keeps its contract and the duty. -/
theorem valid : (World.contract.both d.contract).Valid (service lim) allow :=
  contract_valid.restrict.both h.validOver

/-- What a step of a thread promises, and how the tables change. -/
theorem promised {c c' : Config World Op Op.Res Exc Reply} {m : Move Op Choice Req Env}
    (hh : (World.contract.both d.contract).Holds (service lim) allow c) (ha : allow c.shared m)
    (hs : (service lim).Step c m c') : c.shared.db.Grows c'.shared.db ∧
      ∀ t, m.thread? = some t → d.guar t c.shared c'.shared := by
  have hw := (h.valid.holds_step hh ha hs).2
  have hthread : ∀ {t : Tid}, World.Guar t c.shared c'.shared → d.guar t c.shared c'.shared →
      c.shared.db.Grows c'.shared.db ∧ ∀ u, some t = some u → d.guar u c.shared c'.shared := by
    intro t hg hd
    refine ⟨(hg.others _ (Nat.ne_of_lt (Nat.lt_succ_self _))).grows, fun u hu => ?_⟩
    cases hu
    exact hd
  cases hs with
  | run | exit | start | kill => exact hthread hw.1 hw.2.2
  | env => exact ⟨(hw 0).1.grows, fun t hm => by cases hm⟩

/-- What a step that is told promises, and how the tables change. -/
theorem step {c c' : Config World Op Op.Res Exc Reply} {m : Move Op Choice Req Env}
    (hh : (World.contract.both d.contract).Holds (service lim) allow c) (ha : allow c.shared m)
    (hs : (service lim).Step c m c') : c.shared.db.Grows c'.shared.db ∧
      ∀ t o, World.Tells t o m → d.guar t c.shared c'.shared := by
  obtain ⟨hgrows, hguar⟩ := h.promised hh ha hs
  refine ⟨hgrows, fun t o hm => hguar t ?_⟩
  cases m with
  | env => exact hm.elim
  | _ => exact congrArg some hm.1

end Duty.Met

end Payments
