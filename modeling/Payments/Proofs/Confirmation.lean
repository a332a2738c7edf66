import Payments.Proofs.Agreement
import Payments.Proofs.Footprint
import Payments.Proofs.Notification

namespace Payments

open Lib

/-- No message of the event is delivered to `handle_notify_client` on an attempt which its gate
lets through without a claim. -/
def Unretried (lim : Limits) (e : UUID) (w : World) : Move Op Choice Req Env → Prop
  | .start _ (.deliver i) => ∀ m, w.ready[i]? = some (notifyPaymentsQ, m) → m.notifies e = true →
      ¬ (0 < m.attempt ∧ m.attempt < lim.notify)
  | _ => True

/-- The threads from `n` on start when the event is handled, and not for a retry of it. -/
def StartsLate (lim : Limits) (e : UUID) (n : Tid) (w : World) (mv : Move Op Choice Req Env) : Prop :=
  ∀ t req, mv = .start t req → n ≤ t → w.db.Handled e ∧ Unretried lim e w mv

/-- A post by one of the threads from `n` on is not for the event. -/
def World.Hushed (e : UUID) (n t : Tid) (w w' : World) : Prop :=
  n ≤ t → ∀ url payload, w'.story t = .posted url payload :: w.story t →
    ∀ m, .delivered notifyPaymentsQ m ∈ w.story t → m.notifies e = false

/-- The duty not to notify of a handled event. -/
def silence (e : UUID) (n : Tid) : Duty where
  guar := World.Hushed e n

section

variable [Externals] {lim : Limits} {e : UUID} {n t : Tid} {w : World} {m : Message}

omit [Externals] in
theorem World.Hushed.of_same {w' : World} (h : w'.story t = w.story t) : World.Hushed e n t w w' :=
  fun _ _ _ hs => absurd (h.symm.trans hs) (by simp)

omit [Externals] in
theorem World.Hushed.of_told {o : Obs} {w' : World} (h : w'.story t = o :: w.story t)
    (hp : o.isPosted = false) : World.Hushed e n t w w' := by
  intro _ url payload hs
  rw [(List.cons.inj (h.symm.trans hs)).1] at hp
  cases hp

omit [Externals] in
/-- Only a call of the notifier posts. -/
theorem World.Hushed.of_does {op : Op} {ch : Choice} {r : Except Exc op.Res} {w' : World}
    (h : World.Does lim t w op ch r w') (ho : ¬ op.Sends) : World.Hushed e n t w w' := by
  rcases World.does_trace h with ht | ⟨o, hs, ht⟩
  · exact .of_same (World.story_same ht)
  · cases ha : o.aside with
    | true => exact .of_same (World.story_aside ht ha)
    | false =>
      refine .of_told (World.story_told ht ha) ?_
      cases o with
      | posted url payload => cases op <;> first | exact hs.elim | exact absurd ⟨_, _, _, rfl⟩ ho
      | _ => rfl

/-- A program without a call of the notifier keeps silent. -/
theorem unsent_silence {α : Type} {p : Service α} (hp : p.Only (fun op => ¬ op.Sends)) :
    Tells (silence e n) lim (StartsLate lim e n) t p (fun _ _ => True) w :=
  tells_only hp trivial (Duty.stable_true _)
    (fun _ ho _ _ _ _ _ _ _ _ hd => ⟨trivial, .of_does hd ho, trivial⟩)

/-- A program of a thread that handles another event posts what it likes. -/
theorem other_silence {α : Type} {p : Service α}
    (hm : ∀ m, .delivered notifyPaymentsQ m ∈ w.story t → n ≤ t → m.notifies e = false) :
    Tells (silence e n) lim (StartsLate lim e n) t p (fun _ _ => True) w := by
  have hstable : (silence e n).Stable t (fun w => ∀ m, .delivered notifyPaymentsQ m ∈ w.story t →
      n ≤ t → m.notifies e = false) := fun _ _ hw _ hs _ m hm => hw m (hs ▸ hm)
  refine wp_mono (tells_only p.only_true hm hstable ?_) (fun _ _ _ => trivial)
  exact fun _ _ w₁ _ _ w₂ hw₁ _ _ _ hd =>
    ⟨trivial, fun hn _ _ _ m hm => hw₁ m hm hn, fun m hm => hw₁ m (World.does_delivered hd hm)⟩

/-- The claim of an event that is handled does not succeed. -/
theorem claim_handled (hp : w.pend t = []) (hh : w.db.Handled e) {e' : UUID} :
    Tells (silence e' n) lim (StartsLate lim e' n) t (claim e) (fun r _ => r ≠ .ok true) w := by
  have hhandled : (silence e' n).Stable t (fun w => w.db.Handled e) :=
    fun _ _ hw hr _ _ => hw.grows hr.grows
  refine tells_within (fun r _ => r ≠ .ok true) (fun _ => fun _ _ hw _ _ _ => hw) ?_
    (fun _ _ hw _ => ⟨trivial, .of_same rfl, hw⟩) (fun _ => .of_same rfl) (fun _ _ hw => hw)
    (fun _ _ _ _ _ _ => by simp)
  refine wp_seq (fun _ w => w.pend t = [] ∧ w.db.Handled e)
    (tells_op _ ⟨hp, hh⟩ hhandled.during (fun w₁ ch r w₂ hw₁ _ _ _ hd => ?_)) (fun now w hw => ?_)
    (fun _ _ _ => by simp)
  · refine ⟨trivial, .of_does hd (by rintro ⟨_, _, _, h⟩; cases h), ?_⟩
    cases hd <;> exact hw₁
  · refine wp_seq (fun r _ => ∀ id, r ≠ .ok (some id))
      (tells_op _ hw hhandled.during (fun w₁ ch r w₂ hw₁ _ _ _ hd => ?_)) (fun lockedId w hid => ?_)
      (fun _ _ _ => by simp)
    · refine ⟨trivial, .of_does hd (by rintro ⟨_, _, _, h⟩; cases h), fun id hr => ?_⟩
      subst hr
      cases hd with
      | claim ho hid hs =>
        obtain ⟨o', ho', hid', hs'⟩ := hw₁.2
        rw [World.view_nil hw₁.1] at ho
        rw [Table.eq_of_key ho' ho (hid'.trans hid.symm)] at hs'
        exact hs' hs
    · cases lockedId with
      | none => simp
      | some id => exact absurd rfl (hid id)

theorem notify_silence {i : Nat} (ha : StartsLate lim e n w (.start t (.deliver i)))
    (hr : w.ready[i]? = some (notifyPaymentsQ, m)) (hp : w.pend t = []) (hs : w.story t = []) :
    Tells (silence e n) lim (StartsLate lim e n) t (handleNotifyClient lim.notify m)
      (fun _ _ => True) (w.deliver t i notifyPaymentsQ m) := by
  by_cases hother : n ≤ t → m.notifies e = false
  · refine other_silence (fun m' hm' hn => ?_)
    rw [World.story_told rfl rfl, hs] at hm'
    rw [(Obs.delivered.inj (List.mem_singleton.mp hm')).2]
    exact hother hn
  -- the message is for the event, which is handled and not retried
  obtain ⟨hn, hname⟩ := not_forall.mp hother
  have hname : m.notifies e = true := by simpa using hname
  obtain ⟨hh, hu⟩ := ha t _ rfl hn
  have hattempt := hu m hr hname
  simp only [handleNotifyClient, Prog.bind_eq, Prog.pure_eq]
  unfold Message.notifies at hname
  cases hd : decodeNotify m.body with
  | error x => trivial
  | ok event =>
    rw [hd] at hname
    obtain rfl : event.id = e := of_decide_eq_true hname
    rw [Prog.ofExcept_ok_bind]
    refine wp_seq _ (@claim_handled _ lim event.id n t (w.deliver t i notifyPaymentsQ m) hp hh
      event.id) (fun claimed w hc => ?_) (fun _ _ _ => trivial)
    refine tells_gated (fun _ => True) (fun _ _ _ => trivial) (fun hadmit => ?_) (fun _ => trivial)
      (fun _ _ => unsent_silence (only_op (by rintro ⟨_, _, _, h⟩; cases h)))
    rcases hadmit with rfl | hadmit
    · exact absurd rfl hc
    · exact absurd hadmit hattempt

theorem silence_met : (silence e n).Met lim (StartsLate lim e n) where
  refl := fun _ _ => trivial
  trans := fun _ _ _ _ _ _ => trivial
  compat := fun _ _ _ _ _ _ _ _ => trivial
  idle := fun _ => Duty.stable_true _
  aside := fun t _ _ h _ _ _ _ _ => ⟨trivial, .of_same (h.story t)⟩
  deliver := fun _ _ _ _ _ _ _ _ => ⟨trivial, .of_told (World.story_told rfl rfl) rfl⟩
  finish := fun _ _ _ _ _ => ⟨trivial, .of_told (World.story_told rfl rfl) rfl⟩
  crash := fun _ _ _ _ => ⟨trivial, .of_told (World.story_told rfl rfl) rfl⟩
  environment := fun _ _ _ _ _ _ _ => ⟨trivial, fun _ => trivial⟩
  polls := fun p t w hp _ _ _ => unsent_silence (hp.mono (by
    rintro op (ho | ⟨_, _, rfl⟩) ⟨_, _, _, h⟩
    · subst h
      exact ho
    · cases h))
  payment := fun t w i m _ _ _ _ _ hs => by
    refine unsent_silence ((@payment_processes lim m).mono ?_)
    rintro op ho ⟨_, _, _, rfl⟩
    exact ho
  notify := fun t w i m ha hr _ _ hp hs => notify_silence ha hr hp hs

/-- No thread from `n` on has posted for the event. -/
def World.Silent (e : UUID) (n : Tid) (w : World) : Prop :=
  ∀ t, n ≤ t → ∀ url payload, .posted url payload ∈ w.story t →
    ∀ m, .delivered notifyPaymentsQ m ∈ w.story t → m.notifies e = false

variable {c c' : Config World Op Op.Res Exc Reply} {mv : Move Op Choice Req Env}

theorem silent_step (hh : (World.contract.both (silence e n).contract).Holds (service lim)
      (StartsLate lim e n) c) (hi : c.shared.Silent e n) (ha : StartsLate lim e n c.shared mv)
    (hs : (service lim).Step c mv c') : c'.shared.Silent e n := by
  have hfresh := (hh.fresh c.next (Nat.le_refl _)).2
  rcases step_story hs with hsame | ⟨t, o, hm, ht, hother⟩
  · exact fun u => by simpa only [hsame u] using hi u
  intro u hn url payload hp m hd
  by_cases hu : t = u
  · subst hu
    rw [ht] at hp hd
    have hdel : .delivered notifyPaymentsQ m ∈ c.shared.story t := by
      rcases List.mem_cons.mp hd with rfl | hd
      · -- the thread is new and has not posted
        rw [told_delivered hs hfresh hm] at hp
        cases List.mem_singleton.mp hp
      · exact hd
    rcases List.mem_cons.mp hp with rfl | hp
    · exact (silence_met.step hh ha hs).2 t _ hm hn url payload ht m hdel
    · exact hi t hn url payload hp m hdel
  · rw [hother u hu] at hp hd
    exact hi u hn url payload hp m hd

theorem silent_reach (h : (service lim).Reach (StartsLate lim e n) (Config.initial {}) c) :
    c.shared.Silent e n := by
  have hinit : (World.contract.both (silence e n).contract).Holds (service lim)
      (StartsLate lim e n) (Config.initial {}) :=
    Contract.holds_initial ⟨World.inv_empty, trivial⟩ (fun _ => ⟨rfl, rfl⟩)
  induction h with
  | init => exact fun _ _ _ _ hp => absurd hp List.not_mem_nil
  | step hr ha hs ih => exact silent_step (silence_met.valid.holds_reach hinit hr) ih ha hs

/-- Once an event is confirmed, no delivery of it that starts later posts to the webhook, if none
starts on an attempt that the gate lets through without a claim. -/
theorem no_notification_after_confirmation (h : Reachable lim c) {o : OutboxRow}
    (ho : o ∈ c.shared.db.outbox.rows) (hs : o.status = .confirmed)
    (h' : (service lim).Reach (Unretried lim o.id) c c') (ht : c.next ≤ t)
    (hm : .delivered notifyPaymentsQ m ∈ c'.shared.story t) (hname : m.notifies o.id = true)
    (url : String) (payload : List (String × PyVal)) :
    .posted url payload ∉ c'.shared.story t := by
  have hfirst : (service lim).Reach (StartsLate lim o.id c.next) (Config.initial {}) c :=
    (h.numbered (Nat.le_refl _)).mono
      (fun w mv hlt u req he hn => absurd (hlt.2 u req he) (Nat.not_lt.mpr hn))
  have hthen : (service lim).Reach (StartsLate lim o.id c.next) c c' := by
    have hdone : c.shared.db.Handled o.id := ⟨o, ho, rfl, by rw [hs]; decide⟩
    clear hm ht
    induction h' with
    | init => exact .init
    | step hr ha hst ih =>
      exact .step ih (fun _ _ _ _ => ⟨hdone.grows (reach_grows h hr), ha⟩) hst
  intro hp
  rw [silent_reach (hfirst.trans hthen) t ht url payload hp m hm] at hname
  cases hname

end

/-- Nothing waits that has been tried before. -/
def untried (w : World) (_ : Move Op Choice Req Env) : Bool := w.ready.all (fun d => d.2.attempt = 0)

theorem unretried_of_untried {lim : Limits} {e : UUID} {w : World} {mv : Move Op Choice Req Env}
    (h : untried w mv = true) : Unretried lim e w mv := by
  unfold Unretried
  split
  · intro m hm _ hlt
    have : m.attempt = 0 := by simpa using List.all_eq_true.mp h _ (List.mem_of_getElem? hm)
    omega
  · trivial

/-- The thread handles a message of the event. -/
def notifiedOf (e : UUID) (story : List Obs) : Bool :=
  story.any (fun o => match o with
    | .delivered q m => q = notifyPaymentsQ && m.notifies e
    | _ => false)

theorem delivered_of_notifiedOf {e : UUID} {story : List Obs} (h : notifiedOf e story = true) :
    ∃ m, .delivered notifyPaymentsQ m ∈ story ∧ m.notifies e = true := by
  obtain ⟨o, ho, hm⟩ := List.any_eq_true.mp h
  cases o with
  | delivered q m =>
    obtain ⟨hq, hn⟩ := Bool.and_eq_true_iff.mp hm
    obtain rfl : q = notifyPaymentsQ := of_decide_eq_true hq
    exact ⟨m, ho, hn⟩
  | _ => cases hm

/-- A poll publishes a processed event again, and the first of the two messages is handled. -/
def confirmedRun : Schedule := settledRun ++ pollRun 2 [uid 12] ++ notifyRun 3 0

/-- The delivery of an event that is handled. -/
def skipRun (t : Tid) (i : Nat) : Schedule :=
  [.start (.deliver i), .run t (.time sampleTime)] ++ oks t 3 ++ [.exit t]

set_option maxRecDepth 20000 in
theorem confirmedRun_some : (after {} confirmedRun).isSome = true := by decide +kernel

def afterUntried : Option (Config World Op Op.Res Exc Reply) :=
  (sampleService {}).play untried (skipRun 4 0) ((after {} confirmedRun).get confirmedRun_some)

set_option maxRecDepth 20000 in
theorem skipRun_some : afterUntried.isSome = true := by decide +kernel

set_option maxRecDepth 20000 in
theorem skipRun_skips : ((after {} confirmedRun).get confirmedRun_some).next = 4 ∧
    notifiedOf (uid 12) ((afterUntried.get skipRun_some).shared.story 4) = true ∧
    ∃ o ∈ ((after {} confirmedRun).get confirmedRun_some).shared.db.outbox.rows, o.id = uid 12 ∧
      o.status = .confirmed := by decide +kernel

theorem no_notification_after_confirmation_skipped : ∃ c m,
    .delivered notifyPaymentsQ m ∈ (c : Config World Op Op.Res Exc Reply).shared.story 4 ∧
      m.notifies (uid 12) = true ∧ ∀ url payload, .posted url payload ∉ c.shared.story 4 := by
  obtain ⟨hnext, hskip, o, ho, hid, hs⟩ := skipRun_skips
  obtain ⟨m, hm, hn⟩ := delivered_of_notifiedOf hskip
  have hr : (sampleService {}).Reach (Unretried {} o.id) ((after {} confirmedRun).get
      confirmedRun_some) (afterUntried.get skipRun_some) :=
    Sys.reach_of_play (fun _ _ h => unretried_of_untried h) (Option.some_get skipRun_some).symm
  exact ⟨_, m, hm, hn, fun url payload => @no_notification_after_confirmation sample {} 4 m _ _
    (reachable_after confirmedRun_some) o ho hs hr (Nat.le_of_eq hnext) hm (hid ▸ hn) url payload⟩

/-- The first notification loses the database after its post and is to be tried again. A poll
publishes the event again, and the message of the poll confirms it. -/
def reconfirmedRun : Schedule :=
  settledRun ++ [.start (.deliver 0)] ++ claimRun 2 ++ oks 2 2 ++ [.run 2 (.fault .operational)] ++
    oks 2 5 ++ [.exit 2] ++ pollRun 3 [uid 12] ++ notifyRun 4 1

/-- The copy of the first message returns and is delivered, up to the post. -/
def retriedRun : Schedule :=
  [.env (.expire 0), .start (.deliver 0), .run 5 (.time sampleTime)] ++ oks 5 4

set_option maxRecDepth 20000 in
theorem retriedRun_posts : (after {} reconfirmedRun).any (fun c => c.next = 5 ∧
    c.shared.db.outbox.rows.any (fun o => o.id = uid 12 ∧ o.status = .confirmed) ∧
    (follow {} retriedRun c).any (fun c' => notifiedOf (uid 12) (c'.shared.story 5) ∧
      (c'.shared.story 5).any Obs.isPosted)) = true := by decide +kernel

theorem notified_after_confirmation : ∃ c c', @Reachable sample {} c ∧
    (sampleService {}).Reach (fun _ _ => True) c c' ∧ ∃ o ∈ c.shared.db.outbox.rows,
      o.status = .confirmed ∧ ∃ t m url payload, c.next ≤ t ∧
        .delivered notifyPaymentsQ m ∈ c'.shared.story t ∧ m.notifies o.id = true ∧
        .posted url payload ∈ c'.shared.story t := by
  obtain ⟨c, hc, hrun⟩ := (Option.any_eq_true _ _).mp retriedRun_posts
  obtain ⟨hnext, hrow, hretried⟩ := of_decide_eq_true hrun
  obtain ⟨o, ho, hrow⟩ := List.any_eq_true.mp hrow
  obtain ⟨hid, hs⟩ := of_decide_eq_true hrow
  obtain ⟨c', hc', hretried⟩ := (Option.any_eq_true _ _).mp hretried
  obtain ⟨hname, hpost⟩ := of_decide_eq_true hretried
  obtain ⟨m, hm, hn⟩ := delivered_of_notifiedOf hname
  obtain ⟨x, hx, hpx⟩ := List.any_eq_true.mp hpost
  obtain ⟨url, payload, rfl⟩ : ∃ url payload, x = .posted url payload := by
    cases x <;> first | exact ⟨_, _, rfl⟩ | cases hpx
  exact ⟨c, c', reachable_of_after hc, reach_of_follow hc', o, ho, hs, 5, m, url, payload,
    Nat.le_of_eq hnext, hm, hid ▸ hn, hx⟩

end Payments
