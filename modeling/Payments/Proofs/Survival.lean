import Payments.Proofs.Burial
import Payments.Proofs.Requests

namespace Payments

open Lib

/-- The step is a failure neither of the database nor of the broker. -/
def healthy : Move Op Choice Req Env → Bool
  | .run _ op (.fault _) => (op matches .send _ _ _)
  | .run _ _ (.lost _) => false
  | _ => true

/-- The lookup of an event, with the state that it meets. -/
def lookup? (m : World × Op × Choice) : Option (World × UUID) :=
  match m.2.1 with
  | .selectOutboxId id => some (m.1, id)
  | _ => none

/-- The lookups of events among the effects of a thread. -/
def lookups (ms : List (World × Op × Choice)) : List (World × UUID) := ms.filterMap lookup?

/-- The last lookup of the thread does not meet its event locked by another transaction. -/
def LastFree (t : Tid) (ms : List (World × Op × Choice)) : Prop :=
  ∀ x ∈ (lookups ms).getLast?, x.1.Free t (.outbox x.2)

/-- How often a thread acknowledges its message. -/
def ackCount (ms : List (World × Op × Choice)) : Nat := ms.countP (fun m => m.2.1 matches .ack)

/-- The effect is not a lookup of an event. -/
def Op.Unlooking (op : Op) : Prop := ∀ id, op ≠ .selectOutboxId id

/-- The effect answers whenever it does not fail. -/
def Op.Answers : Op → Prop
  | .insertPayment _ | .insertOutbox _ | .send _ _ _ => False
  | _ => True

/-- A thread works on a committed event over an infrastructure that works. -/
def Steady (t : Tid) (e : UUID) (ms : List (World × Op × Choice)) : Prop :=
  ∀ m ∈ ms, healthy (.run t m.2.1 m.2.2) = true ∧ ∃ o ∈ (m.1.view t).outbox.rows, o.id = e

section

variable {t : Tid} {e : UUID} {ms ms' : List (World × Op × Choice)}

theorem lookups_append : lookups (ms ++ ms') = lookups ms ++ lookups ms' :=
  List.filterMap_append

theorem lookups_nil (h : ∀ m ∈ ms, m.2.1.Unlooking) : lookups ms = [] := by
  apply List.filterMap_eq_nil_iff.mpr
  intro m hm
  have hl := h m hm
  unfold lookup?
  split
  · exact absurd ‹_› (hl _)
  · rfl

theorem lastFree_append_nil (h : lookups ms' = []) : LastFree t (ms ++ ms') ↔ LastFree t ms := by
  rw [LastFree, LastFree, lookups_append, h, List.append_nil]

theorem lastFree_append (h : lookups ms' ≠ []) : LastFree t (ms ++ ms') ↔ LastFree t ms' := by
  rw [LastFree, LastFree, lookups_append, List.getLast?_append_of_ne_nil _ h]

theorem lastFree_nil (h : lookups ms = []) : LastFree t ms := by
  intro x hx
  rw [h] at hx
  cases hx

theorem ackCount_append : ackCount (ms ++ ms') = ackCount ms + ackCount ms' :=
  List.countP_append

theorem ackCount_zero (h : ∀ m ∈ ms, m.2.1 ≠ .ack) : ackCount ms = 0 := by
  apply List.countP_eq_zero.mpr
  intro m hm
  have ha := h m hm
  cases hop : m.2.1 <;> first | exact absurd hop ha | simp

theorem Steady.left (h : Steady t e (ms ++ ms')) : Steady t e ms :=
  fun m hm => h m (List.mem_append_left _ hm)

theorem Steady.right (h : Steady t e (ms ++ ms')) : Steady t e ms' :=
  fun m hm => h m (List.mem_append_right _ hm)

variable [Externals] {lim : Limits}

/-- Over an infrastructure that works, an effect answers unless it refuses its values. -/
theorem healthy_answers {op : Op} {ch : Choice} {w w' : World} {r : Except Exc op.Res}
    (hh : healthy (.run t op ch) = true) (hop : op.Answers)
    (he : (service lim).exec t op ch w = some (r, w')) : ∃ a, r = .ok a := by
  have hd := @World.exec_does lim t op ch w w' r he
  cases hd with
  | fault => cases op <;> first | exact hop.elim | cases hh
  | lostCommit | lostPublish => cases hh
  | refusePayment | conflict | insertPayment | refuseOutbox | insertOutbox | send => exact hop.elim
  | _ => exact ⟨_, rfl⟩

theorem steady_smooth {α : Type} {p : Service α} {x : Except Exc α}
    (h : Sys.Course (service lim) t p ms x) (hs : Steady t e ms) (hp : p.Smooth)
    (ho : p.Only Op.Answers) : ∃ a, x = .ok a :=
  h.of_smooth hp (fun m hm _ _ he => healthy_answers (hs m hm).1 (h.of_only ho m hm) he)

/-- A unit of work ends as its body does. -/
theorem steady_within {α : Type} {body : Service α} {x : Except Exc α}
    (h : Sys.Course (service lim) t (Uow.within body) ms x) (hs : Steady t e ms) :
    ∃ ms₁ ms₂, ms = ms₁ ++ ms₂ ∧ Sys.Course (service lim) t body ms₁ x ∧ lookups ms₂ = [] := by
  obtain ⟨r, ms₁, ms₂, w, ch, rfl, hbody, hu, hend⟩ := within_course h
  have hx : x = r := by
    rcases hend with ⟨_, hx⟩ | ⟨_, rfl, _⟩
    · exact hx
    · have hclose := (hs.right.right _ (List.mem_singleton_self _)).1
      cases hclose
  refine ⟨ms₁, _, rfl, hx ▸ hbody, lookups_nil (fun m hm => ?_)⟩
  rcases List.mem_append.mp hm with hm | hm
  · rw [hu.rollbacks m hm]
    exact fun _ hop => by cases hop
  · rw [List.mem_singleton.mp hm]
    exact fun _ hop => by cases hop

theorem steady_claim {x : Except Exc Bool} (h : Sys.Course (service lim) t (claim e) ms x)
    (hs : Steady t e ms) : (∃ b, x = .ok b) ∧ lookups ms = [] := by
  have hquiet : lookups ms = [] := lookups_nil (fun m hm id hop => by
    have hclaims := h.of_only (only_claim e) m hm
    rw [hop] at hclaims
    exact hclaims)
  obtain ⟨ms₁, ms₂, rfl, hbody, _⟩ := steady_within h hs
  refine ⟨steady_smooth hbody hs.left ?_ ((only_markInProcess e).mono ?_), hquiet⟩
  · refine Prog.Smooth.bind (Prog.smooth_perform _) (fun now => ?_)
    refine Prog.Smooth.bind (Prog.smooth_perform _) (fun lockedId => ?_)
    cases lockedId with
    | none => trivial
    | some _ =>
      exact Prog.Smooth.bind (Prog.smooth_perform _) (fun _ =>
        Prog.Smooth.bind (Prog.smooth_perform _) (fun _ => trivial))
  · intro op hop
    cases op <;> first | exact hop.elim | trivial

/-- The end state of an event is written exactly where the lookup does not meet it locked; where it
does, the event passes for unknown. -/
theorem steady_conclude {status : TaskStatus} {x : Except Exc Unit}
    (h : Sys.Course (service lim) t (conclude e status) ms x) (hs : Steady t e ms) :
    lookups ms ≠ [] ∧ (x = .ok () ∧ LastFree t ms ∨
      (∃ m, x = .error (.valueError m)) ∧ ¬ LastFree t ms) := by
  obtain ⟨ms₁, ms₂, rfl, hbody, hquiet⟩ := steady_within h hs
  replace hs := hs.left
  simp only [OutboxRepository.markProcessed, Prog.bind_eq, Prog.bind_assoc] at hbody
  rcases hbody.of_bind with ⟨result, msl, msr, rfl, hl, hr⟩ | ⟨e', hl, rfl⟩
  swap
  · obtain ⟨_, he⟩ := steady_smooth hl hs (Prog.smooth_perform _) (only_op trivial)
    cases he
  obtain ⟨w, ch, w', rfl, hexec⟩ := hl.of_perform
  have hfirst : lookups [(w, .selectOutboxId e, ch)] = [(w, e)] := rfl
  have hfree : LastFree t [(w, .selectOutboxId e, ch)] ↔ w.Free t (.outbox e) := by
    simp [LastFree, hfirst]
  have hnone : ∀ {ms'}, lookups ms' ≠ [] → lookups (ms' ++ ms₂) ≠ [] := fun hne hn =>
    hne (List.append_eq_nil_iff.mp (lookups_append ▸ hn)).1
  rw [lastFree_append_nil hquiet]
  obtain ⟨o, ho, hid⟩ := (hs _ List.mem_cons_self).2
  have hd := @World.exec_does lim t (.selectOutboxId e) ch w w' _ hexec
  cases hd with
  | skipEvent hn =>
    cases hr
    refine ⟨hnone (by simp [hfirst]), .inr ⟨⟨_, rfl⟩, fun hl => ?_⟩⟩
    exact hn o ho hid (hfree.mp hl)
  | lockEvent _ _ hf =>
    have hrest : ∀ P : Op → Prop, P (.updateOutbox e status none) → P .flush → P .commit →
        P .rollback → ∀ m ∈ msr, P m.2.1 := fun P hu hf hc hb => hr.of_only
      (Prog.Only.bind (Prog.Only.bind (only_op hu) (fun _ => only_op hf)) (fun _ =>
        only_commit hc hb))
    have hquiet' : lookups msr = [] := lookups_nil (hrest Op.Unlooking (fun _ h => by cases h)
      (fun _ h => by cases h) (fun _ h => by cases h) (fun _ h => by cases h))
    have hsmooth : ((perform (.updateOutbox e status none)).bind (fun _ => perform .flush)).Smooth :=
      Prog.Smooth.bind (Prog.smooth_perform _) (fun _ => Prog.smooth_perform _)
    obtain ⟨a, rfl⟩ := hr.of_smooth (Prog.Smooth.bind hsmooth (fun _ => Prog.Smooth.handle
      (Prog.smooth_perform _))) (fun m hm _ _ he => healthy_answers (hs.right m hm).1
        (hrest Op.Answers trivial trivial trivial trivial m hm) he)
    have hsome : lookups ([(w, .selectOutboxId e, .ok)] ++ msr) ≠ [] := by
      rw [lookups_append, hfirst]
      exact List.cons_ne_nil _ _
    refine ⟨hnone hsome, .inl ⟨rfl, ?_⟩⟩
    rw [lastFree_append_nil hquiet', hfree]
    exact hf

variable {m : Message} {maxAttempts : Nat} {base : RabbitQueue} {deadKey : String}
  {deadHeaders : Option Nat}

omit [Externals] in
theorem retry_some (h : m.attempt < maxAttempts) :
    ∃ retry, (retryRoutingQueues base maxAttempts)[m.attempt]? = some retry := by
  have hlt : m.attempt < (retryRoutingQueues base maxAttempts).length := by
    simpa [retryRoutingQueues, createRetryQueues] using h
  exact ⟨_, List.getElem?_eq_getElem hlt⟩

/-- Only on the last attempt does the `except` branch look the event up, and raise where it does
not find it. -/
theorem steady_retryOrBury {x : Except Exc Unit}
    (h : Sys.Course (service lim) t (retryOrBury base maxAttempts m e deadKey deadHeaders) ms x)
    (hs : Steady t e ms) :
    x = .ok () ∧ (m.attempt < maxAttempts ∨ lookups ms ≠ [] ∧ LastFree t ms) ∨
      (∃ e', x = .error e') ∧ ¬ m.attempt < maxAttempts ∧ lookups ms ≠ [] ∧ ¬ LastFree t ms := by
  have hpublish : ∀ {exchange key copy ms} {x : Except Exc Unit}, Sys.Course (service lim) t
      (perform (.publish exchange key copy)) ms x → Steady t e ms → x = .ok () ∧ lookups ms = [] := by
    intro exchange key copy ms x h hs
    obtain ⟨_, rfl⟩ := steady_smooth h hs (Prog.smooth_perform _) (only_op trivial)
    refine ⟨rfl, lookups_nil (h.of_only (P := Op.Unlooking) (only_op ?_))⟩
    exact fun _ hop => by cases hop
  rcases h.of_bind with ⟨_, msc, ms', rfl, hc, h⟩ | ⟨_, hc, rfl⟩
  swap
  · obtain ⟨_, he⟩ := steady_smooth hc hs (Prog.smooth_perform _) (only_op trivial)
    cases he
  replace hs := hs.right
  by_cases hlt : m.attempt < maxAttempts
  · obtain ⟨retry, hretry⟩ := @retry_some m maxAttempts base hlt
    simp only [hlt, ↓reduceIte, hretry] at h
    exact .inl ⟨(hpublish h hs).1, .inl hlt⟩
  · simp only [hlt, ↓reduceIte] at h
    have hcons : ∀ {ms'}, lookups ms' ≠ [] → lookups (msc ++ ms') ≠ [] := fun hne hn =>
      hne (List.append_eq_nil_iff.mp (lookups_append ▸ hn)).2
    rcases h.of_bind with ⟨_, msf, msp, rfl, hf, hp⟩ | ⟨e', hf, rfl⟩
    · obtain ⟨hne, ⟨_, hfree⟩ | ⟨⟨_, he⟩, _⟩⟩ := steady_conclude hf hs.left
      swap
      · cases he
      obtain ⟨rfl, hnil⟩ := hpublish hp hs.right
      have hne' : lookups (msf ++ msp) ≠ [] := by rwa [lookups_append, hnil, List.append_nil]
      refine .inl ⟨rfl, .inr ⟨hcons hne', ?_⟩⟩
      rwa [lastFree_append hne', lastFree_append_nil hnil]
    · obtain ⟨hne, ⟨he, _⟩ | ⟨_, hlocked⟩⟩ := steady_conclude hf hs
      · cases he
      refine .inr ⟨⟨e', rfl⟩, hlt, hcons hne, ?_⟩
      rwa [lastFree_append hne]

/-- The guarded part of a handler raises only where the last lookup of a last attempt meets the
event locked. -/
theorem steady_guarded {run : Service Unit} {f : Exc → Service Unit} {x : Except Exc Unit}
    (h : Sys.Course (service lim) t (((perform (.enter e)).bind (fun _ =>
      run.bind (fun _ => conclude e .confirmed))).handle f) ms x)
    (hs : Steady t e ms) (hrun : run.Only Op.Unlooking)
    (hf : ∀ e', f e' = .ret () ∧ e'.isBusinessRule = true ∨
      f e' = retryOrBury base maxAttempts m e deadKey deadHeaders) :
    x = .ok () ↔ (maxAttempts ≤ m.attempt → LastFree t ms) := by
  have hbody : ∀ {ms x}, Sys.Course (service lim) t ((perform (.enter e)).bind (fun _ =>
      run.bind (fun _ => conclude e .confirmed))) ms x → Steady t e ms →
      LastFree t ms ∨ ∃ e', x = .error e' ∧ e'.isBusinessRule = false := by
    intro ms x h hs
    rcases h.of_bind with ⟨_, ms₁, ms', rfl, he, h⟩ | ⟨_, he, rfl⟩
    swap
    · obtain ⟨_, he⟩ := steady_smooth he hs (Prog.smooth_perform _) (only_op trivial)
      cases he
    have hnil₁ : lookups ms₁ = [] := lookups_nil (he.of_only (P := Op.Unlooking)
      (only_op (fun _ hop => by cases hop)))
    rcases h.of_bind with ⟨_, ms₂, ms₃, rfl, hr, hc⟩ | ⟨_, hr, rfl⟩
    · have hnil₂ : lookups ms₂ = [] := lookups_nil (hr.of_only hrun)
      obtain ⟨hne, ⟨rfl, hfree⟩ | ⟨⟨_, rfl⟩, _⟩⟩ := steady_conclude hc hs.right.right
      · left
        rwa [← List.append_assoc, lastFree_append hne]
      · exact .inr ⟨_, rfl, rfl⟩
    · left
      apply lastFree_nil
      rw [lookups_append, hnil₁, lookups_nil (hr.of_only hrun)]
      rfl
  rcases h.of_handle with ⟨a, hb, rfl⟩ | ⟨e', ms₁, ms₂, rfl, hb, hr⟩
  · obtain hfree | ⟨_, he, _⟩ := hbody hb hs
    · exact ⟨fun _ _ => hfree, fun _ => rfl⟩
    · cases he
  rcases hf e' with ⟨hret, hrule⟩ | hretry
  · rw [hret] at hr
    cases hr
    obtain hfree | ⟨_, he, hno⟩ := hbody hb hs.left
    · rw [List.append_nil]
      exact ⟨fun _ _ => hfree, fun _ => rfl⟩
    · cases he
      rw [hrule] at hno
      cases hno
  · rw [hretry] at hr
    rcases steady_retryOrBury hr hs.right with ⟨rfl, hlt | ⟨hne, hfree⟩⟩ | ⟨⟨_, rfl⟩, hlt, hne, hlocked⟩
    · exact ⟨fun _ hle => absurd hlt (by omega), fun _ => rfl⟩
    · rw [lastFree_append hne]
      exact ⟨fun _ _ => hfree, fun _ => rfl⟩
    · rw [lastFree_append hne]
      exact ⟨(fun he => by cases he), fun hfree => absurd (hfree (by omega)) hlocked⟩

/-- A handler that has read its event returns and acknowledges its message once, unless the guarded
part raises. -/
theorem steady_gated {execute : Service Unit} {x : Except Exc Unit}
    (h : Sys.Course (service lim) t ((claim e).bind (fun claimed =>
      (if Admitted claimed m.attempt maxAttempts then execute else .ret ()).bind (fun _ =>
        perform .ack))) ms x)
    (hs : Steady t e ms) (hack : execute.Only (fun op => op ≠ .ack))
    (hex : ∀ ms x, Sys.Course (service lim) t execute ms x → Steady t e ms →
      (x = .ok () ↔ (maxAttempts ≤ m.attempt → LastFree t ms))) :
    (x = .ok () ∧ ackCount ms = 1) ↔ (maxAttempts ≤ m.attempt → LastFree t ms) := by
  rcases h.of_bind with ⟨claimed, msc, ms', rfl, hc, h⟩ | ⟨_, hc, rfl⟩
  swap
  · obtain ⟨⟨_, he⟩, _⟩ := steady_claim hc hs
    cases he
  have hnil := (steady_claim hc hs.left).2
  have hnone : ackCount msc = 0 := ackCount_zero (fun m hm hop => by
    have hclaims := hc.of_only (only_claim e) m hm
    rw [hop] at hclaims
    exact hclaims)
  replace hs := hs.right
  -- the gated part is quiet where the gate is closed
  have hgate : ∀ {ms x}, Sys.Course (service lim) t
      (if Admitted claimed m.attempt maxAttempts then execute else .ret ()) ms x → Steady t e ms →
      ackCount ms = 0 ∧ (x = .ok () ↔ (maxAttempts ≤ m.attempt → LastFree t ms)) := by
    intro ms x h hs
    split at h
    · exact ⟨ackCount_zero (h.of_only hack), hex ms x h hs⟩
    · cases h
      exact ⟨rfl, fun _ _ => lastFree_nil rfl, fun _ => rfl⟩
  have hsame : ∀ {ms}, LastFree t (msc ++ ms) ↔ LastFree t ms := by
    intro ms
    rw [LastFree, LastFree, lookups_append, hnil, List.nil_append]
  rw [hsame, ackCount_append, hnone, Nat.zero_add]
  rcases h.of_bind with ⟨_, mse, msa, rfl, hg, ha⟩ | ⟨_, hg, rfl⟩
  · obtain ⟨_, rfl⟩ := steady_smooth ha hs.right (Prog.smooth_perform _) (only_op trivial)
    obtain ⟨hzero, hiff⟩ := hgate hg hs.left
    obtain ⟨w, ch, _, rfl, _⟩ := ha.of_perform
    rw [lastFree_append_nil rfl, ackCount_append, hzero]
    exact ⟨fun _ => hiff.mp rfl, fun _ => ⟨rfl, rfl⟩⟩
  · obtain ⟨_, hiff⟩ := hgate hg hs
    exact ⟨(fun he => by cases he.1), fun hfree => by cases hiff.mpr hfree⟩

theorem steady_payment {event : PaymentEvent} {x : Except Exc Unit}
    (hd : decodeNew m.body = .ok event) (hs : Steady t event.id ms)
    (h : Sys.Course (service lim) t (handlePaymentProcessing maxAttempts m) ms x) :
    (x = .ok () ∧ ackCount ms = 1) ↔ (maxAttempts ≤ m.attempt → LastFree t ms) := by
  simp only [handlePaymentProcessing, hd, Prog.bind_eq, Prog.pure_eq, Prog.ofExcept_ok_bind] at h
  rcases h.of_bind with ⟨_, msc, ms', rfl, hc, hg⟩ | ⟨_, hc, rfl⟩
  swap
  · obtain ⟨_, he⟩ := steady_smooth hc hs (Prog.smooth_perform _) (only_op trivial)
    cases he
  obtain ⟨w, ch, _, rfl, _⟩ := hc.of_perform
  have hfirst : ackCount [(w, .connect, ch)] = 0 := rfl
  have hsame : ∀ {ms}, LastFree t ([(w, .connect, ch)] ++ ms) ↔ LastFree t ms := Iff.rfl
  rw [hsame, ackCount_append, hfirst, Nat.zero_add]
  apply steady_gated hg hs.right
  · apply only_guarded
    · simp
    · apply (only_process_payment event).mono
      rintro op (hop | ⟨_, _, rfl⟩) hack
      · subst hack
        exact hop
      · cases hack
    · rintro op hop rfl
      exact hop
    · intro e'
      split
      · trivial
      · apply (only_retryOrBury _ _ _ _ _ _).mono
        rintro op hop rfl
        rcases hop with hop | ⟨_, _, _, hop⟩ | ⟨_, hop | hop⟩ <;> cases hop
  · intro ms x hx hs
    apply steady_guarded hx hs
    · apply (only_process_payment event).mono
      rintro op (hop | ⟨_, _, rfl⟩) id hlook
      · subst hlook
        exact hop
      · cases hlook
    · intro e'
      by_cases hrule : e'.isBusinessRule = true
      · exact .inl ⟨if_pos hrule, hrule⟩
      · exact .inr (if_neg hrule)

theorem steady_notify {event : PaymentEvent} {x : Except Exc Unit}
    (hd : decodeNotify m.body = .ok event) (hs : Steady t event.id ms)
    (h : Sys.Course (service lim) t (handleNotifyClient maxAttempts m) ms x) :
    (x = .ok () ∧ ackCount ms = 1) ↔ (maxAttempts ≤ m.attempt → LastFree t ms) := by
  simp only [handleNotifyClient, hd, Prog.bind_eq, Prog.pure_eq, Prog.ofExcept_ok_bind] at h
  apply steady_gated h hs
  · apply only_guarded
    · simp
    · apply (only_sendNotification event).mono
      rintro op ⟨_, _, _, rfl⟩ hack
      cases hack
    · rintro op hop rfl
      exact hop
    · intro e'
      apply (only_retryOrBury _ _ _ _ _ _).mono
      rintro op hop rfl
      rcases hop with hop | ⟨_, _, _, hop⟩ | ⟨_, hop | hop⟩ <;> cases hop
  · intro ms x hx hs
    apply steady_guarded hx hs
    · apply (only_sendNotification event).mono
      rintro op ⟨_, _, _, rfl⟩ id hlook
      cases hlook
    · exact fun e' => .inr rfl

omit [Externals] in
theorem decodes_new {db : Db} (ha : db.Agree) (hc : Carries db newPaymentsQ m) :
    ∃ event, decodeNew m.body = .ok event := by
  obtain ⟨o, _, hb, r, _, hc⟩ := hc.created ha
  rw [hb]
  exact ⟨_, decode_created hc⟩

omit [Externals] in
theorem decodes_notify {db : Db} (ha : db.Agree) (hc : Carries db notifyPaymentsQ m) :
    ∃ event, decodeNotify m.body = .ok event := by
  obtain ⟨_, o, ho, hb, ht | hq⟩ := hc
  · simp [RabbitQueue.topic, notifyPaymentsQ] at ht
  · obtain ⟨r, hr, hc | ⟨_, hp, reason, hre⟩⟩ := ha.origin o ho
    · rw [hc.1] at hq
      simp [EventClass.queue, RabbitQueue.topic, notifyPaymentsQ] at hq
    · rw [hb]
      exact ⟨_, decode_processed hre (amount_parses (ha.amount r hr)).1⟩

variable {c c₁ c' : Config World Op Op.Res Exc Reply} {q : RabbitQueue}
  {ds : List (Config World Op Op.Res Exc Reply × Move Op Choice Req Env)}

/-- What a thread meets in a run over an infrastructure that works. -/
theorem steady_own {key : String} (h : Reachable lim c₁) (h' : (service lim).Path c₁ ds c')
    (hok : ∀ d ∈ ds, healthy d.2 = true) (hb : Backed key m e c₁.shared.db) :
    Steady t e (Sys.own t ds) := by
  rintro ⟨w, op, ch⟩ hm
  obtain ⟨d, hd, rfl, he⟩ := Sys.mem_own.mp hm
  refine ⟨he ▸ hok d hd, Db.event_applyAll ?_⟩
  have hreach : (service lim).Reach (fun _ _ => True) c₁ d.1 := h'.reach_mem (fun _ _ => trivial) hd
  obtain ⟨o, ho, _, _, hid⟩ := hb.grows (reach_grows h hreach)
  exact ⟨o, ho, hid⟩

/-- A handler run over an infrastructure in which only the webhook may fail returns and acknowledges
its message once, exactly where the last lookup of a last attempt does not meet the event locked. -/
theorem handlers_survive {i : Nat} {x : Except Exc Reply} (h : Reachable lim c)
    (hr : c.shared.ready[i]? = some (q, m)) (hs : (service lim).Step c (.start t (.deliver i)) c₁)
    (h' : (service lim).Path c₁ ds c') (hok : ∀ d ∈ ds, healthy d.2 = true)
    (hx : .ended x ∈ c'.shared.story t) :
    (x = .ok .done ∧ ackCount (Sys.own t ds) = 1) ↔
      (lim.attempts q ≤ m.attempt → LastFree t (Sys.own t ds)) := by
  obtain ⟨p, hp, hw, hlt, ht, hstory⟩ := started_delivery h hr hs
  have hended := ended_course h' hlt ht (by simp [hstory]) hx
  obtain ⟨y, hcourse, rfl⟩ := hended.of_map
  have hdone : y.map (fun _ => Reply.done) = .ok .done ↔ y = .ok () := by
    cases y <;> simp [Except.map]
  rw [hdone]
  have hi := (reachable_holds h).inv
  have hc := hi.ready _ (List.mem_of_getElem? hr)
  have hr₁ : Reachable lim c₁ := h.step trivial hs
  have hdb : c₁.shared.db = c.shared.db := by rw [hw]; rfl
  unfold subscriber at hp
  split at hp
  · rename_i hq
    subst hq
    cases hp
    obtain ⟨event, hd⟩ := decodes_new hi.agree hc
    exact steady_payment hd (steady_own hr₁ h' hok (hdb ▸ decodedNew_backed hc hd)) hcourse
  · split at hp
    · rename_i hne hq
      subst hq
      cases hp
      obtain ⟨event, hd⟩ := decodes_notify hi.agree hc
      have hlim : lim.attempts notifyPaymentsQ = lim.notify := if_neg hne
      rw [hlim]
      exact steady_notify hd (steady_own hr₁ h' hok (hdb ▸ decodedNotify_backed hc hd)) hcourse
    · cases hp

end

/-- The runs in which only the webhook fails. -/
def afterHealthy (as : Schedule) (c : Config World Op Op.Res Exc Reply) :
    Option (Config World Op Op.Res Exc Reply) :=
  (sampleService {}).play (fun _ => healthy) as c

/-- The delivery of the first message after a run, with what follows: the configurations before it,
after its start and in the end. -/
def deliveryRun (as bs : Schedule) : Option (Config World Op Op.Res Exc Reply ×
    Config World Op Op.Res Exc Reply × Config World Op Op.Res Exc Reply) :=
  (afterHealthy as (Config.initial {})).bind (fun c =>
    ((sampleService {}).next? c (.start (.deliver 0))).bind (fun x =>
      (afterHealthy bs x.2).map (fun c' => (c, x.2, c'))))

theorem path_of_delivery {as bs : Schedule} {c c₁ c' : Config World Op Op.Res Exc Reply}
    (h : deliveryRun as bs = some (c, c₁, c')) :
    (sampleService {}).Reach (fun _ m => healthy m = true) (Config.initial {}) c ∧
      (sampleService {}).Step c (.start c.next (.deliver 0)) c₁ ∧
      ∃ ds, (sampleService {}).Path c₁ ds c' ∧ ∀ d ∈ ds, healthy d.2 = true := by
  obtain ⟨c, hc, h⟩ := Option.bind_eq_some_iff.mp h
  obtain ⟨⟨m, c₁⟩, hm, h⟩ := Option.bind_eq_some_iff.mp h
  obtain ⟨c', hc', he⟩ := Option.map_eq_some_iff.mp h
  cases he
  exact ⟨Sys.reach_of_play (fun _ _ h => h) hc, Sys.step_of_start hm, Sys.path_of_play hc'⟩

/-- A first delivery that settles the payment. -/
def survivingRun : Option (Config World Op Op.Res Exc Reply × Config World Op Op.Res Exc Reply ×
    Config World Op Op.Res Exc Reply) :=
  deliveryRun (createRun 0 (uid 1) (uid 10) (uid 11)) ((processRun 1 0 (uid 12)).drop 1)

set_option maxRecDepth 20000 in
theorem survivingRun_ends : survivingRun.any (fun x => awaits 0 x.1.shared && x.1.next == 1 &&
    ends 1 x.2.2.shared.trace) = true := by decide +kernel

theorem handlers_survive_first : ∃ (c c₁ : Config World Op Op.Res Exc Reply) (ds : _)
    (c' : Config World Op Op.Res Exc Reply), @Reachable sample {} c ∧
    (sampleService {}).Step c (.start 1 (.deliver 0)) c₁ ∧ (sampleService {}).Path c₁ ds c' ∧
    .ended (.ok .done) ∈ c'.shared.story 1 ∧ ackCount (Sys.own 1 ds) = 1 := by
  obtain ⟨⟨c, c₁, c'⟩, hrun, hx⟩ := (Option.any_eq_true _ _).mp survivingRun_ends
  simp only [Bool.and_eq_true, beq_iff_eq] at hx
  obtain ⟨⟨hawaits, hnext⟩, hends⟩ := hx
  obtain ⟨hreach, hs, ds, hp, hok⟩ := path_of_delivery hrun
  obtain ⟨m, hr, ha⟩ := ready_of_awaits hawaits
  obtain ⟨x, hx⟩ := mem_of_ends hends
  have hreach' : @Reachable sample {} c := hreach.mono (fun _ _ _ => trivial)
  have hend : .ended x ∈ c'.shared.story 1 := World.mem_story.mpr ⟨hx, rfl⟩
  rw [hnext] at hs
  have hfirst : ¬ ({} : Limits).attempts newPaymentsQ ≤ m.attempt := by
    rw [ha]
    decide
  obtain ⟨hdone, hack⟩ := (@handlers_survive 1 sample {} m c c₁ c' newPaymentsQ ds 0 x hreach' hr hs
    hp hok hend).mpr (fun hl => absurd hl hfirst)
  exact ⟨c, c₁, ds, c', hreach', hs, hp, hdone ▸ hend, hack⟩

/-- A delivery that finds the row of the payment locked and is retried. -/
def missRun (t : Tid) : Schedule :=
  [.start (.deliver 0), .run t .ok] ++ claimRun t ++ oks t 7 ++ [.exit t, .env (.expire 0)]

/-- A second message of the event has the payment locked through the attempts of the first. -/
def exhaustedRun : Schedule :=
  createRun 0 (uid 1) (uid 10) (uid 11) ++ pollRun 1 [uid 11] ++ [.start (.deliver 0), .run 2 .ok] ++
    claimRun 2 ++ oks 2 2 ++ missRun 3 ++ missRun 4 ++ missRun 5

/-- The last attempt finds the payment locked, too, and a poll has locked the event when it is to
fail. -/
def dyingRun : Schedule :=
  [.run 6 .ok] ++ claimRun 6 ++ oks 6 5 ++ [.start .poll, .run 7 .ok, .run 7 (.order [uid 11])] ++
    oks 6 3 ++ [.exit 6]

/-- A thread has ended with a `ValueError`. -/
def raisesValue (t : Tid) (trace : List (Tid × Obs)) : Bool :=
  trace.any (fun d => d.1 = t && match d.2 with
    | .ended (.error (.valueError _)) => true
    | _ => false)

theorem mem_of_raisesValue {t : Tid} {trace : List (Tid × Obs)} (h : raisesValue t trace = true) :
    ∃ m, (t, .ended (.error (.valueError m))) ∈ trace := by
  obtain ⟨⟨u, o⟩, hm, ho⟩ := List.any_eq_true.mp h
  simp only [Bool.and_eq_true, decide_eq_true_eq] at ho
  obtain ⟨rfl, ho⟩ := ho
  split at ho
  · exact ⟨_, hm⟩
  · cases ho

set_option maxRecDepth 20000 in
theorem dyingRun_dies : (deliveryRun exhaustedRun dyingRun).any (fun x => awaits 3 x.1.shared &&
    x.1.next == 6 && raisesValue 6 x.2.2.shared.trace && !acks 6 x.2.2.shared.trace &&
    unburied x.2.2.shared.trace) = true := by decide +kernel

/-- A handler dies of an event that a poll has locked: it has not acknowledged its message, and there
is no dead letter. -/
theorem handler_dies : ∃ (c c₁ : Config World Op Op.Res Exc Reply) (ds : _)
    (c' : Config World Op Op.Res Exc Reply) (m : Message) (e : String),
    (sampleService {}).Reach (fun _ m => healthy m = true) (Config.initial {}) c ∧
    c.shared.ready[0]? = some (newPaymentsQ, m) ∧ m.attempt = ({} : Limits).process ∧
    (sampleService {}).Step c (.start 6 (.deliver 0)) c₁ ∧ (sampleService {}).Path c₁ ds c' ∧
    (∀ d ∈ ds, healthy d.2 = true) ∧ .ended (.error (.valueError e)) ∈ c'.shared.story 6 ∧
    (6, .acked) ∉ c'.shared.trace ∧ ∀ e, ¬ c'.shared.Buried e := by
  obtain ⟨⟨c, c₁, c'⟩, hrun, hx⟩ := (Option.any_eq_true _ _).mp dyingRun_dies
  simp only [Bool.and_eq_true, beq_iff_eq, Bool.not_eq_true'] at hx
  obtain ⟨⟨⟨⟨hawaits, hnext⟩, hraises⟩, hacks⟩, hburied⟩ := hx
  obtain ⟨hreach, hs, ds, hp, hok⟩ := path_of_delivery hrun
  obtain ⟨m, hr, ha⟩ := ready_of_awaits hawaits
  obtain ⟨e, he⟩ := mem_of_raisesValue hraises
  rw [hnext] at hs
  refine ⟨c, c₁, ds, c', m, e, hreach, hr, ha, hs, hp, hok, World.mem_story.mpr ⟨he, rfl⟩,
    fun hm => ?_, not_buried hburied⟩
  have hack := List.any_eq_false.mp hacks _ hm
  simp at hack

end Payments
