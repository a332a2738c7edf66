import Payments.Service.Sender
import Payments.Proofs.Circuit

namespace Payments

open Lib

/-- How an attempt to POST ends. -/
inductive Outcome where
  | status (code : Nat)
  | timeout
  | requestError

namespace Outcome

def answer : Outcome → Except SenderExc Nat
  | status code => .ok code
  | timeout => .error (.httpx .timeoutException)
  | requestError => .error (.httpx .requestError)

/-- A timeout, a request error, a 5xx or a 429. -/
def Retryable : Outcome → Prop
  | status code => 500 ≤ code ∧ code < 600 ∨ code = 429
  | _ => True

/-- A 2xx response. -/
def Success : Outcome → Prop
  | status code => 200 ≤ code ∧ code < 300
  | _ => False

/-- A 4xx response other than 429. -/
def ClientError : Outcome → Prop
  | status code => 400 ≤ code ∧ code < 500 ∧ code ≠ 429
  | _ => False

/-- What the code sends again for: every status from 500 on is a server error to it. -/
def Retried : Outcome → Prop
  | status code => 500 ≤ code ∨ code = 429
  | _ => True

instance : DecidablePred Retried := fun o => by
  cases o <;> unfold Retried <;> infer_instance

theorem Retryable.retried {o : Outcome} (h : o.Retryable) : o.Retried := by
  cases o with
  | status code => exact h.imp And.left id
  | timeout => trivial
  | requestError => trivial

theorem Success.not_retried {o : Outcome} (h : o.Success) : ¬ o.Retried := by
  cases o with
  | status code =>
    unfold Success at h
    unfold Retried
    omega
  | timeout => exact h.elim
  | requestError => exact h.elim

theorem ClientError.not_retried {o : Outcome} (h : o.ClientError) : ¬ o.Retried := by
  cases o with
  | status code =>
    unfold ClientError at h
    unfold Retried
    omega
  | timeout => exact h.elim
  | requestError => exact h.elim

theorem ClientError.not_success {o : Outcome} (h : o.ClientError) : ¬ o.Success := by
  cases o with
  | status code =>
    unfold ClientError at h
    unfold Success
    omega
  | timeout => exact h.elim
  | requestError => exact h.elim

/-- What is retried raises an exception of `httpx`. -/
theorem Retried.raises {o : Outcome} (h : o.Retried) :
    ∃ e, checkResponse o.answer = .error (.httpx e) := by
  cases o with
  | status code =>
    unfold Retried at h
    simp only [answer, checkResponse]
    by_cases h500 : code ≥ 500
    · exact ⟨_, by rw [if_pos h500]⟩
    · have h429 : code = 429 := by omega
      exact ⟨_, by rw [if_neg h500, if_pos h429]⟩
  | timeout => exact ⟨_, rfl⟩
  | requestError => exact ⟨_, rfl⟩

/-- What is not retried is a client error, or it is taken for a success. -/
theorem settled {o : Outcome} (h : ¬ o.Retried) :
    (o.ClientError ∧ checkResponse o.answer = .error (.raised .webhookPayload)) ∨
      (¬ o.ClientError ∧ checkResponse o.answer = .ok ()) := by
  cases o with
  | status code =>
    unfold Retried at h
    have h500 : ¬ code ≥ 500 := by omega
    have h429 : ¬ code = 429 := by omega
    simp only [answer, checkResponse, if_neg h500, if_neg h429]
    by_cases h400 : code ≥ 400
    · exact .inl ⟨⟨h400, by omega, h429⟩, by rw [if_pos h400]⟩
    · exact .inr ⟨fun hc => h400 hc.1, by rw [if_neg h400]⟩
  | timeout => exact absurd trivial h
  | requestError => exact absurd trivial h

end Outcome

section

variable [Pybreaker] {self : HttpxWebhookSender} {now : Nat} {url : String}
  {payload : List (String × PyVal)} {timeout : Nat} {outcomes : Nat → Outcome}

/-- What the POSTs answer that end so, one after the other. -/
def answers (outcomes : Nat → Outcome) (n : Nat) : (op : PostOp) → Except SenderExc op.Res
  | .post _ _ _ => (outcomes n).answer

/-- A send whose POSTs end so: the POSTs that are made, and how it ends itself. -/
def HttpxWebhookSender.sends (self : HttpxWebhookSender) (now : Nat) (url : String)
    (payload : List (String × PyVal)) (timeout : Nat) (outcomes : Nat → Outcome) :
    List PostOp × Except SenderExc HttpxWebhookSender :=
  (self.send now url payload timeout).replay (answers outcomes) 0

/-- The place of the outcome that decides. -/
def Decisive (outcomes : Nat → Outcome) (i : Nat) : Prop :=
  i < 3 ∧ (∀ j < i, (outcomes j).Retried) ∧ ¬ (outcomes i).Retried

omit [Pybreaker] in
/-- The attempts settle at one of the three, or all of them are retried. -/
theorem settles_or (outcomes : Nat → Outcome) :
    (∃ i, Decisive outcomes i) ∨ ∀ i < 3, (outcomes i).Retried := by
  by_cases h : ∃ i, i < 3 ∧ ¬ (outcomes i).Retried
  · have hfirst := Nat.find_spec h
    refine .inl ⟨Nat.find h, hfirst.1, fun j hj => ?_, hfirst.2⟩
    by_contra hn
    exact Nat.find_min h hj ⟨Nat.lt_trans hj hfirst.1, hn⟩
  · refine .inr (fun i hi => ?_)
    by_contra hn
    exact h ⟨i, hi, hn⟩

omit [Pybreaker] in
theorem Decisive.eq {i j : Nat} (hi : Decisive outcomes i) (hj : Decisive outcomes j) : i = j := by
  rcases Nat.lt_trichotomy i j with h | h | h
  · exact absurd (hj.2.1 i h) hi.2.2
  · exact h
  · exact absurd (hi.2.1 j h) hj.2.2

/-- A send of a closed circuit makes the POSTs up to the first that is not retried, or three, and
the last of them decides. -/
theorem sends_eq (hurl : Op.supportedUrl url = true)
    (hadmits : Pybreaker.admits self.breaker now = true) {i : Nat} (hi : i ≤ 2)
    (hbefore : ∀ j < i, (outcomes j).Retried) (hlast : i < 2 → ¬ (outcomes i).Retried) :
    self.sends now url payload timeout outcomes =
      (List.replicate (i + 1) (.post url payload timeout),
        match checkResponse (outcomes i).answer with
        | .ok () => .ok ⟨Pybreaker.called self.breaker now false⟩
        | .error e => .error (HttpxWebhookSender.unsent e)) := by
  have hretry : (HttpxWebhookSender.sendWithRetries url payload timeout).replay
      (answers outcomes) 0 = (List.replicate (i + 1) (.post url payload timeout),
        checkResponse (answers outcomes (0 + i) (.post url payload timeout))) := by
    apply Prog.replay_retry hi 0
    · intro j hj
      obtain ⟨e, he⟩ := (hbefore j hj).raises
      rw [Nat.zero_add]
      exact ⟨_, he, rfl⟩
    · intro hlt e he
      rw [Nat.zero_add] at he
      rcases Outcome.settled (hlast hlt) with ⟨_, hs⟩ | ⟨_, hs⟩
      · cases hs.symm.trans he
        rfl
      · cases hs.symm.trans he
  rw [Nat.zero_add] at hretry
  simp only [HttpxWebhookSender.sends, HttpxWebhookSender.send, hurl, ↓reduceIte,
    HttpxWebhookSender.call, hadmits, Prog.bind_eq, Prog.tryCatch_eq, Prog.replay_bind,
    Prog.replay_handle, hretry, answers]
  cases checkResponse (outcomes i).answer with
  | ok u => simp
  | error e => simp

/-- The webhook is delivered only on success: the first outcome of the three POSTs that is not
retryable decides. -/
structure DeliversOnSuccess (url : String) (payload : List (String × PyVal)) (timeout : Nat)
    (outcomes : Nat → Outcome) (sent : List PostOp × Except SenderExc HttpxWebhookSender) :
    Prop where
  posts : ∃ n ≤ 3, sent.1 = List.replicate n (.post url payload timeout)
  returns : (∃ self, sent.2 = .ok self) ↔
    ∃ i < 3, (∀ j < i, (outcomes j).Retryable) ∧ (outcomes i).Success
  refused : sent.2 = .error (.raised .webhookPayload) ↔
    ∃ i < 3, (∀ j < i, (outcomes j).Retryable) ∧ (outcomes i).ClientError
  otherwise : (∃ self, sent.2 = .ok self) ∨ sent.2 = .error (.raised .webhookPayload) ∨
    sent.2 = .error (.raised .webhookSenderUnavailable)

omit [Pybreaker] in
/-- Where the attempts settle, an outcome that the code does not retry decides there or nowhere. -/
theorem Decisive.decides {i : Nat} (h : Decisive outcomes i) {P : Outcome → Prop}
    (hP : ∀ {o : Outcome}, P o → ¬ o.Retried) :
    (∃ k < 3, (∀ j < k, (outcomes j).Retryable) ∧ P (outcomes k)) ↔
      (∀ j < i, (outcomes j).Retryable) ∧ P (outcomes i) := by
  constructor
  · rintro ⟨k, hk, hbefore, hp⟩
    have hk' : Decisive outcomes k := ⟨hk, fun j hj => (hbefore j hj).retried, hP hp⟩
    obtain rfl := h.eq hk'
    exact ⟨hbefore, hp⟩
  · rintro ⟨hbefore, hp⟩
    exact ⟨i, h.1, hbefore, hp⟩

theorem sends_settled (hurl : Op.supportedUrl url = true)
    (hadmits : Pybreaker.admits self.breaker now = true) {i : Nat} (h : Decisive outcomes i) :
    (self.sends now url payload timeout outcomes).1 =
        List.replicate (i + 1) (.post url payload timeout) ∧
      (((outcomes i).ClientError ∧ (self.sends now url payload timeout outcomes).2 =
          .error (.raised .webhookPayload)) ∨
        (¬ (outcomes i).ClientError ∧ ∃ self',
          (self.sends now url payload timeout outcomes).2 = .ok self')) := by
  rw [sends_eq hurl hadmits (Nat.le_of_lt_succ h.1) h.2.1 (fun _ => h.2.2)]
  refine ⟨rfl, ?_⟩
  rcases Outcome.settled h.2.2 with ⟨hclient, hs⟩ | ⟨hclient, hs⟩
  · rw [hs]
    exact .inl ⟨hclient, rfl⟩
  · rw [hs]
    exact .inr ⟨hclient, _, rfl⟩

theorem sends_exhausted (hurl : Op.supportedUrl url = true)
    (hadmits : Pybreaker.admits self.breaker now = true) (h : ∀ i < 3, (outcomes i).Retried) :
    self.sends now url payload timeout outcomes =
      (List.replicate 3 (.post url payload timeout), .error (.raised .webhookSenderUnavailable)) := by
  obtain ⟨e, he⟩ := (h 2 (by omega)).raises
  rw [sends_eq hurl hadmits (Nat.le_refl 2) (fun j hj => h j (by omega))
    (fun hlt => absurd hlt (Nat.lt_irrefl 2)), he]
  rfl

/-- A send delivers only on success exactly when the first outcome that it does not retry is a
2xx or a 4xx, and no status of 600 or more is before it: a 1xx or a 3xx is taken for a success. -/
theorem delivers_on_success (hurl : Op.supportedUrl url = true)
    (hadmits : Pybreaker.admits self.breaker now = true) :
    DeliversOnSuccess url payload timeout outcomes (self.sends now url payload timeout outcomes) ↔
      ∀ i, Decisive outcomes i → ((outcomes i).Success ∨ (outcomes i).ClientError) ∧
        ∀ j < i, (outcomes j).Retryable := by
  rcases settles_or outcomes with ⟨i, hi⟩ | hall
  · have hsuccess := hi.decides Outcome.Success.not_retried
    have hclient := hi.decides Outcome.ClientError.not_retried
    obtain ⟨hposts, hsent⟩ := @sends_settled _ self now url payload timeout outcomes hurl hadmits i hi
    constructor
    · intro h k hk
      obtain rfl := hi.eq hk
      rcases hsent with ⟨_, hs⟩ | ⟨_, hs⟩
      · obtain ⟨hbefore, hc⟩ := hclient.mp (h.refused.mp hs)
        exact ⟨.inr hc, hbefore⟩
      · obtain ⟨hbefore, hc⟩ := hsuccess.mp (h.returns.mp hs)
        exact ⟨.inl hc, hbefore⟩
    · intro h
      obtain ⟨hdecided, hbefore⟩ := h i hi
      rcases hsent with ⟨hc, hs⟩ | ⟨hc, self', hs⟩
      · refine ⟨⟨i + 1, hi.1, hposts⟩, ?_, ?_, .inr (.inl hs)⟩
        · rw [hsuccess, hs]
          exact ⟨fun h => (by cases h.choose_spec), fun h => absurd h.2 hc.not_success⟩
        · exact ⟨fun _ => hclient.mpr ⟨hbefore, hc⟩, fun _ => hs⟩
      · have hok : (outcomes i).Success := hdecided.resolve_right hc
        refine ⟨⟨i + 1, hi.1, hposts⟩, ?_, ?_, .inl ⟨self', hs⟩⟩
        · exact ⟨fun _ => hsuccess.mpr ⟨hbefore, hok⟩, fun _ => ⟨self', hs⟩⟩
        · rw [hclient, hs]
          exact ⟨fun h => (by cases h), fun h => absurd h.2 hc⟩
  · have hno : ∀ {P : Outcome → Prop}, (∀ {o : Outcome}, P o → ¬ o.Retried) →
        ¬ ∃ k < 3, (∀ j < k, (outcomes j).Retryable) ∧ P (outcomes k) := by
      rintro P hP ⟨k, hk, _, hp⟩
      exact hP hp (hall k hk)
    constructor
    · intro _ i hi
      exact absurd (hall i hi.1) hi.2.2
    · intro _
      rw [sends_exhausted hurl hadmits hall]
      refine ⟨⟨3, Nat.le_refl 3, rfl⟩, ?_, ?_, .inr (.inr rfl)⟩
      · exact ⟨fun h => (by cases h.choose_spec), fun h => absurd h (hno Outcome.Success.not_retried)⟩
      · exact ⟨fun h => (by cases h), fun h => absurd h (hno Outcome.ClientError.not_retried)⟩

/-- Whatever becomes of the POSTs, a send ends as the notifier of the use case can. -/
theorem sends_notifies (self : HttpxWebhookSender) (now : Nat) (url : String)
    (payload : List (String × PyVal)) (timeout : Nat) (outcomes : Nat → Outcome) :
    match (self.sends now url payload timeout outcomes).2 with
    | .ok _ => Op.supportedUrl url = true
    | .error e => ∃ x, e = .raised x ∧ Op.Raises x (.send url payload timeout) = true := by
  by_cases hurl : Op.supportedUrl url = true
  · by_cases hadmits : Pybreaker.admits self.breaker now = true
    · rcases settles_or outcomes with ⟨i, hi⟩ | hall
      · rcases (@sends_settled _ self now url payload timeout outcomes hurl hadmits i hi).2 with
          ⟨_, hs⟩ | ⟨_, self', hs⟩
        · rw [hs]
          exact ⟨_, rfl, by simp [Op.Raises, Exc.isWebhook, hurl]⟩
        · rw [hs]
          exact hurl
      · rw [sends_exhausted hurl hadmits hall]
        exact ⟨_, rfl, by simp [Op.Raises, Exc.isWebhook, hurl]⟩
    · have hs : (self.sends now url payload timeout outcomes).2 =
          .error (.raised .webhookSenderUnavailable) := by
        simp [HttpxWebhookSender.sends, HttpxWebhookSender.send, hurl, HttpxWebhookSender.call,
          hadmits, HttpxWebhookSender.unsent, Prog.handle, Prog.bind]
      rw [hs]
      exact ⟨_, rfl, by simp [Op.Raises, Exc.isWebhook, hurl]⟩
  · have hs : (self.sends now url payload timeout outcomes).2 =
        .error (.raised .webhookUrlInvalid) := by
      simp [HttpxWebhookSender.sends, HttpxWebhookSender.send, hurl]
    rw [hs]
    exact ⟨_, rfl, by simp [Op.Raises, Exc.isWebhook]⟩

end

/-- A timeout, a 503 and a 200. -/
def sampleOutcomes : Nat → Outcome
  | 0 => .timeout
  | 1 => .status 503
  | _ => .status 200

theorem delivers_on_success_third : @DeliversOnSuccess sampleBreaker "https://example.com/hook" []
    5 sampleOutcomes (@HttpxWebhookSender.sends sampleBreaker
      (@HttpxWebhookSender.new sampleBreaker) 0 "https://example.com/hook" [] 5 sampleOutcomes) := by
  let _ : Pybreaker := sampleBreaker
  have hretried : ∀ j < 2, (sampleOutcomes j).Retryable := by
    intro j hj
    match j with
    | 0 => trivial
    | 1 => exact .inl (by decide)
    | j + 2 => omega
  have hthird : (sampleOutcomes 2).Success := by
    constructor <;> decide
  refine (delivers_on_success (by decide) rfl).mpr (fun i hi => ?_)
  have hsettles : Decisive sampleOutcomes 2 :=
    ⟨by decide, fun j hj => (hretried j hj).retried, hthird.not_retried⟩
  obtain rfl := hi.eq hsettles
  exact ⟨.inl hthird, hretried⟩

/-- A redirect is taken for a success. -/
theorem redirect_delivers :
    (∃ self, (@HttpxWebhookSender.sends sampleBreaker (@HttpxWebhookSender.new sampleBreaker) 0
      "https://example.com/hook" [] 5 (fun _ => .status 302)).2 = .ok self) ∧
    ¬ @DeliversOnSuccess sampleBreaker "https://example.com/hook" [] 5 (fun _ => .status 302)
      (@HttpxWebhookSender.sends sampleBreaker (@HttpxWebhookSender.new sampleBreaker) 0
        "https://example.com/hook" [] 5 (fun _ => .status 302)) := by
  have hok : ∃ self, (@HttpxWebhookSender.sends sampleBreaker
      (@HttpxWebhookSender.new sampleBreaker) 0 "https://example.com/hook" [] 5
      (fun _ => .status 302)).2 = .ok self := ⟨_, rfl⟩
  refine ⟨hok, fun h => ?_⟩
  obtain ⟨i, _, _, hsuccess⟩ :=
    (@DeliversOnSuccess.returns sampleBreaker _ _ _ _ _ h).mp hok
  exact absurd hsuccess.2 (by decide)

end Payments
