import Mathlib.Data.List.Perm.Basic
import Payments.Proofs.RetryQueues
import Payments.Proofs.Confirmation

namespace Payments

open Lib

/-- The step is no redelivery. -/
def redelivers : Move Op Choice Req Env → Bool
  | .env (.requeue _) | .env (.duplicate _) => true
  | _ => false

/-- `MAX_ATTEMPTS` of the handler that subscribes to a key. -/
def maxAttempts (lim : Limits) (key : String) : Nat :=
  if key = newPaymentsQ.routingKey then lim.process else lim.notify

/-- A queue that a handler subscribes to. -/
def Subscribed (q : RabbitQueue) : Prop := q = newPaymentsQ ∨ q = notifyPaymentsQ

/-- A publish that the broker has taken, whether it raises or not. -/
def Choice.taken : Choice → Bool
  | .ok | .lost _ => true
  | _ => false

/-- What a run leaves beside the broker: each waiting message with the number of the publish that
it goes back to, the handler runs that can still publish a copy, the keys of the publishes, and
the number of each delivery to a handler. -/
structure Chains where
  waiting : List ((RabbitQueue × Message) × Nat) := []
  runs : List (Tid × (RabbitQueue × Message) × Nat) := []
  published : List String := []
  deliveries : List Nat := []

namespace Chains

/-- Events are published on the exchange of the payments, and each publish begins a chain; what a
handler publishes elsewhere goes on with the chain of its message. -/
def publish (g : Chains) (lim : Limits) (t : Tid) (exchange key : String) (m : Message) : Chains :=
  let copies := (route lim exchange key).map (fun q => (q, m))
  if exchange = paymentsExchange then
    { g with
      waiting := g.waiting ++ copies.map (fun d => (d, g.published.length))
      published := g.published ++ [key] }
  else
    { g with
      waiting := g.waiting ++ (g.runs.filter (fun r => r.1 = t)).flatMap (fun r =>
        copies.map (fun d => (d, r.2.2)))
      runs := g.runs.filter (fun r => r.1 ≠ t) }

def deliver (g : Chains) (t : Tid) (i : Nat) : Chains :=
  match g.waiting[i]? with
  | some (d, n) => { g with
      waiting := g.waiting.eraseIdx i
      runs := (t, d, n) :: g.runs
      deliveries := n :: g.deliveries }
  | none => g

def expire (g : Chains) (lim : Limits) (i : Nat) : Chains :=
  match g.waiting[i]? with
  | some ((q, m), n) => { g with
      waiting := g.waiting.eraseIdx i ++ (q.arguments.toList.flatMap (fun args =>
        route lim args.deadLetterExchange args.deadLetterRoutingKey)).map (fun q => ((q, m), n)) }
  | none => g

def step (lim : Limits) (g : Chains) : Move Op Choice Req Env → Chains
  | .run t (.publish exchange key m) ch =>
    if ch.taken then g.publish lim t exchange key m else g
  | .start t (.deliver i) => g.deliver t i
  | .env (.expire i) => g.expire lim i
  | _ => g

/-- The chains of a run, whose steps are newest first. -/
def of (lim : Limits) : List (Config World Op Op.Res Exc Reply × Move Op Choice Req Env) → Chains
  | [] => {}
  | d :: ds => (of lim ds).step lim d.2

/-- How many messages on their way to a handler, and runs that can still publish a copy, go back
to a publish. -/
def tokens (g : Chains) (n : Nat) : Nat :=
  g.waiting.countP (fun d => d.1.1 ≠ dlq ∧ d.2 = n) + g.runs.countP (fun r => r.2.2 = n)

end Chains

section Programs

/-- The effect publishes outside of the exchange of the payments. -/
def Op.copies : Op → Bool
  | .publish x _ _ => x ≠ paymentsExchange
  | _ => false

/-- Only first messages of chains are published. -/
def Op.Direct : Op → Prop
  | .publish x _ m => x = paymentsExchange ∧ m.attempt = 0
  | _ => True

/-- What the handler of a message publishes: first messages, dead letters, and its retry copy. -/
def Op.Copying (lim : Limits) (q : RabbitQueue) (m : Message) : Op → Prop
  | .publish x k m' => (x = paymentsExchange ∧ m'.attempt = 0) ∨
    (x = paymentsDlx ∧ ((k = dlq.routingKey ∨ k = dlq.publishKey) ∨
      (m.attempt < maxAttempts lim q.routingKey ∧ ∃ retry,
        (retryRoutingQueues q (maxAttempts lim q.routingKey))[m.attempt]? = some retry ∧
          k = retry.routingKey ∧ m'.attempt = m.attempt + 1)))
  | _ => True

variable {lim : Limits} {q : RabbitQueue} {m : Message} {op : Op}

theorem Op.Copying.direct (h : op.Copying lim q m) (hno : ¬ op.copies = true) : op.Direct := by
  cases op with
  | publish x k m' =>
    rcases h with h | ⟨hx, _⟩
    · exact h
    · exact absurd (by simp [Op.copies, hx, paymentsDlx, paymentsExchange]) hno
  | _ => trivial

theorem Op.Direct.no_copy (h : op.Direct) : ¬ op.copies = true := by
  cases op with
  | publish x k m' => simp [Op.copies, h.1]
  | _ => exact Bool.false_ne_true

theorem Op.Emits.direct (h : op.Emits) : op.Direct := by
  obtain ⟨k, body, rfl⟩ := h
  exact ⟨rfl, rfl⟩

theorem Op.Direct.copying (h : op.Direct) : op.Copying lim q m := by
  cases op with
  | publish x k m' => exact .inl h
  | _ => trivial

theorem Op.Concludes.direct {e : UUID} {s : TaskStatus} (h : op.Concludes e s) : op.Direct := by
  cases op <;> first | exact h.elim | trivial

theorem Op.Claims.direct {e : UUID} (h : op.Claims e) : op.Direct := by
  cases op <;> first | exact h.elim | trivial

theorem Op.Settles.direct (h : op.Settles) : op.Direct := by
  cases op <;> first | exact h.elim | trivial

theorem Op.Sends.direct (h : op.Sends) : op.Direct := by
  obtain ⟨_, _, _, rfl⟩ := h
  trivial

theorem Op.Creates.direct {key : UUID} (h : op.Creates key) : op.Direct := by
  cases op <;> first | trivial | exact (h.elim False.elim False.elim)

theorem Op.Gets.direct {id : UUID} (h : op.Gets id) : op.Direct := by
  cases op <;> first | exact h.elim | trivial

theorem Op.Fetches.direct (h : op.Fetches) : op.Direct := by
  cases op <;> first | exact h.elim | trivial

theorem Op.Buries.copying {n : Nat} {e : UUID} {deadKey : String} {deadHeaders : Option Nat}
    (h : op.Buries q n m e deadKey deadHeaders) (hn : n = maxAttempts lim q.routingKey)
    (hk : deadKey = dlq.routingKey ∨ deadKey = dlq.publishKey) : op.Copying lim q m := by
  rcases h with rfl | ⟨hlt, retry, hr, rfl⟩ | ⟨_, h | rfl⟩
  · trivial
  · exact .inr ⟨rfl, .inr ⟨hn ▸ hlt, retry, hn ▸ hr, rfl, rfl⟩⟩
  · exact h.direct.copying
  · exact .inr ⟨rfl, .inl hk⟩

/-- The effects of a handler that are not those of its `except` branch begin chains only. -/
theorem Op.Handles.copying {uses : Op → Prop} {n : Nat} {e : UUID} {deadKey : String}
    {deadHeaders : Option Nat} (h : op.Handles uses q n m e deadKey deadHeaders)
    (hu : ∀ op, uses op → op.Direct) (hn : n = maxAttempts lim q.routingKey)
    (hk : deadKey = dlq.routingKey ∨ deadKey = dlq.publishKey) : op.Copying lim q m := by
  cases h with
  | claims h => exact h.direct.copying
  | enters | acks => trivial
  | uses h => exact (hu _ h).copying
  | concludes h => exact h.direct.copying
  | buries h => exact h.copying hn hk

theorem direct_copies {α : Type} {p : Service α} (hp : p.Only Op.Direct) {n : Nat} :
    p.AtMost (fun op => op.copies = true) n :=
  (hp.mono (fun _ h => h.no_copy)).atMost

theorem retryOrBury_copies (n : Nat) (e : UUID) (deadKey : String) (deadHeaders : Option Nat) :
    (retryOrBury q n m e deadKey deadHeaders).AtMost (fun op => op.copies = true) 1 := by
  refine Prog.AtMost.bind (m := 0) (n := 1)
    (direct_copies (only_op (show Op.connect.Direct from trivial))) (fun _ => ?_)
  split
  · split
    · exact Prog.atMost_perform
    · trivial
  · exact Prog.AtMost.bind (m := 0) (n := 1)
      (direct_copies ((only_conclude e .failed).mono (fun _ h => h.direct)))
      (fun _ => Prog.atMost_perform)

/-- The guarded part of a handler publishes one copy, in its `except` branch. -/
theorem guarded_copies {e : UUID} {run : Service Unit} {f : Exc → Service Unit}
    (hrun : run.Only Op.Direct) (hf : ∀ x, (f x).AtMost (fun op => op.copies = true) 1) :
    (((perform (.enter e)).bind (fun _ => run.bind (fun _ => conclude e .confirmed))).handle
      f).AtMost (fun op => op.copies = true) 1 := by
  refine Prog.AtMost.handle (m := 0) (n := 1) (direct_copies ?_) hf
  exact Prog.Only.bind (only_op trivial) (fun _ => Prog.Only.bind hrun (fun _ =>
    (only_conclude e .confirmed).mono (fun _ h => h.direct)))

/-- What both handlers do after the decoding: the claim, the gate and the acknowledgement. -/
theorem gated_copies {e : UUID} {n : Nat} {execute : Service Unit}
    (he : execute.AtMost (fun op => op.copies = true) 1) :
    ((claim e).bind (fun claimed => (if Admitted claimed m.attempt n then execute
      else .ret ()).bind (fun _ => perform .ack))).AtMost (fun op => op.copies = true) 1 := by
  refine Prog.AtMost.bind (m := 0) (n := 1)
    (direct_copies ((only_claim e).mono (fun _ h => h.direct))) (fun claimed => ?_)
  refine Prog.AtMost.bind (m := 1) (n := 0) ?_
    (fun _ => direct_copies (only_op (show Op.ack.Direct from trivial)))
  split
  · exact he
  · trivial

theorem payment_copies (n : Nat) :
    (handlePaymentProcessing n m).AtMost (fun op => op.copies = true) 1 := by
  simp only [handlePaymentProcessing, Prog.bind_eq, Prog.pure_eq]
  refine Prog.AtMost.bind (m := 0) (n := 1)
    (direct_copies (only_op (show Op.connect.Direct from trivial))) (fun _ => ?_)
  refine Prog.AtMost.bind (m := 0) (n := 1) (direct_copies (Prog.only_ofExcept _)) (fun event => ?_)
  refine gated_copies (guarded_copies ((only_process_payment event).mono
    (fun _ h => h.elim (fun h => h.direct) (fun h => h.direct))) (fun x => ?_))
  split
  · trivial
  · exact retryOrBury_copies _ _ _ _

theorem notify_copies [Externals] (n : Nat) :
    (handleNotifyClient n m).AtMost (fun op => op.copies = true) 1 := by
  simp only [handleNotifyClient, Prog.bind_eq, Prog.pure_eq]
  refine Prog.AtMost.bind (m := 0) (n := 1) (direct_copies (Prog.only_ofExcept _)) (fun event => ?_)
  exact gated_copies (guarded_copies ((only_sendNotification event).mono (fun _ h => h.direct))
    (fun x => retryOrBury_copies _ _ _ _))

/-- The subscriber of a queue publishes one copy, and as its message says. -/
theorem subscriber_copies [Externals] {p : Service Unit} (h : subscriber lim q m = some p) :
    Subscribed q ∧ p.AtMost (fun op => op.copies = true) 1 ∧ p.Only (Op.Copying lim q m) := by
  unfold subscriber at h
  split at h
  · rename_i hq
    subst hq
    cases h
    refine ⟨.inl rfl, payment_copies _,
      only_handlePaymentProcessing trivial (fun event _ op ho => ?_)⟩
    exact ho.copying (fun _ h => h.elim (fun h => h.direct) (fun h => h.direct)) rfl (.inr rfl)
  · split at h
    · rename_i hq
      subst hq
      cases h
      refine ⟨.inr rfl, notify_copies _, only_handleNotifyClient (fun event _ op ho => ?_)⟩
      exact ho.copying (fun _ h => h.direct) rfl (.inl rfl)
    · cases h

/-- What a request or a poll starts begins chains only. -/
theorem start_direct [Externals] {t : Tid} {w w' : World} {req : Req} {p : Service Reply}
    (h : w.start lim t req = some (p, w')) (hreq : ∀ i, req ≠ .deliver i) : p.Only Op.Direct := by
  cases req with
  | create command =>
    cases h
    exact Prog.Only.bind ((only_create_payment command).mono
      (fun _ h => h.elim (fun h => h.direct) (fun h => h.direct))) (fun _ => trivial)
  | get id =>
    cases h
    exact Prog.Only.bind ((only_get_payment id).mono (fun _ h => h.direct)) (fun _ => trivial)
  | poll =>
    cases h
    exact Prog.Only.bind (only_handle_bad_events.mono
      (fun _ h => h.elim (fun h => h.direct) (fun h => h.direct))) (fun _ => trivial)
  | deliver i => exact absurd rfl (hreq i)

end Programs

section Waiting

variable {lim : Limits} {base q : RabbitQueue} {m m' : Message} {key x k : String}
  {args : RetryArguments} {n : Nat}

/-- A message is on the way to the handler of a key: in the queue of the handler, or in the retry
queue of its attempt. -/
def Waits (lim : Limits) (key : String) (q : RabbitQueue) (m : Message) : Prop :=
  ∃ base, Subscribed base ∧ base.routingKey = key ∧
    ((q = base ∧ m.attempt ≤ maxAttempts lim key) ∨
      ∃ k, (retryRoutingQueues base (maxAttempts lim key))[k]? = some q ∧ m.attempt = k + 1)

theorem retry_length : (retryRoutingQueues base n).length = n := by
  simp [retryRoutingQueues, createRetryQueues]

theorem Subscribed.no_arguments (h : Subscribed q) : q.arguments = none := by
  rcases h with rfl | rfl <;> rfl

theorem Subscribed.ne_dlq (h : Subscribed q) : q ≠ dlq := by
  rcases h with rfl | rfl <;> decide

theorem Waits.bounded (h : Waits lim key q m) : m.attempt ≤ maxAttempts lim key := by
  obtain ⟨base, _, _, ⟨_, hm⟩ | ⟨k, hk, hm⟩⟩ := h
  · exact hm
  · have hlt := (List.getElem?_eq_some_iff.mp hk).1
    rw [retry_length] at hlt
    omega

theorem Waits.topic (h : Waits lim key q m) : q.topic = key := by
  obtain ⟨base, hb, rfl, ⟨rfl, _⟩ | ⟨k, hk, _⟩⟩ := h
  · exact (base_topic hb).1
  · exact (retry_queue (List.mem_of_getElem? hk)).2.1

theorem Waits.subscribed (h : Waits lim key q m) (hq : Subscribed q) : q.routingKey = key := by
  obtain ⟨base, _, hkey, ⟨rfl, _⟩ | ⟨k, hk, _⟩⟩ := h
  · exact hkey
  · exact absurd hq.no_arguments (retry_queue (List.mem_of_getElem? hk)).2.2.2

/-- What waits in a retry queue carries the attempt of that queue. -/
theorem Waits.copy (h : Waits lim key q m) {i : Nat}
    (hi : (retryRoutingQueues base n)[i]? = some q) : m.attempt = i + 1 := by
  obtain ⟨args, ha, httl⟩ := retry_at hi
  obtain ⟨base', hb, _, ⟨rfl, _⟩ | ⟨k, hk, hm⟩⟩ := h
  · rw [hb.no_arguments] at ha
    cases ha
  · obtain ⟨args', ha', httl'⟩ := retry_at hk
    cases ha.symm.trans ha'
    have hpow : 2 ^ (k + 1) = 2 ^ (i + 1) :=
      Nat.eq_of_mul_eq_mul_left (by decide) (httl'.symm.trans httl)
    rw [hm, Nat.pow_right_injective (Nat.le_refl 2) hpow]

theorem route_base (hb : Subscribed base) :
    route lim paymentsExchange base.routingKey = [base] := by
  rw [route_topic]
  rcases hb with rfl | rfl <;> decide

/-- What is published on the exchange of the payments reaches one handler or none. -/
theorem route_first (lim : Limits) (key : String) : route lim paymentsExchange key = [] ∨
    ∃ base, Subscribed base ∧ base.routingKey = key ∧ route lim paymentsExchange key = [base] := by
  rcases List.eq_nil_or_concat (route lim paymentsExchange key) with h | ⟨_, base, h⟩
  · exact .inl h
  · have hmem : base ∈ route lim paymentsExchange key := by
      rw [h, List.concat_eq_append]
      exact List.mem_concat_self
    obtain ⟨hb, hk⟩ := route_payments hmem
    exact .inr ⟨base, hb, hk, hk ▸ route_base hb⟩

theorem Waits.first (hb : Subscribed base) (hm : m.attempt = 0) :
    Waits lim base.routingKey base m :=
  ⟨base, hb, rfl, .inl ⟨rfl, by omega⟩⟩

/-- A message that expires returns to the handler. -/
theorem Waits.expired (h : Waits lim key q m) (ha : q.arguments = some args) : ∃ base,
    route lim args.deadLetterExchange args.deadLetterRoutingKey = [base] ∧ Subscribed base ∧
      Waits lim key base m := by
  have hm := h.bounded
  obtain ⟨base, hb, rfl, ⟨rfl, _⟩ | ⟨k, hk, _⟩⟩ := h
  · rw [hb.no_arguments] at ha
    cases ha
  · obtain ⟨_, _, _, args', ha', hexch, hkey⟩ := mem_retry (List.mem_of_getElem? hk)
    cases ha.symm.trans ha'
    rw [hexch, hkey]
    exact ⟨base, route_base hb, hb, base, hb, rfl, .inl ⟨rfl, hm⟩⟩

/-- What a handler publishes elsewhere is a dead letter or the next copy. -/
theorem Op.Copying.routed (hq : Subscribed q) (h : (Op.publish x k m').Copying lim q m)
    (hx : x ≠ paymentsExchange) : (∀ p ∈ route lim x k, p = dlq) ∨
      ∃ retry, route lim x k = [retry] ∧ Waits lim q.routingKey retry m' ∧
        m'.attempt = m.attempt + 1 := by
  rcases h with ⟨hx', _⟩ | ⟨rfl, hk | ⟨_, retry, hr, rfl, hm⟩⟩
  · exact absurd hx' hx
  · exact .inl (fun p hp => route_dead hk hp)
  · have hmem : retry ∈ retryRoutingQueues newPaymentsQ lim.process ∨
        retry ∈ retryRoutingQueues notifyPaymentsQ lim.notify := by
      rcases hq with rfl | rfl
      · exact .inl (List.mem_of_getElem? hr)
      · exact .inr (List.mem_of_getElem? hr)
    exact .inr ⟨retry, route_retry_only hmem, ⟨q, hq, rfl, .inr ⟨m.attempt, hr, hm⟩⟩, hm⟩

end Waiting

namespace Chains

/-- The chains are bounded: each goes on with one message at most, whose attempt is the number of
its deliveries. -/
structure Bounded (lim : Limits) (g : Chains) : Prop where
  single : (g.runs.map Prod.fst).Nodup
  alone : ∀ n, g.tokens n ≤ 1
  waits : ∀ d ∈ g.waiting, d.1.1 ≠ dlq → ∃ key, g.published[d.2]? = some key ∧
    Waits lim key d.1.1 d.1.2 ∧ g.deliveries.count d.2 = d.1.2.attempt
  runs : ∀ r ∈ g.runs, Subscribed r.2.1.1 ∧ g.published[r.2.2]? = some r.2.1.1.routingKey ∧
    g.deliveries.count r.2.2 = r.2.1.2.attempt + 1
  bounded : ∀ n key, g.published[n]? = some key → g.deliveries.count n ≤ maxAttempts lim key + 1
  known : ∀ n ∈ g.deliveries, n < g.published.length

variable {lim : Limits} {g : Chains} {t : Tid} {q : RabbitQueue} {m m' : Message} {n i : Nat}
  {key x k : String}

theorem bounded_empty : Bounded lim {} where
  single := List.nodup_nil
  alone := fun _ => Nat.zero_le 1
  waits := fun _ hd => by cases hd
  runs := fun _ hr => by cases hr
  bounded := fun n key h => by simp at h
  known := fun _ hn => by cases hn

theorem Bounded.token_known (h : g.Bounded lim) (hn : 0 < g.tokens n) :
    n < g.published.length := by
  rcases Nat.add_pos_iff_pos_or_pos.mp hn with hn | hn
  · obtain ⟨d, hd, he⟩ := List.countP_pos_iff.mp hn
    obtain ⟨hq, rfl⟩ := of_decide_eq_true he
    obtain ⟨key, hk, _⟩ := h.waits d hd hq
    exact (List.getElem?_eq_some_iff.mp hk).1
  · obtain ⟨r, hr, he⟩ := List.countP_pos_iff.mp hn
    obtain rfl := of_decide_eq_true he
    exact (List.getElem?_eq_some_iff.mp (h.runs r hr).2.1).1

theorem published_kept {keys : List String} (h : keys[n]? = some k) (new : List String) :
    (keys ++ new)[n]? = some k := by
  rw [List.getElem?_append_left (List.getElem?_eq_some_iff.mp h).1]
  exact h

/-- A publish begins a chain. -/
theorem Bounded.begun (h : g.Bounded lim) (hm : m.attempt = 0) :
    (g.publish lim t paymentsExchange key m).Bounded lim := by
  have hfresh : g.deliveries.count g.published.length = 0 :=
    List.count_eq_zero.mpr (fun hn => absurd (h.known _ hn) (Nat.lt_irrefl _))
  have htoken : g.tokens g.published.length = 0 :=
    Nat.eq_zero_of_not_pos (fun hn => absurd (h.token_known hn) (Nat.lt_irrefl _))
  have hnew : ∀ d ∈ (route lim paymentsExchange key).map (fun q => ((q, m), g.published.length)),
      Waits lim key d.1.1 m ∧ d.1.2 = m ∧ d.2 = g.published.length := by
    intro d hd
    obtain ⟨q, hq, rfl⟩ := List.mem_map.mp hd
    obtain ⟨hb, rfl⟩ := route_payments hq
    exact ⟨.first hb hm, rfl, rfl⟩
  have hone : (route lim paymentsExchange key).length ≤ 1 := by
    rcases route_first lim key with hr | ⟨_, _, _, hr⟩ <;> simp [hr]
  simp only [publish, if_true, List.map_map, Function.comp_def]
  exact {
    single := h.single
    alone := fun n => by
      have hold := h.alone n
      by_cases hn : n = g.published.length
      · subst hn
        have hle := List.countP_le_length
          (p := fun d => decide (d.1.1 ≠ dlq ∧ d.2 = g.published.length))
          (l := (route lim paymentsExchange key).map (fun q => ((q, m), g.published.length)))
        simp only [tokens, List.countP_append, List.length_map] at htoken hle ⊢
        omega
      · have hzero : ((route lim paymentsExchange key).map (fun q =>
            ((q, m), g.published.length))).countP (fun d => d.1.1 ≠ dlq ∧ d.2 = n) = 0 := by
          refine List.countP_eq_zero.mpr (fun d hd he => hn ?_)
          exact (of_decide_eq_true he).2.symm.trans (hnew d hd).2.2
        simp only [tokens, List.countP_append] at hold ⊢
        omega
    waits := fun d hd hq => by
      rcases List.mem_append.mp hd with hd | hd
      · obtain ⟨key', hk, hw, hc⟩ := h.waits d hd hq
        exact ⟨key', published_kept hk _, hw, hc⟩
      · obtain ⟨hw, he, hn⟩ := hnew d hd
        refine ⟨key, by rw [hn]; exact List.getElem?_concat_length, he ▸ hw, ?_⟩
        rw [hn, hfresh, he, hm]
    runs := fun r hr => by
      obtain ⟨hs, hk, hc⟩ := h.runs r hr
      exact ⟨hs, published_kept hk _, hc⟩
    bounded := fun n key' hk => by
      by_cases hn : n < g.published.length
      · rw [List.getElem?_append_left hn] at hk
        exact h.bounded n key' hk
      · have hzero : g.deliveries.count n = 0 :=
          List.count_eq_zero.mpr (fun hd => hn (h.known _ hd))
        exact Nat.le_trans (Nat.le_of_eq hzero) (Nat.zero_le _)
    known := fun n hn => by
      rw [List.length_append]
      exact Nat.lt_add_right _ (h.known n hn) }

/-- What a step takes out of a list is one of its elements. -/
theorem countP_taken {α : Type} {xs : List α} {a : α} (h : xs[i]? = some a) (p : α → Bool) :
    xs.countP p = (xs.eraseIdx i).countP p + if p a then 1 else 0 := by
  obtain ⟨hi, rfl⟩ := List.getElem?_eq_some_iff.mp h
  rw [← List.Perm.countP_eq p (List.getElem_cons_eraseIdx_perm hi), List.countP_cons]

/-- A delivery goes on with the chain of its message. -/
theorem Bounded.delivered (h : g.Bounded lim) (ht : ∀ r ∈ g.runs, r.1 ≠ t) (hq : Subscribed q)
    (hi : g.waiting[i]? = some ((q, m), n)) : (g.deliver t i).Bounded lim := by
  obtain ⟨key, hkey, hw, hcount⟩ := h.waits _ (List.mem_of_getElem? hi) hq.ne_dlq
  obtain rfl := hw.subscribed hq
  have htaken := countP_taken hi (fun d => d.1.1 ≠ dlq ∧ d.2 = n)
  rw [if_pos (decide_eq_true ⟨hq.ne_dlq, rfl⟩)] at htaken
  have halone := h.alone n
  unfold tokens at halone
  have hothers : ∀ d ∈ g.waiting.eraseIdx i, d.1.1 ≠ dlq → d.2 ≠ n := by
    have hzero : (g.waiting.eraseIdx i).countP (fun d => d.1.1 ≠ dlq ∧ d.2 = n) = 0 := by omega
    exact fun d hd hne he => absurd (decide_eq_true ⟨hne, he⟩) (List.countP_eq_zero.mp hzero d hd)
  have hruns : ∀ r ∈ g.runs, r.2.2 ≠ n := by
    have hzero : g.runs.countP (fun r => r.2.2 = n) = 0 := by omega
    exact fun r hr he => absurd (decide_eq_true he) (List.countP_eq_zero.mp hzero r hr)
  simp only [deliver, hi]
  exact {
    single := by
      refine List.nodup_cons.mpr ⟨fun hm => ?_, h.single⟩
      obtain ⟨r, hr, he⟩ := List.mem_map.mp hm
      exact ht r hr he
    alone := fun n' => by
      have hold := h.alone n'
      rw [tokens, countP_taken hi] at hold
      simp only [tokens, List.countP_cons]
      simpa [hq.ne_dlq, Nat.add_assoc, Nat.add_comm, Nat.add_left_comm] using hold
    waits := fun d hd hne => by
      obtain ⟨key, hk, hw, hc⟩ := h.waits d (List.mem_of_mem_eraseIdx hd) hne
      exact ⟨key, hk, hw, by rw [List.count_cons_of_ne (hothers d hd hne).symm]; exact hc⟩
    runs := fun r hr => by
      rcases List.mem_cons.mp hr with rfl | hr
      · exact ⟨hq, hkey, by rw [List.count_cons_self]; exact congrArg (· + 1) hcount⟩
      · obtain ⟨hs, hk, hc⟩ := h.runs r hr
        exact ⟨hs, hk, by rw [List.count_cons_of_ne (hruns r hr).symm]; exact hc⟩
    bounded := fun n' key' hk => by
      by_cases hn : n' = n
      · subst hn
        cases hk.symm.trans hkey
        rw [List.count_cons_self, hcount]
        exact Nat.succ_le_succ hw.bounded
      · rw [List.count_cons_of_ne (Ne.symm hn)]
        exact h.bounded n' key' hk
    known := fun n' hn => by
      rcases List.mem_cons.mp hn with rfl | hn
      · exact (List.getElem?_eq_some_iff.mp hkey).1
      · exact h.known n' hn }

/-- What expires goes on with its chain. -/
theorem Bounded.expired (h : g.Bounded lim) {args : RetryArguments}
    (hi : g.waiting[i]? = some ((q, m), n)) (ha : q.arguments = some args) :
    (g.expire lim i).Bounded lim := by
  have hq : q ≠ dlq := by
    rintro rfl
    cases ha
  obtain ⟨key, hkey, hw, hcount⟩ := h.waits _ (List.mem_of_getElem? hi) hq
  obtain ⟨base, hroute, hb, hbase⟩ := hw.expired ha
  simp only [expire, hi, ha, Option.toList_some, List.flatMap_singleton, hroute, List.map_cons,
    List.map_nil]
  exact { h with
    alone := fun n' => by
      have hold := h.alone n'
      rw [tokens, countP_taken hi] at hold
      simpa [tokens, List.countP_append, hq, hb.ne_dlq] using hold
    waits := fun d hd hne => by
      rcases List.mem_append.mp hd with hd | hd
      · exact h.waits d (List.mem_of_mem_eraseIdx hd) hne
      · cases List.mem_singleton.mp hd
        exact ⟨key, hkey, hbase, hcount⟩ }

/-- A copy takes the chain over from the run that publishes it. -/
theorem Bounded.copied (h : g.Bounded lim) (hr : (t, (q, m), n) ∈ g.runs)
    (hx : x ≠ paymentsExchange) (hcopy : (Op.publish x k m').Copying lim q m) :
    (g.publish lim t x k m').Bounded lim := by
  obtain ⟨hq, hkey, hcount⟩ := h.runs _ hr
  have hmine : g.runs.filter (fun r => r.1 = t) = [(t, (q, m), n)] := filter_key h.single hr
  have hrest : ∀ n', g.runs.countP (fun r => r.2.2 = n') = (if n = n' then 1 else 0) +
      (g.runs.filter (fun r => r.1 ≠ t)).countP (fun r => r.2.2 = n') := by
    intro n'
    rw [List.countP_eq_countP_filter_add g.runs _ (fun r => r.1 = t), hmine, List.countP_singleton]
    simp
  simp only [publish, if_neg hx, hmine, List.flatMap_cons, List.flatMap_nil, List.append_nil,
    List.map_map, Function.comp_def]
  have hsame : ∀ d ∈ (route lim x k).map (fun p => ((p, m'), n)), d.1.1 ≠ dlq →
      Waits lim q.routingKey d.1.1 d.1.2 ∧ d.1.2.attempt = m.attempt + 1 ∧ d.2 = n := by
    intro d hd hne
    obtain ⟨p, hp, rfl⟩ := List.mem_map.mp hd
    rcases hcopy.routed hq hx with hdead | ⟨retry, hroute, hw, hm⟩
    · exact absurd (hdead p hp) hne
    · rw [hroute] at hp
      cases List.mem_singleton.mp hp
      exact ⟨hw, hm, rfl⟩
  have hnew : ∀ n', ((route lim x k).map (fun p => ((p, m'), n))).countP
      (fun d => d.1.1 ≠ dlq ∧ d.2 = n') ≤ if n = n' then 1 else 0 := by
    intro n'
    rcases hcopy.routed hq hx with hdead | ⟨retry, hroute, _⟩
    · rw [List.countP_eq_zero.mpr (fun d hd => ?_)]
      · exact Nat.zero_le _
      · obtain ⟨p, hp, rfl⟩ := List.mem_map.mp hd
        simp [hdead p hp]
    · rw [hroute, List.map_singleton, List.countP_singleton]
      by_cases hn : n = n' <;> by_cases hd : retry = dlq <;> simp [hn, hd]
  exact {
    single := h.single.sublist (List.filter_sublist.map _)
    alone := fun n' => by
      have hold := h.alone n'
      have hle := hnew n'
      simp only [tokens, hrest n', List.countP_append] at hold ⊢
      omega
    waits := fun d hd hne => by
      rcases List.mem_append.mp hd with hd | hd
      · exact h.waits d hd hne
      · obtain ⟨hw, hm, hn⟩ := hsame d hd hne
        exact ⟨q.routingKey, hn ▸ hkey, hw, by rw [hn, hm]; exact hcount⟩
    runs := fun r hr => h.runs r (List.mem_filter.mp hr).1
    bounded := h.bounded
    known := h.known }

end Chains

section Following

/-- The key under which a chain begins with what is seen. -/
def Obs.begins? : Obs → Option String
  | .accepted x k _ => if x = paymentsExchange then some k else none
  | _ => none

def Obs.isDelivered : Obs → Bool
  | .delivered _ _ => true
  | _ => false

/-- The chains are those of the broker: they have its messages, its publishes and its deliveries,
and what was delivered was in range. -/
structure Chains.Follows (lim : Limits) (g : Chains) (w : World) : Prop where
  ready : g.waiting.map Prod.fst = w.ready
  begun : g.published = (w.trace.filterMap (fun d => d.2.begins?)).reverse
  counted : g.deliveries.length = w.trace.countP (fun d => d.2.isDelivered)
  handled : ∀ t q m, (t, q, m) ∈ w.unacked ∨ (t, .delivered q m) ∈ w.trace →
    Subscribed q ∧ m.attempt ≤ maxAttempts lim q.routingKey

variable {lim : Limits} {g : Chains} {w w' : World} {t u : Tid} {op : Op} {ch : Choice}
  {r : Except Exc op.Res} {x k : String} {m : Message} {o : Obs}

/-- What is seen is neither a publish nor a delivery. -/
def Obs.Plain (o : Obs) : Prop := o.begins? = none ∧ o.isDelivered = false

theorem Chains.Follows.plain (h : g.Follows lim w) (hr : w'.ready = w.ready)
    (hu : ∀ d ∈ w'.unacked, d ∈ w.unacked)
    (ht : w'.trace = w.trace ∨ ∃ o : Obs, o.Plain ∧ w'.trace = (u, o) :: w.trace) :
    g.Follows lim w' := by
  have hbegun : w'.trace.filterMap (fun d => d.2.begins?) =
      w.trace.filterMap (fun d => d.2.begins?) := by
    rcases ht with ht | ⟨o, ho, ht⟩
    · rw [ht]
    · simp [ht, ho.1]
  have hcount : w'.trace.countP (fun d => d.2.isDelivered) =
      w.trace.countP (fun d => d.2.isDelivered) := by
    rcases ht with ht | ⟨o, ho, ht⟩
    · rw [ht]
    · rw [ht, List.countP_cons_of_neg (by simp [ho.2])]
  have hseen : ∀ v q m, (v, .delivered q m) ∈ w'.trace → (v, .delivered q m) ∈ w.trace := by
    intro v q m hm
    rcases ht with ht | ⟨o, ho, ht⟩
    · exact ht ▸ hm
    · rw [ht] at hm
      rcases List.mem_cons.mp hm with he | hm
      · cases he
        exact absurd ho.2 (by simp [Obs.isDelivered])
      · exact hm
  exact {
    ready := h.ready.trans hr.symm
    begun := hbegun ▸ h.begun
    counted := hcount ▸ h.counted
    handled := fun v q m hm => h.handled v q m (hm.imp (hu _) (hseen v q m)) }

/-- Messages leave those that are not acknowledged, and none of an effect comes. -/
theorem World.does_unacked (h : World.Does lim t w op ch r w') :
    ∀ d ∈ w'.unacked, d ∈ w.unacked := by
  cases h with
  | fault => cases op <;> exact fun _ hd => hd
  | ack => exact fun _ hd => (List.mem_filter.mp hd).1
  | _ => exact fun _ hd => hd

theorem World.Shows.plain (h : World.Shows op o) (ho : ∀ x k m, op ≠ .publish x k m) :
    o.Plain := by
  cases op with
  | publish x k m => exact absurd rfl (ho x k m)
  | _ => cases o <;> first | exact h.elim | exact ⟨rfl, rfl⟩

theorem Chains.Follows.does (h : g.Follows lim w) (hd : World.Does lim t w op ch r w')
    (ho : ∀ x k m, op ≠ .publish x k m) : g.Follows lim w' :=
  h.plain (World.does_ready hd ho) (World.does_unacked hd)
    ((World.does_trace hd).imp_right (fun ⟨o, hs, ht⟩ => ⟨o, hs.plain ho, ht⟩))

/-- What the broker accepts is followed where it begins a chain or goes on with one. -/
theorem Chains.Follows.accept (h : g.Follows lim w)
    (hx : x = paymentsExchange ∨ ∃ d, g.runs.filter (fun r => r.1 = t) = [d]) :
    (g.publish lim t x k m).Follows lim (w.accept t lim x k m) where
  ready := by
    by_cases he : x = paymentsExchange
    · simp [publish, he, ← h.ready, Function.comp_def]
    · obtain ⟨d, hd⟩ := hx.resolve_left he
      simp [publish, he, hd, ← h.ready, Function.comp_def]
  begun := by
    by_cases he : x = paymentsExchange <;>
      simp [publish, he, h.begun, World.accept, Obs.begins?]
  counted := by
    have hplain : (Obs.accepted x k m).isDelivered = false := rfl
    have hsame : (g.publish lim t x k m).deliveries = g.deliveries := by
      unfold publish
      split <;> rfl
    simp [hsame, h.counted, World.accept, hplain]
  handled := fun v q m hm => by
    refine h.handled v q m (hm.imp_right (fun hm => ?_))
    rcases List.mem_cons.mp hm with he | hm
    · cases he
    · exact hm

theorem Chains.Follows.delivered (h : g.Follows lim w) {i n : Nat} {q : RabbitQueue}
    (hi : g.waiting[i]? = some ((q, m), n)) (hq : Subscribed q)
    (hm : m.attempt ≤ maxAttempts lim q.routingKey) :
    (g.deliver t i).Follows lim (w.deliver t i q m) where
  ready := by
    simp only [deliver, hi, World.deliver]
    rw [← h.ready, List.eraseIdx_map]
  begun := by simp [deliver, hi, h.begun, World.deliver, Obs.begins?]
  counted := by simp [deliver, hi, h.counted, World.deliver, Obs.isDelivered]
  handled := fun v q' m' hm' => by
    rcases hm' with hm' | hm'
    · rcases List.mem_cons.mp hm' with he | hm'
      · cases he
        exact ⟨hq, hm⟩
      · exact h.handled v q' m' (.inl hm')
    · rcases List.mem_cons.mp hm' with he | hm'
      · cases he
        exact ⟨hq, hm⟩
      · exact h.handled v q' m' (.inr hm')

theorem Chains.Follows.expired (h : g.Follows lim w) {i : Nat} (hw : w.expire lim i = some w') :
    (g.expire lim i).Follows lim w' := by
  obtain ⟨⟨q, m⟩, hi, hq⟩ := Option.bind_eq_some_iff.mp hw
  obtain ⟨args, ha, rfl⟩ := Option.map_eq_some_iff.mp hq
  rw [← h.ready, List.getElem?_map] at hi
  obtain ⟨⟨d, n⟩, hi, rfl⟩ := Option.map_eq_some_iff.mp hi
  simp only [expire, hi, ha, Option.toList_some, List.flatMap_singleton]
  exact { h with
    ready := by simp [← h.ready, List.eraseIdx_map, Function.comp_def] }

end Following

section Runs

variable [Externals] {lim : Limits} {g g' : Chains} {t : Tid} {p : Service Reply}
  {c c' : Config World Op Op.Res Exc Reply}

/-- A thread begins chains only, or it may publish one copy in the chain of its message. -/
def Chains.Allows (lim : Limits) (g : Chains) (t : Tid) (p : Service Reply) : Prop :=
  p.Only Op.Direct ∨ ∃ q m n, (t, (q, m), n) ∈ g.runs ∧
    p.AtMost (fun op => op.copies = true) 1 ∧ p.Only (Op.Copying lim q m)

omit [Externals] in
theorem Chains.Allows.mono (h : g.Allows lim t p) (hr : ∀ r ∈ g.runs, r.1 = t → r ∈ g'.runs) :
    g'.Allows lim t p := by
  rcases h with h | ⟨q, m, n, hm, ha, ho⟩
  · exact .inl h
  · exact .inr ⟨q, m, n, hr _ hm rfl, ha, ho⟩

omit [Externals] in
/-- A thread keeps what it may do as long as it publishes no copy. -/
theorem Chains.Allows.next {op : Op} {k : Except Exc op.Res → Service Reply}
    (h : g.Allows lim t (.call op k)) (r : Except Exc op.Res) : g.Allows lim t (k r) := by
  rcases h with h | ⟨q, m, n, hm, ha, ho⟩
  · exact .inl (h.2 r)
  · refine .inr ⟨q, m, n, hm, (ha.2 r).mono ?_, ho.2 r⟩
    split <;> omega

structure Chained (lim : Limits) (g : Chains) (c : Config World Op Op.Res Exc Reply) : Prop where
  bounded : g.Bounded lim
  follows : g.Follows lim c.shared
  numbered : ∀ r ∈ g.runs, r.1 < c.next
  threads : ∀ t p, c.threads t = some p → t < c.next ∧ g.Allows lim t p

omit [Externals] in
/-- A step of one thread keeps the runs of the others. -/
theorem Chained.put (h : Chained lim g c) {t : Tid} {p : Option (Service Reply)} {w : World}
    (hb : g'.Bounded lim) (hf : g'.Follows lim w) (hsub : ∀ r ∈ g'.runs, r ∈ g.runs)
    (hkeep : ∀ r ∈ g.runs, r.1 ≠ t → r ∈ g'.runs) (ht : t < c.next)
    (hp : ∀ p', p = some p' → g'.Allows lim t p') : Chained lim g' (c.put t p w) where
  bounded := hb
  follows := hf
  numbered := fun r hr => h.numbered r (hsub r hr)
  threads := fun u p' hu => by
    by_cases he : u = t
    · subst he
      have hself : (c.put u p w).threads u = p := Function.update_self _ _ _
      exact ⟨ht, hp p' (hself.symm.trans hu)⟩
    · obtain ⟨hlt, ha⟩ := h.threads u p' ((Function.update_of_ne he _ _).symm.trans hu)
      exact ⟨hlt, ha.mono (fun r hr hru => hkeep r hr (hru ▸ he))⟩

omit [Externals] in
theorem Chained.same (h : Chained lim g c) {t : Tid} {p : Option (Service Reply)} {w : World}
    (hf : g.Follows lim w) (ht : t < c.next) (hp : ∀ p', p = some p' → g.Allows lim t p') :
    Chained lim g (c.put t p w) :=
  h.put h.bounded hf (fun _ hr => hr) (fun _ hr _ => hr) ht hp

omit [Externals] in
/-- A publish that the broker takes. -/
theorem Chained.publish (h : Chained lim g c) {x key : String} {m : Message}
    {k : Except Exc Unit → Service Reply} (ht : c.threads t = some (.call (.publish x key m) k))
    (r : Except Exc Unit) : Chained lim (g.publish lim t x key m)
      (c.put t (some (k r)) (c.shared.accept t lim x key m)) := by
  obtain ⟨hlt, hallow⟩ := h.threads t _ ht
  by_cases hx : x = paymentsExchange
  · subst hx
    have hm : m.attempt = 0 := by
      rcases hallow with hd | ⟨q, m', n, _, _, hcopy⟩
      · exact hd.1.2
      · rcases hcopy.1 with ⟨_, hm⟩ | ⟨hx, _⟩
        · exact hm
        · exact absurd hx (by decide)
    have hruns : (g.publish lim t paymentsExchange key m).runs = g.runs := by
      simp [Chains.publish]
    refine h.put (h.bounded.begun hm) (h.follows.accept (.inl rfl)) (fun r hr => hruns ▸ hr)
      (fun r hr _ => hruns ▸ hr) hlt (fun p' he => ?_)
    cases he
    exact (hallow.next r).mono (fun r hr _ => hruns ▸ hr)
  · have hcopies : (Op.publish x key m).copies = true := by simp [Op.copies, hx]
    rcases hallow with hd | ⟨q, m', n, hmem, hmost, hcopy⟩
    · exact absurd hcopies hd.1.no_copy
    have hmine : g.runs.filter (fun r => r.1 = t) = [(t, (q, m'), n)] :=
      filter_key h.bounded.single hmem
    have hruns : (g.publish lim t x key m).runs = g.runs.filter (fun r => r.1 ≠ t) := by
      simp [Chains.publish, hx]
    refine h.put (h.bounded.copied hmem hx hcopy.1) (h.follows.accept (.inr ⟨_, hmine⟩))
      (fun r hr => ?_) (fun r hr hne => ?_) hlt (fun p' he => .inl ?_)
    · rw [hruns] at hr
      exact (List.mem_filter.mp hr).1
    · rw [hruns]
      exact List.mem_filter.mpr ⟨hr, decide_eq_true hne⟩
    · cases he
      have hnone := hmost.2 r
      rw [if_pos hcopies] at hnone
      exact (hnone.only.and (hcopy.2 r)).mono (fun _ h => h.2.direct h.1)

/-- A new thread begins chains only, or it handles the message that is delivered to it. -/
theorem Chained.start (h : Chained lim g c) {req : Req} {w : World}
    (he : c.shared.start lim c.next req = some (p, w)) :
    Chained lim (g.step lim (.start c.next req))
      { c.put c.next (some p) w with next := c.next + 1 } := by
  have hput : ∀ {g' : Chains}, g'.Bounded lim → g'.Follows lim w → (∀ r ∈ g.runs, r ∈ g'.runs) →
      (∀ r ∈ g'.runs, r ∈ g.runs ∨ r.1 = c.next) → g'.Allows lim c.next p →
      Chained lim g' { c.put c.next (some p) w with next := c.next + 1 } := by
    intro g' hb hf hkeep hnew hp
    refine ⟨hb, hf, fun r hr => ?_, fun u p' hu => ?_⟩
    · rcases hnew r hr with hr | hr
      · exact Nat.lt_succ_of_lt (h.numbered r hr)
      · exact hr ▸ Nat.lt_succ_self _
    · by_cases heq : u = c.next
      · subst heq
        cases (Function.update_self _ _ _).symm.trans hu
        exact ⟨Nat.lt_succ_self _, hp⟩
      · obtain ⟨hlt, ha⟩ := h.threads u p' ((Function.update_of_ne heq _ _).symm.trans hu)
        exact ⟨Nat.lt_succ_of_lt hlt, ha.mono (fun r hr _ => hkeep r hr)⟩
  by_cases hreq : ∃ i, req = .deliver i
  · obtain ⟨i, rfl⟩ := hreq
    obtain ⟨⟨q, m⟩, hi, hq⟩ := Option.bind_eq_some_iff.mp he
    obtain ⟨p', hsub, hp⟩ := Option.map_eq_some_iff.mp hq
    cases hp
    obtain ⟨hb, hmost, honly⟩ := subscriber_copies hsub
    rw [← h.follows.ready, List.getElem?_map] at hi
    obtain ⟨⟨d, n⟩, hi, rfl⟩ := Option.map_eq_some_iff.mp hi
    obtain ⟨key, _, hw, _⟩ := h.bounded.waits _ (List.mem_of_getElem? hi) hb.ne_dlq
    obtain rfl := hw.subscribed hb
    have hruns : (g.deliver c.next i).runs = (c.next, (q, m), n) :: g.runs := by
      simp [Chains.deliver, hi]
    refine hput (h.bounded.delivered (fun r hr => Nat.ne_of_lt (h.numbered r hr)) hb hi)
      (h.follows.delivered hi hb hw.bounded) (fun r hr => ?_) (fun r hr => ?_)
      (.inr ⟨q, m, n, ?_, hmost.bind (n := 0) (fun _ => trivial), honly.bind (fun _ => trivial)⟩)
    · exact hruns ▸ List.mem_cons_of_mem _ hr
    · rcases List.mem_cons.mp (hruns ▸ hr) with rfl | hr
      · exact .inr rfl
      · exact .inl hr
    · exact hruns ▸ List.mem_cons_self
  · have hne : ∀ i, req ≠ .deliver i := fun i hi => hreq ⟨i, hi⟩
    have hsame : g.step lim (.start c.next req) = g := by
      cases req <;> first | rfl | exact absurd rfl (hne _)
    have hf : g.Follows lim w := by
      cases req with
      | create command =>
        cases he
        exact h.follows.plain rfl (fun _ hd => hd) (.inr ⟨_, ⟨rfl, rfl⟩, rfl⟩)
      | get id =>
        cases he
        exact h.follows
      | poll =>
        cases he
        exact h.follows.plain rfl (fun _ hd => hd) (.inr ⟨_, ⟨rfl, rfl⟩, rfl⟩)
      | deliver i => exact absurd rfl (hne i)
    rw [hsame]
    exact hput h.bounded hf (fun _ hr => hr) (fun _ hr => .inl hr) (.inl (start_direct he hne))

/-- A step without redelivery keeps the chains. -/
theorem Chained.step (h : Chained lim g c) {mv : Move Op Choice Req Env}
    (hs : (service lim).Step c mv c') (hr : redelivers mv = false) :
    Chained lim (g.step lim mv) c' := by
  cases hs with
  | @run t op k ch r w ht he =>
    have hd := World.exec_does he
    obtain ⟨hlt, hallow⟩ := h.threads t _ ht
    have hnext : ∀ p', some (k r) = some p' → g.Allows lim t p' := by
      intro p' hp
      cases hp
      exact hallow.next r
    by_cases hpub : ∃ x key m, op = .publish x key m
    · obtain ⟨x, key, m, rfl⟩ := hpub
      cases hd with
      | fault => exact h.same h.follows hlt hnext
      | publish | lostPublish => exact h.publish ht _
    · have hne : ∀ x key m, op ≠ .publish x key m := fun x key m ho => hpub ⟨x, key, m, ho⟩
      have hsame : g.step lim (.run t op ch) = g := by
        cases op <;> first | rfl | exact absurd rfl (hne _ _ _)
      rw [hsame]
      exact h.same (h.follows.does hd hne) hlt hnext
  | exit ht _ =>
    exact h.same (h.follows.plain rfl (fun _ hd => hd) (.inr ⟨_, ⟨rfl, rfl⟩, rfl⟩))
      (h.threads _ _ ht).1 (fun _ he => by cases he)
  | start he => exact h.start he
  | kill ht =>
    exact h.same (h.follows.plain rfl (fun _ hd => hd) (.inr ⟨_, ⟨rfl, rfl⟩, rfl⟩))
      (h.threads _ _ ht).1 (fun _ he => by cases he)
  | @env e w he =>
    cases e with
    | expire i =>
      have hruns : (g.expire lim i).runs = g.runs := by
        unfold Chains.expire
        split <;> rfl
      have hbounded : (g.expire lim i).Bounded lim := by
        obtain ⟨⟨q, m⟩, hi, hq⟩ := Option.bind_eq_some_iff.mp he
        obtain ⟨args, ha, _⟩ := Option.map_eq_some_iff.mp hq
        rw [← h.follows.ready, List.getElem?_map] at hi
        obtain ⟨⟨d, n⟩, hi, rfl⟩ := Option.map_eq_some_iff.mp hi
        exact h.bounded.expired hi ha
      exact {
        bounded := hbounded
        follows := h.follows.expired he
        numbered := fun r hr => h.numbered r (hruns ▸ hr)
        threads := fun u p hu => ⟨(h.threads u p hu).1,
          (h.threads u p hu).2.mono (fun r hr _ => hruns ▸ hr)⟩ }
    | requeue u | duplicate i => cases hr

omit [Externals] in
theorem chained_initial : Chained lim {} (Config.initial {}) where
  bounded := Chains.bounded_empty
  follows := ⟨rfl, rfl, rfl, fun _ _ _ h => by rcases h with h | h <;> cases h⟩
  numbered := fun _ hr => by cases hr
  threads := fun _ _ h => by cases h

theorem chained_path {ds : List (Config World Op Op.Res Exc Reply × Move Op Choice Req Env)}
    (h : (service lim).Path (Config.initial {}) ds c) (hd : ∀ d ∈ ds, redelivers d.2 = false) :
    Chained lim (Chains.of lim ds) c := by
  induction h with
  | init => exact chained_initial
  | step _ hs ih =>
    exact (ih (fun d hm => hd d (List.mem_cons_of_mem _ hm))).step hs (hd _ List.mem_cons_self)

/-- The chains that the broker tells are bounded, and what is in them is in range. -/
structure BoundedChains (lim : Limits) (w : World) (g : Chains) : Prop
    extends Chains.Follows lim g w where
  towards : ∀ q m, (q, m) ∈ w.ready → q ≠ dlq → m.attempt ≤ maxAttempts lim q.topic
  copies : ∀ base, Subscribed base → ∀ k q m,
    (retryRoutingQueues base (maxAttempts lim base.routingKey))[k]? = some q →
      (q, m) ∈ w.ready → m.attempt = k + 1
  indexed : ∀ t q m, (t, .delivered q m) ∈ w.trace → m.attempt < maxAttempts lim q.routingKey →
    ∃ retry, (retryRoutingQueues q (maxAttempts lim q.routingKey))[m.attempt]? = some retry
  numbered : ∀ n ∈ g.deliveries, n < g.published.length
  delivered : ∀ n key, g.published[n]? = some key →
    g.deliveries.count n ≤ maxAttempts lim key + 1

theorem retry_chains_bounded
    {ds : List (Config World Op Op.Res Exc Reply × Move Op Choice Req Env)}
    (h : (service lim).Path (Config.initial {}) ds c) (hd : ∀ d ∈ ds, redelivers d.2 = false) :
    BoundedChains lim c.shared (Chains.of lim ds) := by
  have hc := chained_path h hd
  have hready : ∀ q m, (q, m) ∈ c.shared.ready → q ≠ dlq → ∃ key, Waits lim key q m := by
    intro q m hm hq
    rw [← hc.follows.ready] at hm
    obtain ⟨⟨d, n⟩, hm, rfl⟩ := List.mem_map.mp hm
    obtain ⟨key, _, hw, _⟩ := hc.bounded.waits _ hm hq
    exact ⟨key, hw⟩
  exact {
    toFollows := hc.follows
    towards := fun q m hm hq => by
      obtain ⟨key, hw⟩ := hready q m hm hq
      exact hw.topic ▸ hw.bounded
    copies := fun base _ k q m hk hm => by
      have hq : q ≠ dlq := by
        rintro rfl
        exact (retry_queue (List.mem_of_getElem? hk)).2.2.2 rfl
      obtain ⟨key, hw⟩ := hready q m hm hq
      exact hw.copy hk
    indexed := fun _ q m _ hlt =>
      ⟨_, List.getElem?_eq_getElem (by rw [retry_length]; exact hlt)⟩
    numbered := hc.bounded.known
    delivered := hc.bounded.bounded }

end Runs

/-- The configuration after a schedule without redeliveries. -/
def afterDeliveries (as : Schedule) : Option (Config World Op Op.Res Exc Reply) :=
  (sampleService {}).play (fun _ mv => !redelivers mv) as (Config.initial {})

/-- A message was delivered that is a copy of another. -/
def World.retried (w : World) : Bool :=
  w.trace.any (fun d => match d.2 with
    | .delivered _ m => m.attempt = 1
    | _ => false)

set_option maxRecDepth 20000 in
theorem copiedRun_retried : (afterDeliveries (reconfirmedRun ++ retriedRun)).any
    (fun c => c.shared.retried) = true := by decide +kernel

theorem retry_chains_bounded_copied : ∃ ds c,
    (sampleService {}).Path (Config.initial {}) ds c ∧ c.shared.retried = true ∧
      BoundedChains {} c.shared (Chains.of {} ds) := by
  obtain ⟨c, hc, hretried⟩ := (Option.any_eq_true _ _).mp copiedRun_retried
  obtain ⟨ds, hp, hd⟩ := Sys.path_of_play hc
  exact ⟨ds, c, hp, hretried,
    @retry_chains_bounded sample {} _ ds hp (fun d hm => by simpa using hd d hm)⟩

end Payments
