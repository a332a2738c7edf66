import Payments.Service.System

namespace Payments

open Lib

/-- The key of the handler that the messages of a queue reach in the end: the key that they
expire to, or that of the queue itself. -/
def RabbitQueue.topic (q : RabbitQueue) : String :=
  match q.arguments with
  | some args => args.deadLetterRoutingKey
  | none => q.routingKey

/-- What expires in the queue returns to the exchange of the payments. -/
def RabbitQueue.Returns (q : RabbitQueue) : Prop :=
  ∀ args, q.arguments = some args → args.deadLetterExchange = paymentsExchange

theorem mem_route {lim : Limits} {exchange key : String} {q : RabbitQueue} :
    q ∈ route lim exchange key ↔
      ⟨exchange, key, q⟩ ∈ createAppBindings lim := by
  simp only [route, List.mem_map, List.mem_filter, decide_eq_true_eq]
  constructor
  · rintro ⟨⟨_, _, _⟩, ⟨hb, rfl, rfl⟩, rfl⟩
    exact hb
  · intro hb
    exact ⟨_, ⟨hb, rfl, rfl⟩, rfl⟩

/-- A retry queue has a key below that of its base queue and leads back to it. -/
theorem retry_queue {base q : RabbitQueue} {n : Nat} (h : q ∈ retryRoutingQueues base n) :
    (∃ tail, q.routingKey = base.routingKey ++ (".retry." ++ tail)) ∧
      q.topic = base.routingKey ∧ q.Returns ∧ q.arguments ≠ none := by
  simp only [retryRoutingQueues, createRetryQueues, List.mem_map] at h
  obtain ⟨attempt, _, rfl⟩ := h
  refine ⟨⟨toString (DELAY_BASE * 2 ^ attempt) ++ "s", by simp [String.append_assoc]⟩, rfl, ?_, ?_⟩
  · intro args he
    cases he
    rfl
  · simp

theorem binding_cases {lim : Limits} {exchange key : String} {q : RabbitQueue}
    (h : ⟨exchange, key, q⟩ ∈ createAppBindings lim) :
    q.routingKey = key ∧
      ((exchange = paymentsDlx ∧ q = dlq) ∨
        (exchange = paymentsExchange ∧ (q = newPaymentsQ ∨ q = notifyPaymentsQ)) ∨
        (exchange = paymentsDlx ∧ (q ∈ retryRoutingQueues newPaymentsQ lim.process ∨
          q ∈ retryRoutingQueues notifyPaymentsQ lim.notify))) := by
  simp only [createAppBindings, bindQueuesWithRetryToExch, bindQueuesToExch, List.mem_append,
    List.mem_map, List.mem_singleton, Binding.mk.injEq] at h
  rcases h with (⟨p, rfl, rfl, rfl, rfl⟩ | ⟨p, rfl, rfl, rfl, rfl⟩ | ⟨p, hp, rfl, rfl, rfl⟩) |
    ⟨p, rfl, rfl, rfl, rfl⟩ | ⟨p, hp, rfl, rfl, rfl⟩
  · exact ⟨rfl, .inl ⟨rfl, rfl⟩⟩
  · exact ⟨rfl, .inr (.inl ⟨rfl, .inl rfl⟩)⟩
  · exact ⟨rfl, .inr (.inr ⟨rfl, .inl hp⟩)⟩
  · exact ⟨rfl, .inr (.inl ⟨rfl, .inr rfl⟩)⟩
  · exact ⟨rfl, .inr (.inr ⟨rfl, .inr hp⟩)⟩

/-- What is published on the exchange of the payments reaches the handler of its key. -/
theorem route_payments {lim : Limits} {key : String} {q : RabbitQueue}
    (h : q ∈ route lim paymentsExchange key) :
    (q = newPaymentsQ ∨ q = notifyPaymentsQ) ∧ q.routingKey = key := by
  obtain ⟨hk, ⟨he, _⟩ | ⟨_, hq⟩ | ⟨he, _⟩⟩ := binding_cases (mem_route.mp h)
  · simp [paymentsExchange, paymentsDlx] at he
  · exact ⟨hq, hk⟩
  · simp [paymentsExchange, paymentsDlx] at he

theorem base_topic {q : RabbitQueue} (h : q = newPaymentsQ ∨ q = notifyPaymentsQ) :
    q.topic = q.routingKey ∧ q.Returns := by
  rcases h with rfl | rfl <;> exact ⟨rfl, fun _ h => by cases h⟩

/-- A retry copy waits in a queue that leads back to the handler it came from. -/
theorem route_retry {lim : Limits} {base p q : RabbitQueue} {n : Nat}
    (hb : base = newPaymentsQ ∨ base = notifyPaymentsQ) (hp : p ∈ retryRoutingQueues base n)
    (h : q ∈ route lim paymentsDlx p.routingKey) : q.topic = base.routingKey ∧ q.Returns := by
  obtain ⟨⟨tail, ht⟩, _⟩ := retry_queue hp
  obtain ⟨hk, ⟨_, rfl⟩ | ⟨he, _⟩ | ⟨_, hq⟩⟩ := binding_cases (mem_route.mp h)
  · rcases hb with rfl | rfl <;>
    simp [dlq, ht, newPaymentsQ, notifyPaymentsQ, String.ext_iff] at hk
  · simp [paymentsExchange, paymentsDlx] at he
  · rw [ht] at hk
    -- keys below different base keys differ in their first character
    rcases hq with hq | hq <;> obtain ⟨⟨tail', ht'⟩, htop, hret, _⟩ := retry_queue hq <;>
    rcases hb with rfl | rfl <;> rw [ht'] at hk <;>
    first
      | exact ⟨htop, hret⟩
      | simp [newPaymentsQ, notifyPaymentsQ, String.ext_iff] at hk

/-- What expires stays on its way to the same handler. -/
theorem route_expired {lim : Limits} {p q : RabbitQueue} {args : RetryArguments}
    (hp : p.Returns) (ha : p.arguments = some args)
    (h : q ∈ route lim args.deadLetterExchange args.deadLetterRoutingKey) :
    q.topic = p.topic ∧ q.Returns := by
  rw [hp args ha] at h
  obtain ⟨hb, hk⟩ := route_payments h
  obtain ⟨ht, hret⟩ := base_topic hb
  exact ⟨by rw [ht, hk, RabbitQueue.topic, ha], hret⟩

theorem route_dead {lim : Limits} {key : String} {q : RabbitQueue}
    (hk : key = dlq.routingKey ∨ key = dlq.publishKey) (h : q ∈ route lim paymentsDlx key) :
    q = dlq := by
  obtain ⟨hr, ⟨_, rfl⟩ | ⟨he, _⟩ | ⟨_, hq⟩⟩ := binding_cases (mem_route.mp h)
  · rfl
  · simp [paymentsExchange, paymentsDlx] at he
  · rcases hq with hq | hq <;> obtain ⟨⟨tail, ht⟩, _⟩ := retry_queue hq <;>
    rw [ht] at hr <;> rcases hk with rfl | rfl <;>
    simp [newPaymentsQ, notifyPaymentsQ, dlq, RabbitQueue.publishKey, String.ext_iff] at hr

/-- A message under the key of a retry queue of a handler reaches that queue. -/
theorem retry_routed {lim : Limits} {q : RabbitQueue}
    (h : q ∈ retryRoutingQueues newPaymentsQ lim.process ∨
      q ∈ retryRoutingQueues notifyPaymentsQ lim.notify) :
    q ∈ route lim paymentsDlx q.routingKey := by
  rw [mem_route]
  simp only [createAppBindings, bindQueuesWithRetryToExch, bindQueuesToExch, List.mem_append,
    List.mem_map]
  rcases h with h | h
  · exact .inl (.inr (.inr ⟨q, h, rfl⟩))
  · exact .inr (.inr ⟨q, h, rfl⟩)

section Exact

variable {lim : Limits} {base p q : RabbitQueue} {n : Nat} {k : String}

theorem bound_queues {x y : String} {qs : List RabbitQueue} :
    ((bindQueuesToExch x qs).filter (fun b => b.exchange = y ∧ b.key = k)).map Binding.queue =
      if x = y then qs.filter (fun q => q.routingKey = k) else [] := by
  unfold bindQueuesToExch
  rw [List.filter_map, List.map_map]
  by_cases h : x = y <;> simp [h, Function.comp_def]

/-- The queues that the keys of the dead letter exchange lead to. -/
theorem route_dlx : route lim paymentsDlx k =
    [dlq].filter (fun q => q.routingKey = k) ++
      ((retryRoutingQueues newPaymentsQ lim.process).filter (fun q => q.routingKey = k) ++
      (retryRoutingQueues notifyPaymentsQ lim.notify).filter (fun q => q.routingKey = k)) := by
  have hne : paymentsExchange ≠ paymentsDlx := by decide
  simp only [route, createAppBindings, bindQueuesWithRetryToExch, List.filter_append,
    List.map_append, bound_queues, if_pos, if_neg hne, List.nil_append, List.append_assoc]
  rfl

/-- The queues that the keys of the exchange of the payments lead to. -/
theorem route_topic : route lim paymentsExchange k =
    [newPaymentsQ].filter (fun q => q.routingKey = k) ++
      [notifyPaymentsQ].filter (fun q => q.routingKey = k) := by
  have hne : paymentsDlx ≠ paymentsExchange := by decide
  simp only [route, createAppBindings, bindQueuesWithRetryToExch, List.filter_append,
    List.map_append, bound_queues, if_pos, if_neg hne, List.nil_append, List.append_nil]

/-- No two retry queues of a handler share a key. -/
theorem retry_keys_nodup : ((retryRoutingQueues base n).map RabbitQueue.routingKey).Nodup := by
  simp only [retryRoutingQueues, createRetryQueues, List.map_map]
  refine List.Nodup.map_on (fun a _ b _ h => ?_) (List.nodup_range' 1)
  simp only [Function.comp_apply, String.append_left_inj, String.append_right_inj] at h
  have hpow : DELAY_BASE * 2 ^ a = DELAY_BASE * 2 ^ b :=
    toDigits_injective (b := 10) (by decide) (by decide) (String.ofList_injective h)
  exact Nat.pow_right_injective (Nat.le_refl 2) (Nat.eq_of_mul_eq_mul_left (by decide) hpow)

/-- The key of a retry queue is not one of the dead letters. -/
theorem retry_key_ne_dead (hb : base = newPaymentsQ ∨ base = notifyPaymentsQ)
    (hq : q ∈ retryRoutingQueues base n) : dlq.routingKey ≠ q.routingKey := by
  obtain ⟨⟨tail, ht⟩, _⟩ := retry_queue hq
  rw [ht]
  rcases hb with rfl | rfl <;> simp [dlq, newPaymentsQ, notifyPaymentsQ, String.ext_iff]

/-- The retry queues of the two handlers have different keys. -/
theorem retry_keys_ne {m : Nat} (hp : p ∈ retryRoutingQueues newPaymentsQ m)
    (hq : q ∈ retryRoutingQueues notifyPaymentsQ n) : p.routingKey ≠ q.routingKey := by
  obtain ⟨⟨tail, ht⟩, _⟩ := retry_queue hp
  obtain ⟨⟨tail', ht'⟩, _⟩ := retry_queue hq
  rw [ht, ht']
  simp [newPaymentsQ, notifyPaymentsQ, String.ext_iff]

/-- What is published under the key of a retry queue reaches that queue only. -/
theorem route_retry_only (h : q ∈ retryRoutingQueues newPaymentsQ lim.process ∨
    q ∈ retryRoutingQueues notifyPaymentsQ lim.notify) :
    route lim paymentsDlx q.routingKey = [q] := by
  have hnone : ∀ {xs : List RabbitQueue}, (∀ p ∈ xs, p.routingKey ≠ q.routingKey) →
      xs.filter (fun p => p.routingKey = q.routingKey) = [] :=
    fun hx => List.filter_eq_nil_iff.mpr (fun p hp he => hx p hp (of_decide_eq_true he))
  have hdead : dlq.routingKey ≠ q.routingKey :=
    h.elim (retry_key_ne_dead (.inl rfl)) (retry_key_ne_dead (.inr rfl))
  rw [route_dlx, hnone (fun p hp => List.mem_singleton.mp hp ▸ hdead)]
  rcases h with h | h
  · rw [filter_key retry_keys_nodup h, hnone (fun p hp => (retry_keys_ne h hp).symm)]
    rfl
  · rw [filter_key retry_keys_nodup h, hnone (fun p hp => retry_keys_ne hp h)]
    rfl

/-- The empty key is that of the dead letters only. -/
theorem route_dlq : route lim paymentsDlx dlq.routingKey = [dlq] := by
  have hnone : ∀ {base : RabbitQueue} {n : Nat}, base = newPaymentsQ ∨ base = notifyPaymentsQ →
      (retryRoutingQueues base n).filter (fun p => p.routingKey = dlq.routingKey) = [] :=
    fun hb => List.filter_eq_nil_iff.mpr
      (fun p hp he => retry_key_ne_dead hb hp (of_decide_eq_true he).symm)
  rw [route_dlx, hnone (.inl rfl), hnone (.inr rfl)]
  decide

/-- No queue is bound under the name of the queue of the dead letters. -/
theorem route_dead_name : route lim paymentsDlx dlq.publishKey = [] := by
  refine List.eq_nil_iff_forall_not_mem.mpr (fun q hq => ?_)
  have hk := (binding_cases (mem_route.mp hq)).1
  rw [route_dead (.inr rfl) hq] at hk
  exact absurd hk (by decide)

end Exact

end Payments
