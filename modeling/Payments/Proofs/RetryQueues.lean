import Payments.Lib.Topic
import Payments.Proofs.Routing

namespace Payments

open Lib

section Keys

/-- The word that ends the key of a retry queue. -/
def delayWord (seconds : Nat) : String := toString seconds ++ "s"

theorem retry_key_eq (key : String) (seconds : Nat) :
    key ++ ".retry." ++ toString seconds ++ "s" =
      key ++ ("." ++ ("retry" ++ ("." ++ delayWord seconds))) := by
  have hretry : ".retry." = "." ++ ("retry" ++ ".") := by decide
  simp only [hretry, delayWord, String.append_assoc]

theorem delayWord_dotless (seconds : Nat) : '.' ∉ (delayWord seconds).toList := by
  intro h
  rw [delayWord, String.toList_append] at h
  rcases List.mem_append.mp h with h | h
  · have hdigit := Nat.isDigit_of_mem_toDigits (b := 10) (n := seconds) (by decide) (by decide)
      (by simpa using h)
    cases hdigit
  · cases List.mem_singleton.mp h

theorem delayWord_injective {m n : Nat} (h : delayWord m = delayWord n) : m = n := by
  simp only [delayWord, String.append_left_inj] at h
  exact toDigits_injective (b := 10) (by decide) (by decide) (String.ofList_injective h)

theorem retry_words (key : String) (seconds : Nat) :
    Topic.words (key ++ ".retry." ++ toString seconds ++ "s") =
      Topic.words key ++ ["retry".toList, (delayWord seconds).toList] := by
  have hretry : Topic.words "retry" = ["retry".toList] := Topic.words_single (by decide)
  rw [retry_key_eq, Topic.words_append, Topic.words_append, hretry,
    Topic.words_single (delayWord_dotless seconds)]
  rfl

/-- The key of a retry queue tells its base queue and its delay. -/
theorem retry_key_injective {key key' : String} {m n : Nat}
    (h : key ++ ".retry." ++ toString m ++ "s" = key' ++ ".retry." ++ toString n ++ "s") :
    key = key' ∧ m = n := by
  have hwords := congrArg Topic.words h
  rw [retry_words, retry_words] at hwords
  obtain ⟨hkey, htail⟩ := List.append_inj' hwords rfl
  simp only [List.cons.injEq, true_and, and_true] at htail
  exact ⟨Topic.words_injective hkey, delayWord_injective (String.toList_inj.mp htail)⟩

theorem retry_key_literal {key : String} (h : Topic.Literal key) (seconds : Nat) :
    Topic.Literal (key ++ ".retry." ++ toString seconds ++ "s") := by
  intro w hw
  rw [retry_words] at hw
  rcases List.mem_append.mp hw with hw | hw
  · exact h w hw
  · rcases List.mem_cons.mp hw with rfl | hw
    · decide
    · obtain rfl := List.mem_singleton.mp hw
      have hlast : (delayWord seconds).toList.getLast? = some 's' := by simp [delayWord]
      constructor <;> intro he <;> rw [he] at hlast <;> cases hlast

end Keys

section Queues

variable {base q : RabbitQueue} {bases : List RabbitQueue} {exch deadExch : String}
  {retryBase maxAttempt : Nat}

/-- The retry queues of several base queues. -/
def retryQueues (bases : List RabbitQueue) (exch : String) (retryBase maxAttempt : Nat) :
    List RabbitQueue :=
  bases.flatMap (fun base => createRetryQueues base exch retryBase maxAttempt)

/-- What declares the base queues and their retry queues. -/
def declared (bases : List RabbitQueue) (exch deadExch : String) (retryBase maxAttempt : Nat) :
    List Binding :=
  bases.flatMap (fun base => bindQueuesWithRetryToExch exch deadExch base retryBase maxAttempt)

/-- The queues that a topic exchange puts a message into. -/
def topicRoute (bindings : List Binding) (exchange key : String) : List RabbitQueue :=
  (bindings.filter (fun b => b.exchange = exchange ∧ Topic.Binds b.key key)).map Binding.queue

theorem mem_retry (h : q ∈ createRetryQueues base exch retryBase maxAttempt) : ∃ seconds : Nat,
    q.routingKey = base.routingKey ++ ".retry." ++ toString seconds ++ "s" ∧
      q.name = "payments." ++ q.routingKey ∧ ∃ args, q.arguments = some args ∧
        args.deadLetterExchange = exch ∧ args.deadLetterRoutingKey = base.routingKey := by
  obtain ⟨attempt, _, rfl⟩ := List.mem_map.mp h
  exact ⟨_, rfl, by simp [String.append_assoc], _, rfl, rfl, rfl⟩

theorem retry_at {k : Nat} (h : (createRetryQueues base exch retryBase maxAttempt)[k]? = some q) :
    ∃ args, q.arguments = some args ∧ args.messageTtl = 1000 * retryBase * 2 ^ (k + 1) := by
  simp only [createRetryQueues, List.getElem?_map, Option.map_eq_some_iff] at h
  obtain ⟨attempt, ha, rfl⟩ := h
  obtain ⟨hk, rfl⟩ := List.getElem?_eq_some_iff.mp ha
  exact ⟨_, rfl, by simp [Nat.add_comm]⟩

theorem retry_keys_eq (bases : List RabbitQueue) :
    (retryQueues bases exch retryBase maxAttempt).map RabbitQueue.routingKey =
      bases.flatMap (fun base => (List.range' 1 maxAttempt).map (fun attempt =>
        base.routingKey ++ ".retry." ++ toString (retryBase * 2 ^ attempt) ++ "s")) := by
  simp only [retryQueues, createRetryQueues, List.map_flatMap, List.map_map]
  rfl

/-- No two retry queues share a key, whichever their base queues and delays. -/
theorem all_keys_nodup (hb : 1 ≤ retryBase) (hkeys : (bases.map RabbitQueue.routingKey).Nodup) :
    ((retryQueues bases exch retryBase maxAttempt).map RabbitQueue.routingKey).Nodup := by
  rw [retry_keys_eq, List.nodup_flatMap]
  constructor
  · intro base _
    refine List.Nodup.map_on (fun a _ b _ h => ?_) (List.nodup_range' 1)
    have hpow := Nat.eq_of_mul_eq_mul_left hb (retry_key_injective h).2
    exact Nat.pow_right_injective (Nat.le_refl 2) hpow
  · refine (List.pairwise_map.mp hkeys).imp (fun hne => ?_)
    intro key hkey hkey'
    obtain ⟨a, _, rfl⟩ := List.mem_map.mp hkey
    obtain ⟨b, _, hb⟩ := List.mem_map.mp hkey'
    exact hne (retry_key_injective hb).1.symm

/-- No two retry queues share a name. -/
theorem all_names_nodup (hb : 1 ≤ retryBase) (hkeys : (bases.map RabbitQueue.routingKey).Nodup) :
    ((retryQueues bases exch retryBase maxAttempt).map RabbitQueue.name).Nodup := by
  have hnames : (retryQueues bases exch retryBase maxAttempt).map RabbitQueue.name =
      ((retryQueues bases exch retryBase maxAttempt).map RabbitQueue.routingKey).map
        (fun key => "payments." ++ key) := by
    rw [List.map_map]
    refine List.map_congr_left (fun q hq => ?_)
    obtain ⟨base, _, hq⟩ := List.mem_flatMap.mp hq
    obtain ⟨_, _, hname, _⟩ := mem_retry hq
    exact hname
  rw [hnames]
  exact (all_keys_nodup hb hkeys).map (fun a b h => by simpa using h)

theorem retry_literal (hlit : ∀ base ∈ bases, Topic.Literal base.routingKey)
    (hq : q ∈ retryQueues bases exch retryBase maxAttempt) : Topic.Literal q.routingKey := by
  obtain ⟨base, hbase, hq⟩ := List.mem_flatMap.mp hq
  obtain ⟨seconds, hkey, _⟩ := mem_retry hq
  rw [hkey]
  exact retry_key_literal (hlit base hbase) seconds

theorem literal_filter {bindings : List RabbitQueue} {key : String}
    (hlit : ∀ p ∈ bindings, Topic.Literal p.routingKey) :
    bindings.filter (fun p => Topic.Binds p.routingKey key) =
      bindings.filter (fun p => p.routingKey = key) := by
  refine List.filter_congr (fun p hp => ?_)
  rw [Bool.eq_iff_iff, (hlit p hp).binds, decide_eq_true_eq]

/-- What is declared on the exchange of the retry queues is the retry queues. -/
theorem declared_dead {key : String} (hne : exch ≠ deadExch) :
    topicRoute (declared bases exch deadExch retryBase maxAttempt) deadExch key =
      (retryQueues bases exch retryBase maxAttempt).filter
        (fun p => Topic.Binds p.routingKey key) := by
  induction bases with
  | nil => rfl
  | cons base bases ih =>
    simp only [declared, retryQueues, List.flatMap_cons, topicRoute, List.filter_append,
      List.map_append] at ih ⊢
    rw [ih]
    congr 1
    simp [bindQueuesWithRetryToExch, bindQueuesToExch, hne, List.filter_map, Function.comp_def]

/-- What is declared on the exchange of the base queues is the base queues. -/
theorem declared_main {key : String} (hne : exch ≠ deadExch) :
    topicRoute (declared bases exch deadExch retryBase maxAttempt) exch key =
      bases.filter (fun p => Topic.Binds p.routingKey key) := by
  induction bases with
  | nil => rfl
  | cons base bases ih =>
    rw [← List.singleton_append, List.filter_append, ← ih]
    simp only [declared, List.flatMap_append, List.flatMap_singleton, topicRoute,
      List.filter_append, List.map_append]
    congr 1
    by_cases hk : Topic.Binds base.routingKey key = true <;>
      simp [bindQueuesWithRetryToExch, bindQueuesToExch, hne.symm, hk]

/-- The retry queues are distinct and lead back to their base queues. -/
structure LeadsBack (bases : List RabbitQueue) (exch deadExch : String)
    (retryBase maxAttempt : Nat) : Prop where
  keys : ((retryQueues bases exch retryBase maxAttempt).map RabbitQueue.routingKey).Nodup
  names : ((retryQueues bases exch retryBase maxAttempt).map RabbitQueue.name).Nodup
  matched : ∀ q ∈ retryQueues bases exch retryBase maxAttempt,
    (retryQueues bases exch retryBase maxAttempt).filter
      (fun p => Topic.Binds p.routingKey q.routingKey) = [q]
  delays : ∀ base ∈ bases, (createRetryQueues base exch retryBase maxAttempt).length = maxAttempt ∧
    ∀ k q, (createRetryQueues base exch retryBase maxAttempt)[k]? = some q →
      ∃ args, q.arguments = some args ∧ args.messageTtl = 1000 * retryBase * 2 ^ (k + 1) ∧
        args.deadLetterExchange = exch ∧ args.deadLetterRoutingKey = base.routingKey
  doubled : ∀ base ∈ bases, ∀ k q q' args args',
    (createRetryQueues base exch retryBase maxAttempt)[k]? = some q → q.arguments = some args →
    (createRetryQueues base exch retryBase maxAttempt)[k + 1]? = some q' →
    q'.arguments = some args' → args'.messageTtl = 2 * args.messageTtl
  returns : ∀ base ∈ bases, ∀ q ∈ createRetryQueues base exch retryBase maxAttempt, ∀ args,
    q.arguments = some args →
      bases.filter (fun p => Topic.Binds p.routingKey args.deadLetterRoutingKey) = [base]
  routed : exch ≠ deadExch → ∀ base ∈ bases,
    ∀ q ∈ createRetryQueues base exch retryBase maxAttempt, ∀ args, q.arguments = some args →
      topicRoute (declared bases exch deadExch retryBase maxAttempt) deadExch q.routingKey = [q] ∧
      topicRoute (declared bases exch deadExch retryBase maxAttempt) args.deadLetterExchange
        args.deadLetterRoutingKey = [base]
  agrees : ∀ base ∈ bases,
    (bindQueuesWithRetryToExch exch deadExch base retryBase maxAttempt).map Binding.queue =
      base :: createRetryQueues base exch retryBase maxAttempt

theorem retry_queues_lead_back (hb : 1 ≤ retryBase)
    (hkeys : (bases.map RabbitQueue.routingKey).Nodup)
    (hlit : ∀ base ∈ bases, Topic.Literal base.routingKey) :
    LeadsBack bases exch deadExch retryBase maxAttempt := by
  have hmatched : ∀ q ∈ retryQueues bases exch retryBase maxAttempt,
      (retryQueues bases exch retryBase maxAttempt).filter
        (fun p => Topic.Binds p.routingKey q.routingKey) = [q] := by
    intro q hq
    rw [literal_filter (fun p hp => retry_literal hlit hp)]
    exact filter_key (all_keys_nodup hb hkeys) hq
  have hreturns : ∀ base ∈ bases, ∀ q ∈ createRetryQueues base exch retryBase maxAttempt,
      ∀ args, q.arguments = some args →
        bases.filter (fun p => Topic.Binds p.routingKey args.deadLetterRoutingKey) = [base] := by
    intro base hbase q hq args ha
    obtain ⟨_, _, _, args', ha', _, hkey⟩ := mem_retry hq
    cases ha.symm.trans ha'
    rw [literal_filter hlit, hkey]
    exact filter_key hkeys hbase
  exact {
    keys := all_keys_nodup hb hkeys
    names := all_names_nodup hb hkeys
    matched := hmatched
    delays := fun base _ => by
      refine ⟨by simp [createRetryQueues], fun k q hq => ?_⟩
      obtain ⟨args, ha, httl⟩ := retry_at hq
      obtain ⟨_, _, _, args', ha', hexch, hkey⟩ := mem_retry (List.mem_of_getElem? hq)
      cases ha.symm.trans ha'
      exact ⟨args, ha, httl, hexch, hkey⟩
    doubled := fun base _ k q q' args args' hq ha hq' ha' => by
      obtain ⟨_, hargs, httl⟩ := retry_at hq
      obtain ⟨_, hargs', httl'⟩ := retry_at hq'
      cases ha.symm.trans hargs
      cases ha'.symm.trans hargs'
      rw [httl, httl', Nat.pow_succ, ← Nat.mul_assoc, Nat.mul_comm]
    returns := hreturns
    routed := fun hne base hbase q hq args ha => by
      obtain ⟨_, _, _, args', ha', hexch, _⟩ := mem_retry hq
      cases ha.symm.trans ha'
      rw [declared_dead hne, hexch, declared_main hne]
      exact ⟨hmatched q (List.mem_flatMap.mpr ⟨base, hbase, hq⟩), hreturns base hbase q hq args ha⟩
    agrees := fun base _ => by
      simp [bindQueuesWithRetryToExch, bindQueuesToExch, Function.comp_def] }

/-- The retry queues of the service lead back. -/
theorem retry_queues_lead_back_service :
    LeadsBack [newPaymentsQ, notifyPaymentsQ] paymentsExchange paymentsDlx DELAY_BASE 3 := by
  refine retry_queues_lead_back (by decide) (by decide) (fun base hbase => ?_)
  rcases List.mem_cons.mp hbase with rfl | hbase
  · decide
  · obtain rfl := List.mem_singleton.mp hbase
    decide

/-- The bindings of the service have no wildcards, so its exchanges compare keys. -/
theorem route_topic_exchange (lim : Limits) (exchange key : String) :
    topicRoute (createAppBindings lim) exchange key = route lim exchange key := by
  have hlit : ∀ b ∈ createAppBindings lim, Topic.Literal b.key := by
    intro b hb
    obtain ⟨hkey, hq⟩ := binding_cases hb
    rw [← hkey]
    rcases hq with ⟨_, hq⟩ | ⟨_, hq | hq⟩ | ⟨_, hq | hq⟩
    · rw [hq]
      decide
    · rw [hq]
      decide
    · rw [hq]
      decide
    · obtain ⟨seconds, hk, _⟩ := mem_retry hq
      rw [hk]
      exact retry_key_literal (by decide) seconds
    · obtain ⟨seconds, hk, _⟩ := mem_retry hq
      rw [hk]
      exact retry_key_literal (by decide) seconds
  unfold topicRoute route
  rw [List.filter_congr (fun b hb => ?_)]
  rw [Bool.eq_iff_iff, decide_eq_true_eq, decide_eq_true_eq, (hlit b hb).binds]

end Queues

end Payments
