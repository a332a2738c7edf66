import Mathlib.Tactic.Positivity
import Payments.Proofs.Queries

namespace Payments

open Lib

namespace Json

mutual

/-- A JSON value that can be written is stored as it was read. -/
theorem dumps_toPy : (j : Json) → {j' : Json} → j.toPy.dumps = .ok j' → j' = j
  | null, _, h | bool _, _, h | float _, _, h | str _, _, h => (Except.ok.inj h).symm
  | int _, _, h => by
    obtain ⟨_, _, rfl⟩ := except_map_ok.mp h
    rfl
  | arr xs, _, h => by
    obtain ⟨js, hjs, rfl⟩ := except_map_ok.mp h
    rw [dumps_toPyList xs hjs]
  | obj items, _, h => by
    obtain ⟨js, hjs, rfl⟩ := except_map_ok.mp h
    rw [dumps_toPyItems items hjs]

theorem dumps_toPyList : (xs : List Json) → {js : List Json} →
    PyVal.dumpsList (toPyList xs) = .ok js → js = xs
  | [], _, h => (Except.ok.inj h).symm
  | x :: xs, _, h => by
    obtain ⟨j, hj, h⟩ := except_bind_ok.mp h
    obtain ⟨js, hjs, rfl⟩ := except_map_ok.mp h
    rw [dumps_toPy x hj, dumps_toPyList xs hjs]

theorem dumps_toPyItems : (items : List (String × Json)) → {js : List (String × Json)} →
    PyVal.dumpsItems (toPyItems items) = .ok js → js = items
  | [], _, h => (Except.ok.inj h).symm
  | (k, x) :: items, _, h => by
    obtain ⟨key, hkey, h⟩ := except_bind_ok.mp h
    obtain ⟨j, hj, h⟩ := except_bind_ok.mp h
    obtain ⟨js, hjs, rfl⟩ := except_map_ok.mp h
    cases hkey
    rw [dumps_toPy x hj, dumps_toPyItems items hjs]

end

theorem lookup_mem {items : List (String × Json)} (h : (items.map Prod.fst).Nodup)
    {m : String × Json} (hm : m ∈ items) : items.lookup m.1 = some m.2 := by
  induction items with
  | nil => cases hm
  | cons n items ih =>
    obtain ⟨k, v⟩ := n
    obtain ⟨hn, hrest⟩ := List.nodup_cons.mp h
    rcases List.mem_cons.mp hm with rfl | hm
    · simp
    · have hne : (m.1 == k) = false :=
        beq_eq_false_iff_ne.mpr (fun he => hn (List.mem_map.mpr ⟨m, hm, he⟩))
      simp [List.lookup_cons, hne, ih hrest hm]

end Json

/-- The value spells an object with these members. -/
def PyVal.Spells (v : PyVal) (items : List (String × Json)) : Prop :=
  ∃ j, v.dumps = .ok j ∧ ∀ key, j.member key = (Json.obj items).member key

section

variable [Externals]

/-- The members with the texts of their values. -/
def memberTexts (items : List (String × Json)) : List (String × Json) :=
  items.map (fun m => (m.1, .str m.2.toPy.text))

theorem metadata_texts (items : List (String × Json)) (b : Bool) :
    (metadataTexts { value := .proxy (Json.toPyItems items), rebuilding := b }).dumps =
      .ok (.obj (memberTexts items)) := by
  have hitems : ∀ items : List (String × Json), PyVal.dumpsItems
      ((Json.toPyItems items).map (fun m => (m.1, .str m.2.text))) = .ok (memberTexts items) := by
    intro items
    induction items with
    | nil => rfl
    | cons m items ih =>
      simp [Json.toPyItems, PyVal.dumpsItems, PyVal.jsonKey, PyVal.dumps, ih, memberTexts,
        Except.bind, Except.map]
  exact congrArg (Except.map Json.obj) (hitems items)

theorem member_texts (items : List (String × Json)) (key : String) :
    (Json.obj (memberTexts items)).member key =
      ((Json.obj items).member key).map (fun v => .str v.toPy.text) := by
  induction items with
  | nil => rfl
  | cons m items ih =>
    obtain ⟨k, v⟩ := m
    simp only [memberTexts, List.map_cons, Json.member_cons] at ih ⊢
    rw [ih]
    split <;> rfl

/-- The texts of the values are the values again where all of them are strings. -/
theorem texts_spell {items : List (String × Json)} (h : (items.map Prod.fst).Nodup) (b : Bool) :
    (metadataTexts { value := .proxy (Json.toPyItems items), rebuilding := b }).Spells items ↔
      ∀ m ∈ items, ∃ s, m.2 = .str s := by
  constructor
  · rintro ⟨j, hj, hm⟩ m hmem
    rw [metadata_texts] at hj
    cases hj
    have hkey := hm m.1
    rw [member_texts, Json.member, Json.lookup_mem h hmem] at hkey
    exact ⟨_, (Option.some.inj hkey).symm⟩
  · intro hs
    refine ⟨_, metadata_texts items b, fun key => ?_⟩
    rw [member_texts]
    cases hl : (Json.obj items).member key with
    | none => rfl
    | some v =>
      obtain ⟨before, after, rfl, _⟩ := List.lookup_eq_some_iff.mp hl
      obtain ⟨s, hv⟩ := hs (key, v) (by simp)
      cases hv
      rfl

end

/-- With at most two decimal places the cents are exact. -/
theorem cents_value {coeff : Nat} {exp : Int} (he : -2 ≤ exp) :
    ((cents coeff exp : ℕ) : ℚ) * (10 : ℚ) ^ (-2 : ℤ) = (coeff : ℚ) * (10 : ℚ) ^ exp := by
  have hnat : ((exp + 2).toNat : ℤ) = exp + 2 := Int.toNat_of_nonneg (by omega)
  have hexp : exp + 2 + -2 = exp := by omega
  rw [cents, if_pos he, Nat.cast_mul, Nat.cast_pow, Nat.cast_ofNat, ← zpow_natCast, hnat, mul_assoc,
    ← zpow_add₀ (by norm_num), hexp]

/-- A column of amounts keeps the number of an amount with at most two decimal places. -/
theorem store_numeric {neg : Bool} {coeff : Nat} {exp : Int} {stored : Decimal} (he : -2 ≤ exp)
    (h : storeNumeric (.finite neg coeff exp) = some stored) :
    stored.num = (Decimal.finite neg coeff exp).num := by
  have hvalue := @cents_value coeff exp he
  simp only [storeNumeric] at h
  split at h
  · cases h
    simp only [Decimal.num, Option.some.injEq]
    cases neg with
    | false => simpa using hvalue
    | true =>
      by_cases hz : cents coeff exp = 0
      · simpa [hz] using hvalue
      · simpa [hz] using hvalue
  · cases h

section

variable [Externals] {command : CreatePaymentCommand} {response : CreatePaymentResponse}
  {row : PaymentRow} {p : Payment} {items : List (String × Json)}

/-- The row of a payment has the values of the command and the identifier and the time of the
response. -/
structure PaymentRow.Tells (row : PaymentRow) (command : CreatePaymentCommand)
    (response : CreatePaymentResponse) : Prop where
  id : row.id.str = response.paymentId
  amount : ∃ q, command.amount.num = some q ∧ row.amount.num = some q
  currency : row.currency = command.currency
  description : row.description = command.description
  key : row.idempotencyKey = command.key
  createdAt : row.createdAt = response.createdAt
  metadata : ∀ items, command.metadata = (Json.obj items).toPy → row.metadata = .obj items
  status : row.status = .pending
  processedAt : row.processedAt = none

omit [Externals] in
theorem amount_new_value {a : Decimal} {amount : Amount} (h : Amount.new a = .ok amount) :
    amount.value = a ∧ ∃ neg coeff exp, a = .finite neg coeff exp ∧ -2 ≤ exp := by
  unfold Amount.new at h
  split at h
  · split at h
    · cases h
    · split at h
      · cases h
      · cases h
        exact ⟨rfl, _, _, _, rfl, by omega⟩
  · cases h
  · cases h
  · cases h

omit [Externals] in
theorem description_new_value {text : String} {d : Description} (h : Description.new text = .ok d) :
    d.value = text := by
  obtain ⟨_, _, h⟩ := except_bind_ok.mp h
  obtain ⟨_, _, h⟩ := except_bind_ok.mp h
  cases h
  rfl

omit [Externals] in
theorem metadata_new_value {m : Metadata} (h : Metadata.new (Json.obj items).toPy = .ok m) :
    m.value = .proxy (Json.toPyItems items) := by
  simp only [Json.toPy, Metadata.new] at h
  split at h
  · cases h
    rfl
  · cases h

theorem PaymentRow.Stores.tells (h : row.Stores command response) : row.Tells command response := by
  obtain ⟨parts, id, createdAt, eventId, occurredAt, hp, hv, rfl⟩ := h
  obtain ⟨ha, hk, hm, hd, hc⟩ := parts_ok hp
  obtain ⟨hval, neg, coeff, exp, hfin, hexp⟩ := amount_new_value ha
  unfold PaymentValues.toRow at hv
  split at hv
  · rename_i metadata amount hdumps hstore
    cases hv
    have hnum : amount.num = command.amount.num := by
      rw [hfin]
      refine store_numeric hexp ?_
      rw [← hfin, ← hval]
      exact hstore
    refine ⟨rfl, ?_, hc, description_new_value hd, idempotency_key_value hk, rfl, ?_, rfl, rfl⟩
    · rw [hfin] at hnum ⊢
      exact ⟨_, rfl, hnum⟩
    · intro items he
      rw [he] at hm
      simp only [PaymentRepository.values, PaymentParts.payment, Metadata.asDict,
        metadata_new_value hm] at hdumps
      exact Json.dumps_toPy (.obj items) (store_json_ok.mp hdumps).1
  · cases hv
  · cases hv

/-- The answer repeats what was submitted and what was responded, the metadata apart. -/
structure GetPaymentQueryResponse.Repeats (answer : GetPaymentQueryResponse)
    (command : CreatePaymentCommand) (response : CreatePaymentResponse) : Prop where
  id : answer.paymentId.str = response.paymentId
  amount : ∃ q, command.amount.num = some q ∧ answer.amount.num = some q
  currency : answer.currency = command.currency
  description : answer.description = command.description
  key : answer.key = command.key
  createdAt : answer.createdAt = response.createdAt
  status : answer.status = .pending
  processedAt : answer.processedAt = none

/-- The answer that a query makes of a row that tells of the command. -/
theorem PaymentRow.Tells.answer (h : row.Tells command response)
    (hm : command.metadata = (Json.obj items).toPy) (hn : (items.map Prod.fst).Nodup)
    (hp : PaymentRepository.toDomain row = .ok p) :
    (GetPaymentQueryResponse.fromDomain p).Repeats command response ∧
      ((GetPaymentQueryResponse.fromDomain p).metadata.Spells items ↔
        ∀ m ∈ items, ∃ s, m.2 = .str s) := by
  obtain ⟨metadata, hr, hp⟩ := except_bind_ok.mp hp
  rw [h.metadata items hm] at hr
  cases hp
  cases hr
  exact ⟨⟨h.id, h.amount, h.currency, h.description, h.key, h.createdAt, h.status,
    by simp [GetPaymentQueryResponse.fromDomain, Payment.rebuild, h.processedAt]⟩, texts_spell hn true⟩

variable {lim : Limits} {t u : Tid} {c c₁ c₂ c₃ c' : Config World Op Op.Res Exc Reply}

/-- When a creation has responded, its payment is committed. -/
theorem created_kept (h : Reachable lim c) (hs : (service lim).Step c (.start t (.create command)) c₁)
    (h' : (service lim).Reach (fun _ _ => True) c₁ c₂)
    (he : .ended (.ok (.created response)) ∈ c₂.shared.story t) :
    response.Kept command c₂.shared.db := by
  obtain ⟨rfl, hnext, p, hp, ht⟩ := hs.started
  obtain ⟨rfl, hshared⟩ : (createPayment command).bind (fun r => pure (.created r)) = p ∧
      c.shared.note c.next (.created command) = c₁.shared := Prod.mk.inj (Option.some.inj hp)
  have hbefore : ∀ {d : Config World Op Op.Res Exc Reply},
      (service lim).Reach (fun _ _ => True) c₁ d → Reachable lim d := fun hr =>
    (h.step trivial hs).trans hr
  have hfresh : .ended (.ok (.created response)) ∉ c₁.shared.story c.next := by
    have hsame : (c.shared.note c.next (.created command)).story c.next = c.shared.story c.next :=
      World.story_aside rfl rfl
    rw [← hshared, hsame, story_fresh h _ (Nat.le_refl _)]
    exact List.not_mem_nil
  have hwp : ∀ p, c₁.threads c.next = some p → wp (service lim) (fun _ _ => True) World.contract c.next
      p (fun x w => ∀ response, x = .ok (.created response) → response.Kept command w.db)
      c₁.shared := by
    intro p hp
    cases ht.symm.trans hp
    refine wp_seq _ (meets_create_payment command ?_) (fun response w hk response' he => ?_)
      (fun _ _ _ _ he => by cases he)
    · rw [← hshared]
      exact (reachable_holds h).fresh _ (Nat.le_refl _)
    · cases he
      exact hk response rfl
  obtain ⟨d, d', hd, hexit, hr, hkept⟩ := ended_meets (hnext ▸ Nat.lt_succ_self _) hfresh hwp
    (World.Rely.refl _) (fun _ _ _ => World.Rely.trans)
    (fun _ _ _ hq hrely response he => (hq response he).grows hrely.grows)
    (fun d hd => (reachable_holds (hbefore hd)).inv)
    (fun d m d' hd _ hst hm => contract_valid.rely_step (reachable_holds (hbefore hd)) trivial hst hm)
    h' he
  exact (hkept response rfl).grows (reach_grows (hbefore hd) ((Sys.Reach.init.step trivial hexit).trans hr))

/-- A query after a creation reads the payment back, as long as it is pending and its row is free,
and the metadata are those submitted where all their values are strings. -/
theorem create_then_get {id : UUID} {x : Except Exc Reply}
    {ds : List (Config World Op Op.Res Exc Reply × Move Op Choice Req Env)}
    (h : Reachable lim c) (hs : (service lim).Step c (.start t (.create command)) c₁)
    (h₁ : (service lim).Reach (fun _ _ => True) c₁ c₂)
    (hr : .ended (.ok (.created response)) ∈ c₂.shared.story t)
    (hm : command.metadata = (Json.obj items).toPy) (hn : (items.map Prod.fst).Nodup)
    (hid : id.str = response.paymentId) (hs' : (service lim).Step c₂ (.start u (.get id)) c₃)
    (h₂ : (service lim).Path c₃ ds c') (hw : ∀ d ∈ ds, databaseWorks d.2 = true)
    (hx : .ended x ∈ c'.shared.story u) :
    ∃ d ∈ ds, d.2 = .run u (.selectPaymentById id) .ok ∧
      ((∀ r ∈ d.1.shared.db.payments.rows, r.id = id → r.status = .pending) →
        (d.1.shared.Free u (.payment id) → ∃ answer, x = .ok (.payment answer) ∧
          answer.Repeats command response) ∧
        ((∃ answer, x = .ok (.payment answer) ∧ answer.Repeats command response ∧
            answer.metadata.Spells items) ↔
          d.1.shared.Free u (.payment id) ∧ ∀ m ∈ items, ∃ s, m.2 = .str s)) := by
  have hc₂ : Reachable lim c₂ := (h.step trivial hs).trans h₁
  obtain ⟨row, hst, r, hr, hev⟩ := created_kept h hs h₁ hr
  have htells := hst.tells
  obtain rfl : r.id = id := by
    rw [hev.1]
    exact UUID.str_inj (htells.id.trans hid.symm)
  obtain ⟨d, hd, hsel, y, hl, rfl⟩ := query_loads hc₂ hr hs' h₂ hw hx
  refine ⟨d, hd, hsel, fun hpend => ?_⟩
  by_cases hf : d.1.shared.Free u (.payment r.id)
  · rw [World.Loads, if_pos hf] at hl
    obtain ⟨r', hr', hid', p, hp, rfl⟩ := hl
    -- the row that is loaded is the one that the creation has stored, since it is still pending
    obtain rfl : r' = row := by
      have hd₁ : (service lim).Reach (fun _ _ => True) c₂ d.1 :=
        (Sys.Reach.init.step trivial hs').trans (h₂.reach_mem (fun _ _ => trivial) hd)
      obtain ⟨r'', hr'', hev'⟩ := (reach_grows hc₂ hd₁).payment r hr
      obtain rfl : r'' = r' :=
        d.1.shared.db.payments.eq_of_key hr'' hr' (by rw [hev'.1]; exact hid'.symm)
      have hs'' := hpend r'' hr'' hid'
      have hat := ((reachable_holds (hc₂.trans hd₁)).inv.agree.stamped r'' hr').mp hs''
      rw [(hev.trans hev').1, hs'', hat, ← htells.status, ← htells.processedAt]
    obtain ⟨hrep, hmeta⟩ := htells.answer hm hn hp
    refine ⟨fun _ => ⟨_, rfl, hrep⟩, ⟨?_, fun hs => ⟨_, rfl, hrep, hmeta.mpr hs.2⟩⟩⟩
    rintro ⟨answer, he, _, hspells⟩
    cases he
    exact ⟨hf, hmeta.mp hspells⟩
  · rw [World.Loads, if_neg hf] at hl
    subst hl
    refine ⟨fun h => absurd h hf, ⟨?_, fun h => absurd h.1 hf⟩⟩
    rintro ⟨_, he, _⟩
    cases he

/-- A creation starts. -/
def createConfig (c : Config World Op Op.Res Exc Reply) (command : CreatePaymentCommand) :
    Config World Op Op.Res Exc Reply :=
  { c.put c.next (some ((createPayment command).bind (fun r => pure (.created r))))
      (c.shared.note c.next (.created command)) with next := c.next + 1 }

theorem step_create (c : Config World Op Op.Res Exc Reply) (command : CreatePaymentCommand) :
    (service lim).Step c (.start c.next (.create command)) (createConfig c command) :=
  .start rfl

end

def Obs.reply? : Obs → Option Reply
  | .ended (.ok r) => some r
  | _ => none

def Reply.response? : Reply → Option CreatePaymentResponse
  | .created response => some response
  | _ => none

def Reply.answer? : Reply → Option GetPaymentQueryResponse
  | .payment answer => some answer
  | _ => none

/-- What a thread has replied. -/
def replyOf (t : Tid) (trace : List (Tid × Obs)) : Option Reply :=
  trace.findSome? (fun d => if d.1 = t then d.2.reply? else none)

theorem mem_of_reply {t : Tid} {trace : List (Tid × Obs)} {r : Reply}
    (h : replyOf t trace = some r) : (t, .ended (.ok r)) ∈ trace := by
  obtain ⟨⟨u, o⟩, hm, ho⟩ := List.exists_of_findSome?_eq_some h
  simp only [Option.ite_none_right_eq_some] at ho
  obtain ⟨rfl, ho⟩ := ho
  unfold Obs.reply? at ho
  split at ho
  · cases ho
    exact hm
  · cases ho

theorem mem_of_response {t : Tid} {trace : List (Tid × Obs)} {response : CreatePaymentResponse}
    (h : (replyOf t trace).bind Reply.response? = some response) :
    (t, .ended (.ok (.created response))) ∈ trace := by
  obtain ⟨r, hr, he⟩ := Option.bind_eq_some_iff.mp h
  cases r <;> cases he
  exact mem_of_reply hr

theorem mem_of_answer {t : Tid} {trace : List (Tid × Obs)} {answer : GetPaymentQueryResponse}
    (h : (replyOf t trace).bind Reply.answer? = some answer) :
    (t, .ended (.ok (.payment answer))) ∈ trace := by
  obtain ⟨r, hr, he⟩ := Option.bind_eq_some_iff.mp h
  cases r <;> cases he
  exact mem_of_reply hr

/-- A command with these metadata. -/
def itemsCommand (items : List (String × Json)) : CreatePaymentCommand :=
  { sampleCommand (uid 1) with metadata := (Json.obj items).toPy }

def itemsStart (items : List (String × Json)) : Config World Op Op.Res Exc Reply :=
  @createConfig sample (Config.initial {}) (itemsCommand items)

def afterItems (items : List (String × Json)) : Option (Config World Op Op.Res Exc Reply) :=
  afterWorking ([.run 0 .ok, .run 0 (.uuid (uid 10))] ++ stamps 0 (uid 11) ++ oks 0 8 ++ [.exit 0])
    (itemsStart items)

def afterAnswer (c : Config World Op Op.Res Exc Reply) :
    Option (Config World Op Op.Res Exc Reply) :=
  (sampleService {}).play (fun _ => databaseWorks) (oks 1 2 ++ [.exit 1])
    (@queryConfig sample c (uid 10))

/-- What a creation with some metadata and the query after it reach and reply. -/
structure Readback where
  created : Config World Op Op.Res Exc Reply
  response : CreatePaymentResponse
  answered : Config World Op Op.Res Exc Reply
  answer : GetPaymentQueryResponse

/-- It is what the creation with these metadata and the query play. -/
structure Readback.Of (r : Readback) (items : List (String × Json)) : Prop where
  created : afterItems items = some r.created
  response : (replyOf 0 r.created.shared.trace).bind Reply.response? = some r.response
  id : (uid 10).str = r.response.paymentId
  next : r.created.next = 1
  answered : afterAnswer r.created = some r.answered
  answer : (replyOf 1 r.answered.shared.trace).bind Reply.answer? = some r.answer

def readback (items : List (String × Json)) : Option Readback :=
  (afterItems items).bind (fun c =>
    ((replyOf 0 c.shared.trace).bind Reply.response?).bind (fun response =>
      if (uid 10).str = response.paymentId ∧ c.next = 1 then
        (afterAnswer c).bind (fun d =>
          ((replyOf 1 d.shared.trace).bind Reply.answer?).map (fun answer =>
            ⟨c, response, d, answer⟩))
      else none))

section

variable {items : List (String × Json)} {r : Readback}

theorem readback_of (h : readback items = some r) : r.Of items := by
  obtain ⟨c, hc, h⟩ := Option.bind_eq_some_iff.mp h
  obtain ⟨response, hr, h⟩ := Option.bind_eq_some_iff.mp h
  obtain ⟨hid, h⟩ := Option.ite_none_right_eq_some.mp h
  obtain ⟨d, hd, h⟩ := Option.bind_eq_some_iff.mp h
  obtain ⟨answer, ha, rfl⟩ := Option.map_eq_some_iff.mp h
  exact ⟨hc, hr, hid.1, hid.2, hd, ha⟩

theorem Readback.Of.reached (h : r.Of items) :
    (sampleService {}).Reach (fun _ m => works m = true) (itemsStart items) r.created :=
  Sys.reach_of_play (fun _ _ h => h) h.created

theorem Readback.Of.responds (h : r.Of items) :
    .ended (.ok (.created r.response)) ∈ r.created.shared.story 0 :=
  World.mem_story.mpr ⟨mem_of_response h.response, rfl⟩

theorem Readback.Of.step (h : r.Of items) :
    (sampleService {}).Step r.created (.start 1 (.get (uid 10)))
      (@queryConfig sample r.created (uid 10)) := by
  have hstep := @step_query sample {} r.created (uid 10)
  rwa [h.next] at hstep

theorem Readback.Of.answers (h : r.Of items) :
    .ended (.ok (.payment r.answer)) ∈ r.answered.shared.story 1 :=
  World.mem_story.mpr ⟨mem_of_answer h.answer, rfl⟩

end

def orderItems : List (String × Json) := [("order", .str "A-17"), ("note", .str "gift")]

set_option maxRecDepth 20000 in
theorem orders_some : (readback orderItems).isSome = true := by decide +kernel

theorem create_then_get_orders : ∃ r ds, Readback.Of r orderItems ∧
    (sampleService {}).Path (@queryConfig sample r.created (uid 10)) ds r.answered ∧
    ∃ d ∈ ds, d.2 = .run 1 (.selectPaymentById (uid 10)) .ok ∧
      ((∀ r ∈ d.1.shared.db.payments.rows, r.id = uid 10 → r.status = .pending) →
        d.1.shared.Free 1 (.payment (uid 10)) →
          r.answer.Repeats (itemsCommand orderItems) r.response ∧
            r.answer.metadata.Spells orderItems) := by
  obtain ⟨r, hr⟩ := Option.isSome_iff_exists.mp orders_some
  have hr := readback_of hr
  obtain ⟨ds, hp, hw⟩ := Sys.path_of_play hr.answered
  obtain ⟨d, hd, hsel, hret⟩ := @create_then_get sample (itemsCommand orderItems) r.response
    orderItems {} 0 1 (Config.initial {}) (itemsStart orderItems) r.created _ r.answered (uid 10) _
    ds .init (@step_create sample {} _ _) (hr.reached.mono (fun _ _ _ => trivial)) hr.responds rfl
    (by decide) hr.id hr.step hp hw hr.answers
  refine ⟨r, ds, hr, hp, d, hd, hsel, fun hpend hf => ?_⟩
  obtain ⟨answer, he, hrep, hspells⟩ := (hret hpend).2.mpr ⟨hf, by simp [orderItems]⟩
  cases he
  exact ⟨hrep, hspells⟩

def countItems : List (String × Json) := [("count", .int 1)]

set_option maxRecDepth 20000 in
theorem count_text : (readback countItems).bind (fun r =>
    r.answer.metadata.dumps.toOption.bind (Json.text "count")) = some "1" := by decide +kernel

/-- A number of the metadata is read back as a text. -/
theorem count_read_as_text : ∃ c₁ c₂ c₃ c' response answer,
    (sampleService {}).Step (Config.initial {}) (.start 0 (.create (itemsCommand countItems))) c₁ ∧
    (sampleService {}).Reach (fun _ m => works m = true) c₁ c₂ ∧
    .ended (.ok (.created response)) ∈ c₂.shared.story 0 ∧ (uid 10).str = response.paymentId ∧
    (sampleService {}).Step c₂ (.start 1 (.get (uid 10))) c₃ ∧
    (sampleService {}).Reach (fun _ m => databaseWorks m = true) c₃ c' ∧
    .ended (.ok (.payment answer)) ∈ c'.shared.story 1 ∧
    (itemsCommand countItems).metadata = (Json.obj countItems).toPy ∧
    ¬ answer.metadata.Spells countItems := by
  obtain ⟨r, hr, htext⟩ := Option.bind_eq_some_iff.mp count_text
  have hr := readback_of hr
  refine ⟨itemsStart countItems, r.created, _, r.answered, r.response, r.answer,
    @step_create sample {} _ _, hr.reached, hr.responds, hr.id, hr.step,
    Sys.reach_of_play (fun _ _ h => h) hr.answered, hr.answers, rfl, ?_⟩
  rintro ⟨j, hj, hm⟩
  rw [hj, Except.toOption, Option.bind_some, Json.text, hm "count"] at htext
  cases htext

end Payments
