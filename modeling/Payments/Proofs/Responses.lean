import Payments.Service.Http
import Payments.Proofs.Readback
import Payments.Proofs.Requests

namespace Payments

open Lib

/-- The request is answered with an error of the client. -/
def ClientError (x : Except Exc Reply) : Prop :=
  ∃ e r, x = .error e ∧ e.response = some r ∧ 400 ≤ r.status ∧ r.status < 500

theorem clientError_iff {e : Exc} {r : ErrorResponse} (h : e.response = some r) :
    ClientError (.error e) ↔ 400 ≤ r.status ∧ r.status < 500 := by
  constructor
  · rintro ⟨e', r', he, hr, hs⟩
    cases he
    cases h.symm.trans hr
    exact hs
  · exact fun hs => ⟨e, r, rfl, h, hs⟩

/-- What the constructors of the value objects refuse with: no handler is registered for the
two classes, so it is a server error. -/
def Exc.Refuses : Exc → Prop
  | .domain e => e.cls = .validation ∨ e.cls = .type
  | _ => False

theorem Exc.Refuses.server {e : Exc} (h : e.Refuses) : ¬ ClientError (.error e) := by
  have hr : e.response = some ⟨500, "Internal server error", some "INTERNAL_ERROR"⟩ := by
    cases e with
    | domain d =>
      obtain ⟨cls, _, _⟩ := d
      rcases h with h | h <;> cases h <;> rfl
    | _ => exact h.elim
  rw [clientError_iff hr]
  decide

theorem database_server {e : Exc} (h : e.isDatabase = true) : ¬ ClientError (.error e) := by
  have hr : e.response = some ⟨500, "Internal server error", some "INTERNAL_ERROR"⟩ := by
    cases e <;> first | rfl | cases h
  rw [clientError_iff hr]
  decide

theorem valueError_client (m : String) : ClientError (.error (.valueError m)) :=
  ⟨_, ⟨400, "Invalid argument value", some "VALUE_ERROR"⟩, rfl, rfl, by decide⟩

theorem notFound_client (m : String) : ClientError (.error (.notFound m)) :=
  ⟨_, ⟨404, m, none⟩, rfl, rfl, by simp⟩

section Refusals

variable {e : Exc}

theorem amount_refuses {neg : Bool} {coeff : Nat} {exp : Int}
    (h : Amount.new (.finite neg coeff exp) = .error e) : e.Refuses := by
  simp only [Amount.new] at h
  split at h
  · cases h
    exact .inl rfl
  · split at h <;> cases h
    exact .inl rfl

theorem key_refuses {key : UUID} (h : IdempotencyKey.new key = .error e) : e.Refuses := by
  unfold IdempotencyKey.new at h
  split at h <;> cases h
  exact .inr rfl

theorem payment_id_refuses {id : UUID} (h : PaymentID.new (.uuid id) = .error e) :
    e.Refuses ∧ id.version ≠ some 4 := by
  simp only [PaymentID.new] at h
  split at h
  · cases h
  · cases h
    exact ⟨.inr rfl, ‹_›⟩

theorem description_refuses {text : String} (h : Description.new text = .error e) : e.Refuses := by
  simp only [Description.new, bind, Except.bind] at h
  split at h
  · cases h
    rename_i hl
    unfold Description.validateLenth at hl
    split at hl <;> cases hl
    exact .inl rfl
  · split at h
    · cases h
      rename_i hp
      unfold Description.validatePattern at hp
      split at hp
      · cases hp
      · split at hp <;> cases hp <;> exact .inl rfl
    · cases h

theorem metadata_new_json (items : List (String × Json)) :
    ∃ m, Metadata.new (Json.obj items).toPy = .ok m := by
  have hall : (Json.toPyItems items).all (fun m => m.1.isStr) = true := by
    induction items with
    | nil => rfl
    | cons m items ih => simpa [Json.toPyItems, PyVal.isStr] using ih
  exact ⟨_, by simp only [Json.toPy, Metadata.new]; rw [if_pos hall]⟩

variable [Externals]

omit [Externals] in
theorem urlparse_error {url : String} (h : Url.urlparse url = .error e) :
    ∃ m, e = .valueError m := by
  unfold Url.urlparse at h
  simp only at h
  split at h <;> cases h
  exact ⟨_, rfl⟩

theorem webhook_refuses {url : String} (h : WebhookUrl.new url = .error e) :
    e.Refuses ∧ (∃ p, Url.urlparse url = .ok p) ∨ Url.urlparse url = .error e := by
  unfold WebhookUrl.new at h
  cases hu : Url.urlparse url with
  | error e' =>
    rw [hu] at h
    cases h
    exact .inr rfl
  | ok p =>
    refine .inl ⟨?_, p, rfl⟩
    simp only [hu, bind, Except.bind] at h
    split at h
    · cases h
      exact .inl rfl
    · split at h
      · cases h
        exact .inl rfl
      · split at h <;> cases h
        exact .inl rfl

/-- Every field is accepted but the address, which cannot be split into its parts. -/
structure CreatePaymentCommand.Unsplit (command : CreatePaymentCommand) : Prop where
  amount : ∃ a, Amount.new command.amount = .ok a
  key : ∃ k, IdempotencyKey.new command.key = .ok k
  description : ∃ d, Description.new command.description = .ok d
  webhookUrl : ∃ e, Url.urlparse command.webhookUrl = .error e

/-- How a request from the schema breaks a rule of the value objects. -/
theorem parts_refuse {command : CreatePaymentCommand} (hr : command.FromRequest)
    (h : command.parts = .error e) : ClientError (.error e) ↔ command.Unsplit := by
  obtain ⟨⟨neg, coeff, exp, ha⟩, ⟨items, hm⟩, _⟩ := hr
  obtain ⟨m, hm'⟩ := metadata_new_json items
  have hno : e.Refuses → ¬ command.Unsplit → (ClientError (.error e) ↔ command.Unsplit) :=
    fun hs hn => ⟨fun hc => absurd hc hs.server, fun hu => absurd hu hn⟩
  simp only [CreatePaymentCommand.parts, bind, Except.bind] at h
  cases hamount : Amount.new command.amount with
  | error e' =>
    rw [hamount] at h
    cases h
    exact hno (amount_refuses (ha ▸ hamount)) (fun hu => by cases hu.amount.choose_spec.symm.trans hamount)
  | ok a =>
  rw [hamount] at h
  cases hkey : IdempotencyKey.new command.key with
  | error e' =>
    rw [hkey] at h
    cases h
    exact hno (key_refuses hkey) (fun hu => by cases hu.key.choose_spec.symm.trans hkey)
  | ok k =>
  rw [hkey] at h
  cases hdescr : Description.new command.description with
  | error e' =>
    rw [hdescr] at h
    cases h
    exact hno (description_refuses hdescr)
      (fun hu => by cases hu.description.choose_spec.symm.trans hdescr)
  | ok d =>
  rw [hdescr, hm, hm'] at h
  cases hurl : WebhookUrl.new command.webhookUrl with
  | ok u =>
    rw [hurl] at h
    cases h
  | error e' =>
    rw [hurl] at h
    cases h
    rcases webhook_refuses hurl with ⟨hs, p, hp⟩ | hp
    · exact hno hs (fun hu => by cases hu.webhookUrl.choose_spec.symm.trans hp)
    · obtain ⟨text, rfl⟩ := urlparse_error hp
      exact ⟨fun _ => ⟨⟨a, hamount⟩, ⟨k, hkey⟩, ⟨d, hdescr⟩, ⟨_, hp⟩⟩,
        fun _ => valueError_client text⟩

end Refusals

section

variable [Externals] {lim : Limits} {t : Tid} {c c₁ c' : Config World Op Op.Res Exc Reply}
  {ds : List (Config World Op Op.Res Exc Reply × Move Op Choice Req Env)}

/-- A request that the client got wrong: a create request whose fields pass the schema and not
the value objects, or a query whose identifier names no payment where its `SELECT` runs. -/
def Req.Mistaken (t : Tid) (ds : List (Config World Op Op.Res Exc Reply × Move Op Choice Req Env)) :
    Req → Prop
  | .create command => command.FromRequest ∧ ∃ e, command.parts = .error e
  | .get id => ∀ d ∈ ds, d.2 = .run t (.selectPaymentById id) .ok →
      ∀ r ∈ d.1.shared.db.payments.rows, r.id ≠ id
  | _ => False

/-- The mistakes that the handlers recognise: an address that cannot be split, and a missing
payment under an identifier of version 4 that the database is asked for. -/
def Req.Recognised (t : Tid)
    (ds : List (Config World Op Op.Res Exc Reply × Move Op Choice Req Env)) : Req → Prop
  | .create command => command.Unsplit
  | .get id => id.version = some 4 ∧ ∀ d ∈ ds, ∀ e,
      d.2 ≠ .run t (.selectPaymentById id) (.fault e) ∧ d.2 ≠ .run t .close (.fault e)
  | _ => False

/-- The `SELECT` of a query for a payment that it does not find. -/
theorem missing_course {id : UUID} {ms : List (World × Op × Choice)} {r : Except Exc Payment}
    (h : Sys.Course (service lim) t (PaymentRepository.getById { value := id }) ms r)
    (hn : ∀ w, (w, .selectPaymentById id, .ok) ∈ ms → ∀ r ∈ (w.view t).payments.rows, r.id ≠ id) :
    ∃ w ch, ms = [(w, .selectPaymentById id, ch)] ∧
      (ch = .ok ∧ r = .error (.notFound ("Payment not found: " ++ id.str)) ∨
        ∃ e, ch = .fault e ∧ e.isDatabase = true ∧ r = .error e) := by
  rcases h.of_bind with ⟨row, ms₁, ms₂, rfl, hsel, h⟩ | ⟨e, hsel, rfl⟩
  · obtain ⟨w, ch, w', rfl, he⟩ := hsel.of_perform
    cases World.exec_does he with
    | lockPayment hr hid _ => exact absurd hid (hn w (by simp) _ hr)
    | skipPayment _ =>
      cases h
      exact ⟨w, .ok, rfl, .inl ⟨rfl, rfl⟩⟩
  · obtain ⟨w, ch, w', rfl, he⟩ := hsel.of_perform
    cases World.exec_does he with
    | fault hf => exact ⟨w, .fault e, rfl, .inr ⟨e, rfl, hf, rfl⟩⟩

/-- The query for a missing payment is answered with an error of the client unless its `SELECT`
or the end of its session fails; the failure of its rollback is swallowed. -/
theorem missing_within {id : UUID} {ms : List (World × Op × Choice)} {x : Except Exc Payment}
    (h : Sys.Course (service lim) t (Uow.within (PaymentRepository.getById { value := id })) ms x)
    (hn : ∀ w, (w, .selectPaymentById id, .ok) ∈ ms → ∀ r ∈ (w.view t).payments.rows, r.id ≠ id) :
    ∃ e, x = .error e ∧ (ClientError (.error e) ↔ ∀ w e,
      (w, .selectPaymentById id, .fault e) ∉ ms ∧ (w, .close, .fault e) ∉ ms) := by
  obtain ⟨r, ms₁, ms₂, w, ch, rfl, hbody, hu, hx⟩ := within_course h
  obtain ⟨w₁, ch₁, rfl, hsel⟩ := missing_course hbody
    (fun w hm => hn w (List.mem_append_left _ hm))
  have hselect : ∀ w' e, (w', .selectPaymentById id, .fault e) ∈
      [(w₁, .selectPaymentById id, ch₁)] ++ (ms₂ ++ [(w, .close, ch)]) → ch₁ = .fault e := by
    intro w' e hm
    simp only [List.mem_append, List.mem_singleton, Prod.mk.injEq] at hm
    rcases hm with ⟨_, _, he⟩ | hm | ⟨_, he, _⟩
    · exact he.symm
    · cases hu.rollbacks _ hm
    · cases he
  have hclose : ∀ w' e, (w', .close, .fault e) ∈
      [(w₁, .selectPaymentById id, ch₁)] ++ (ms₂ ++ [(w, .close, ch)]) → ch = .fault e := by
    intro w' e hm
    simp only [List.mem_append, List.mem_singleton, Prod.mk.injEq] at hm
    rcases hm with ⟨_, he, _⟩ | hm | ⟨_, _, he⟩
    · cases he
    · cases hu.rollbacks _ hm
    · exact he.symm
  rcases hx with ⟨rfl, rfl⟩ | ⟨e, rfl, hdb, rfl⟩
  · rcases hsel with ⟨rfl, rfl⟩ | ⟨e, rfl, hdb, rfl⟩
    · refine ⟨_, rfl, fun _ w' e => ⟨fun hm => ?_, fun hm => ?_⟩, fun _ => notFound_client _⟩
      · cases hselect w' e hm
      · cases hclose w' e hm
    · exact ⟨e, rfl, fun hc => absurd hc (database_server hdb),
        fun hno => absurd List.mem_cons_self (hno w₁ e).1⟩
  · exact ⟨e, rfl, fun hc => absurd hc (database_server hdb),
      fun hno => absurd (by simp) (hno w e).2⟩

/-- A request of the client's mistake is answered with an error of the client, and commits
nothing, exactly where the mistake is one that the handlers recognise. -/
theorem client_mistakes {req : Req} {x : Except Exc Reply} (h : Reachable lim c)
    (hs : (service lim).Step c (.start t req) c₁) (h' : (service lim).Path c₁ ds c')
    (hm : req.Mistaken t ds) (hx : .ended x ∈ c'.shared.story t) :
    (ClientError x ∧ ∀ ws, (t, .committed ws) ∉ c'.shared.trace) ↔ req.Recognised t ds := by
  cases req with
  | create command =>
    obtain ⟨hreq, e, he⟩ := hm
    obtain ⟨p, ⟨w, hp⟩, hlt, ht, hstory, _, htrace⟩ := started_fresh h hs (fun _ he => by cases he)
    obtain ⟨rfl, _⟩ := Prod.mk.inj (Option.some.inj hp)
    have hcourse := ended_course h' hlt ht (by rw [hstory]; exact List.not_mem_nil) hx
    -- the program raises before its first effect
    simp only [createPayment, he, Prog.bind_eq, Prog.ofExcept_error_bind] at hcourse
    generalize hown : Sys.own t ds = ms at hcourse
    cases hcourse
    refine ⟨fun hc => (parts_refuse hreq he).mp hc.1,
      fun hu => ⟨(parts_refuse hreq he).mpr hu, fun ws hw => ?_⟩⟩
    obtain ⟨_, _, hmem, _⟩ := committed_own h' (htrace ws) hw
    rw [hown] at hmem
    cases hmem
  | get id =>
    obtain ⟨p, ⟨w, hp⟩, hlt, ht, hstory, hpend, htrace⟩ := started_fresh h hs (fun _ he => by cases he)
    obtain ⟨rfl, _⟩ := Prod.mk.inj (Option.some.inj hp)
    have hcourse := ended_course h' hlt ht (by rw [hstory]; exact List.not_mem_nil) hx
    have honly : ((getPayment id).bind (fun r => pure (Reply.payment r))).Only (Op.Gets id) :=
      Prog.Only.bind (only_get_payment id) (fun _ => trivial)
    have hsilent : ∀ ws, (t, .committed ws) ∉ c'.shared.trace := by
      intro ws hw
      obtain ⟨_, _, hmem, _⟩ := committed_own h' (htrace ws) hw
      exact (hcourse.of_only honly _ hmem).elim
    by_cases hv : id.version = some 4
    swap
    · cases hid : PaymentID.new (.uuid id) with
      | ok p => simp [PaymentID.new, hv] at hid
      | error e =>
        simp only [getPayment, hid, Prog.bind_eq, Prog.ofExcept_error_bind] at hcourse
        obtain rfl : x = .error e := by
          generalize Sys.own t ds = ms at hcourse
          cases hcourse
          rfl
        exact ⟨fun hc => absurd hc.1 (payment_id_refuses hid).1.server, fun hr => absurd hr.1 hv⟩
    have hid : PaymentID.new (.uuid id) = .ok { value := id } := by simp [PaymentID.new, hv]
    have hview : ∀ w, (w, .selectPaymentById id, .ok) ∈ Sys.own t ds →
        ∀ r ∈ (w.view t).payments.rows, r.id ≠ id := by
      intro w hmem
      obtain ⟨d, hd, rfl, hsel⟩ := Sys.mem_own.mp hmem
      have hreach : (service lim).Reach (fun _ _ => True) c₁ d.1 :=
        h'.reach_mem (fun _ _ => trivial) hd
      have hnone : d.1.shared.pend t = [] := pend_nothing hreach hlt (fun p hp => by
        cases ht.symm.trans hp
        refine honly.mono (fun op ho y hy => ?_)
        cases op <;> first | exact ho | exact hy) hpend
      rw [World.view_nil hnone]
      exact hm d hd hsel
    simp only [getPayment, hid, Prog.bind_eq, Prog.pure_eq, Prog.ofExcept_ok_bind] at hcourse
    obtain ⟨_, hresponse, rfl⟩ := hcourse.of_map
    obtain ⟨_, hwithin, rfl⟩ := hresponse.of_map
    obtain ⟨e, rfl, hiff⟩ := missing_within hwithin hview
    refine (and_iff_left hsilent).trans (hiff.trans ⟨fun hno => ⟨hv, fun d hd e => ?_⟩, ?_⟩)
    · exact ⟨fun he => (hno d.1.shared e).1 (Sys.mem_own.mpr ⟨d, hd, rfl, he⟩),
        fun he => (hno d.1.shared e).2 (Sys.mem_own.mpr ⟨d, hd, rfl, he⟩)⟩
    · refine fun hno w e => ⟨fun hm => ?_, fun hm => ?_⟩
      · obtain ⟨d, hd, _, he⟩ := Sys.mem_own.mp hm
        exact (hno.2 d hd e).1 he
      · obtain ⟨d, hd, _, he⟩ := Sys.mem_own.mp hm
        exact (hno.2 d hd e).2 he
  | poll => exact hm.elim
  | deliver i => exact hm.elim

end

/-- A query for a payment that does not exist, alone from empty tables. -/
def afterUnknown : Option (Config World Op Op.Res Exc Reply) :=
  (sampleService {}).play (fun w m => works m && w.db.payments.rows.isEmpty) (oks 0 3 ++ [.exit 0])
    (@queryConfig sample (Config.initial {}) (uid 10))

set_option maxRecDepth 20000 in
theorem afterUnknown_some : afterUnknown.isSome = true := by decide +kernel

set_option maxRecDepth 20000 in
theorem afterUnknown_misses :
    misses 0 (uid 10) (afterUnknown.get afterUnknown_some).shared.trace = true := by decide +kernel

theorem client_mistakes_unknown : ∃ ds c' x, (sampleService {}).Path
      (@queryConfig sample (Config.initial {}) (uid 10)) ds c' ∧
    @Req.Mistaken sample 0 ds (.get (uid 10)) ∧ .ended x ∈ c'.shared.story 0 ∧ ClientError x ∧
    ∀ ws, (0, .committed ws) ∉ (c' : Config World Op Op.Res Exc Reply).shared.trace := by
  obtain ⟨ds, hp, hok⟩ := Sys.path_of_play (Option.some_get afterUnknown_some).symm
  have hend : .ended (.error (.notFound ("Payment not found: " ++ (uid 10).str))) ∈
      (afterUnknown.get afterUnknown_some).shared.story 0 :=
    World.mem_story.mpr ⟨mem_of_misses afterUnknown_misses, rfl⟩
  have hm : @Req.Mistaken sample 0 ds (.get (uid 10)) := by
    intro d hd _ r hr
    have hempty := (Bool.and_eq_true_iff.mp (hok d hd)).2
    rw [List.isEmpty_iff.mp hempty] at hr
    cases hr
  have hr : Req.Recognised 0 ds (.get (uid 10)) := by
    refine ⟨by decide, fun d hd e => ⟨fun he => ?_, fun he => ?_⟩⟩ <;>
    · have hworks := (Bool.and_eq_true_iff.mp (hok d hd)).1
      rw [he] at hworks
      cases hworks
  exact ⟨ds, _, _, hp, hm, hend, (@client_mistakes sample {} 0 (Config.initial {}) _ _ ds _ _ .init
    (@step_query sample {} _ _) hp hm hend).mpr hr⟩

/-- A command without an amount to pay, which the schema lets through. -/
def zeroCommand : CreatePaymentCommand := { sampleCommand (uid 1) with amount := .finite false 0 0 }

/-- A zero amount is answered as an error of the server. -/
theorem zero_is_server_error : ∃ c₁ ds c' x,
    (sampleService {}).Step (Config.initial {}) (.start 0 (.create zeroCommand)) c₁ ∧
    (sampleService {}).Path c₁ ds c' ∧ @Req.Mistaken sample 0 ds (.create zeroCommand) ∧
    .ended x ∈ c'.shared.story 0 ∧ ¬ ClientError x := by
  have hp : @CreatePaymentCommand.parts sample zeroCommand =
      .error (.validation "Amount must be greater than zero") := rfl
  refine ⟨_, _, _, _, @step_create sample {} (Config.initial {}) zeroCommand,
    .step .init (.exit rfl rfl), ⟨⟨⟨_, _, _, rfl⟩, ⟨[], rfl⟩, by decide⟩, _, hp⟩,
    World.mem_story.mpr ⟨List.mem_cons_self, rfl⟩, ?_⟩
  exact Exc.Refuses.server (.inl rfl)

end Payments
