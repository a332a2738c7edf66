import Payments.Proofs.Verdict

namespace Payments

open Lib

/-- The effects that go to the database. -/
def Op.onDatabase : Op → Bool
  | .uuid4 | .now | .random | .connect | .publish _ _ _ | .send _ _ _ | .enter _ | .ack => false
  | _ => true

/-- The step is not a failure of the database. -/
def databaseWorks : Move Op Choice Req Env → Bool
  | .run _ op (.fault _) | .run _ op (.lost _) => !op.onDatabase
  | _ => true

section

variable [Externals] {lim : Limits} {t : Tid} {w : World} {id : UUID}

omit [Externals] in
/-- Only the end of a thread tells how it ended. -/
theorem World.told_ended {x : Except Exc Reply} {m : Move Op Choice Req Env}
    (h : World.Tells t (.ended x) m) : m = .exit t := by
  cases m with
  | run _ op _ => cases op <;> exact h.2.elim
  | exit _ => rw [h.1]
  | start _ _ =>
    obtain ⟨_, _, _, he⟩ := h
    cases he
  | kill _ => cases h.2
  | env _ => exact h.elim

/-- What a thread ends with meets the specification of its program, in the state it ends in. -/
theorem ended_meets {C : Contract World} {allow : World → Move Op Choice Req Env → Prop}
    {Q : Except Exc Reply → World → Prop} {c c' : Config World Op Op.Res Exc Reply}
    {x : Except Exc Reply} (hlt : t < c.next) (hs : .ended x ∉ c.shared.story t)
    (hp : ∀ p, c.threads t = some p → wp (service lim) allow C t p Q c.shared)
    (refl : ∀ w, C.rely t w w) (trans : ∀ w w' w'', C.rely t w w' → C.rely t w' w'' → C.rely t w w'')
    (stable : ∀ r w w', Q r w → C.rely t w w' → Q r w')
    (hinv : ∀ d, (service lim).Reach allow c d → C.inv d.shared)
    (hrely : ∀ d m d', (service lim).Reach allow c d → allow d.shared m →
      (service lim).Step d m d' → m.thread? ≠ some t → C.rely t d.shared d'.shared)
    (h : (service lim).Reach allow c c') (he : .ended x ∈ c'.shared.story t) :
    ∃ d d', (service lim).Reach allow c d ∧ (service lim).Step d (.exit t) d' ∧
      (service lim).Reach allow d' c' ∧ Q x d.shared := by
  induction h with
  | init => exact absurd he hs
  | @step d d' m hr ha hst ih =>
    by_cases hold : .ended x ∈ d.shared.story t
    · obtain ⟨e, e', h₁, h₂, h₃, h₄⟩ := ih hold
      exact ⟨e, e', h₁, h₂, h₃.step ha hst, h₄⟩
    -- this step is the end of the thread, and its program still met the specification
    rcases step_story hst with hsame | ⟨u, o, hm, htold, hother⟩
    · exact absurd (hsame t ▸ he) hold
    by_cases hu : u = t
    swap
    · exact absurd (hother t hu ▸ he) hold
    subst hu
    rw [htold] at he
    rcases List.mem_cons.mp he with rfl | he
    swap
    · exact absurd he hold
    obtain rfl := World.told_ended hm
    have hwp := (wp_reach hlt hp refl trans stable hinv hrely hr).2
    cases hst with
    | @exit _ q r hu hres =>
      have hw := hwp q hu
      have hend : (d.shared.finish u r).story u = .ended r :: d.shared.story u :=
        World.story_told rfl rfl
      have hstory := hend.symm.trans htold
      cases (List.cons.inj hstory).1
      refine ⟨d, _, hr, .exit hu hres, .init, ?_⟩
      cases q <;> cases hres <;> exact hw

/-- The steps of a run in which no statement fails and the query of a thread meets one of these
states. -/
def Queried (V : World → Prop) (t : Tid) (id : UUID) (w : World)
    (m : Move Op Choice Req Env) : Prop :=
  databaseWorks m = true ∧ (m = .run t (.selectPaymentById id) .ok → V w)

/-- The `SELECT` finds a row that can be loaded unless another transaction has it locked. -/
def World.Selects (w : World) (t : Tid) (id : UUID) : Option PaymentRow → Prop
  | some row => w.Free t (.payment id) ∧ row ∈ w.db.payments.rows ∧ row.id = id ∧
      ∃ p, PaymentRepository.toDomain row = .ok p
  | none => ¬ w.Free t (.payment id)

/-- A query reads the payment where its row is free, and misses it where it is locked. -/
def World.Loads (w : World) (t : Tid) (id : UUID) (x : Except Exc Payment) : Prop :=
  if w.Free t (.payment id) then
    ∃ row ∈ w.db.payments.rows, row.id = id ∧ ∃ p, PaymentRepository.toDomain row = .ok p ∧ x = .ok p
  else x = .error (.notFound ("Payment not found: " ++ id.str))

/-- What a query replies for what it has loaded. -/
def queryReply (y : Except Exc Payment) : Except Exc Reply :=
  y.map (fun p => .payment (GetPaymentQueryResponse.fromDomain p))

/-- The answer to a query is the committed data of the payment. -/
def World.Answered (w : World) (id : UUID) (x : Except Exc Reply) : Prop :=
  ∃ row ∈ w.db.payments.rows, row.id = id ∧ ∃ p, PaymentRepository.toDomain row = .ok p ∧
    x = .ok (.payment (GetPaymentQueryResponse.fromDomain p))

theorem World.Loads.answered {y : Except Exc Payment} (h : w.Loads t id y) :
    w.Answered id (queryReply y) ↔ w.Free t (.payment id) := by
  by_cases hf : w.Free t (.payment id)
  · rw [World.Loads, if_pos hf] at h
    obtain ⟨row, hrow, hid, p, hd, rfl⟩ := h
    exact ⟨fun _ => hf, fun _ => ⟨row, hrow, hid, p, hd, rfl⟩⟩
  · rw [World.Loads, if_neg hf] at h
    subst h
    refine ⟨fun hx => ?_, fun h => absurd h hf⟩
    obtain ⟨_, _, _, _, _, hx⟩ := hx
    cases hx

section Query

variable {V : World → Prop}

/-- A query keeps the contract of the service. -/
abbrev Queries (lim : Limits) (V : World → Prop) (t : Tid) (id : UUID) {α : Type} (p : Service α)
    (Q : Except Exc α → World → Prop) (w : World) : Prop :=
  wp (service lim) (Queried V t id) World.contract t p Q w

theorem query_op {op : Op} {Q : Except Exc op.Res → World → Prop} (P : World → Prop) (hP : P w)
    (hs : Stable t P) (hop : op.Plain) (h : ∀ w₁ ch r w₂, P w₁ → w₁.Inv →
      Queried V t id w₁ (.run t op ch) → World.Does lim t w₁ op ch r w₂ → Q r w₂) :
    Queries lim V t id (perform op) Q w := by
  refine wp_perform hP hs (fun w₁ ch r w₂ hp hi ha he => ?_)
  obtain ⟨hi', hg⟩ := World.exec_keeps hi (obliged_of_plain hop) he
  exact ⟨hi', hg, h w₁ ch r w₂ hp hi ha (World.exec_does he)⟩

/-- The load of a committed payment. -/
theorem query_load (hp : w.pend t = []) (hr : ∃ r ∈ w.db.payments.rows, r.id = id) :
    Queries lim V t id (PaymentRepository.getById { value := id })
      (fun x _ => ∃ w, V w ∧ w.Loads t id x) w := by
  have hstable : Stable t (fun w => w.pend t = [] ∧ ∃ r ∈ w.db.payments.rows, r.id = id) := by
    rintro w w' ⟨hp, r, hr, hid⟩ hrely
    obtain ⟨r', hr', he⟩ := hrely.grows.payment r hr
    exact ⟨hrely.pend.trans hp, r', hr', by rw [he.1]; exact hid⟩
  refine wp_seq (fun x _ => ∃ w, V w ∧ ∃ row, x = .ok row ∧ w.Selects t id row)
    (query_op _ ⟨hp, hr⟩ hstable trivial (fun w₁ ch x w₂ hw₁ hi ha hd => ?_)) (fun row w hw => ?_)
    (fun _ _ hw => ?_)
  · obtain ⟨hp, r, hr, hid⟩ := hw₁
    cases hd with
    | fault => cases ha.1
    | @lockPayment _ row hrow hid' hf =>
      rw [World.view_nil hp] at hrow
      obtain ⟨p, hd⟩ := toDomain_obj (hi.sound.metadata _ hrow)
      rw [hid'] at hf
      exact ⟨w₁, ha.2 rfl, some row, rfl, hf, hrow, hid', p, hd⟩
    | skipPayment hn =>
      rw [World.view_nil hp] at hn
      have hlocked := hn r hr hid
      rw [hid] at hlocked
      exact ⟨w₁, ha.2 rfl, none, rfl, hlocked⟩
  · obtain ⟨w, hv, _, he, hl⟩ := hw
    cases he
    cases row with
    | none => exact ⟨w, hv, by rw [World.Loads, if_neg hl]⟩
    | some row =>
      obtain ⟨hf, hrow, hid, p, hd⟩ := hl
      refine (wp_ofExcept _).mpr ⟨w, hv, ?_⟩
      rw [World.Loads, if_pos hf]
      exact ⟨row, hrow, hid, p, hd, hd⟩
  · obtain ⟨_, _, _, he, _⟩ := hw
    cases he

/-- The unit of work of a query ends as its body does. -/
theorem query_within {α : Type} {body : Service α} {P : Except Exc α → Prop}
    (h : Queries lim V t id body (fun x _ => P x) w) :
    Queries lim V t id (Uow.within body) (fun x _ => P x) w := by
  have htrue : Stable t (fun _ => True) := fun _ _ _ _ => trivial
  refine wp_unit _ h (fun e w hr => ?_) (fun r w hr => ?_)
  · exact query_op _ trivial htrue trivial (fun _ _ _ _ _ _ _ _ => hr)
  · refine query_op _ trivial htrue trivial (fun w₁ ch x w₂ _ _ ha hd => ?_)
    cases hd with
    | fault => cases ha.1
    | close => exact hr

theorem query_meets (hp : w.pend t = []) (hi : w.Inv) (hr : ∃ r ∈ w.db.payments.rows, r.id = id) :
    Queries lim V t id ((getPayment id).bind (fun r => pure (.payment r)))
      (fun x _ => ∃ w, V w ∧ ∃ y, w.Loads t id y ∧ x = queryReply y) w := by
  have hid : PaymentID.new (.uuid id) = .ok { value := id } := by
    obtain ⟨r, hm, rfl⟩ := hr
    simp [PaymentID.new, hi.sound.version r hm]
  simp only [getPayment, Prog.bind_eq, Prog.pure_eq, hid, Prog.ofExcept_ok_bind]
  refine wp_seq (fun x _ => ∃ w, V w ∧ ∃ y, w.Loads t id y ∧
      x = y.map GetPaymentQueryResponse.fromDomain)
    (wp_seq _ (query_within (query_load hp hr)) (fun p _ hl => ?_) (fun e _ hl => ?_)) ?_ ?_
  · exact hl.imp (fun w h => ⟨h.1, .ok p, h.2, rfl⟩)
  · exact hl.imp (fun w h => ⟨h.1, .error e, h.2, rfl⟩)
  · rintro response _ ⟨w, hv, y, hl, he⟩
    cases y with
    | error e => cases he
    | ok p =>
      cases he
      exact ⟨w, hv, .ok p, hl, rfl⟩
  · rintro e _ ⟨w, hv, y, hl, he⟩
    cases y with
    | error e => exact ⟨w, hv, .error e, hl, by cases he; rfl⟩
    | ok p => cases he

/-- No effect of a query waits. -/
theorem gets_answer {op : Op} (h : op.Gets id) (w : World) :
    ∃ ch r w', ((Move.run t op ch : Move Op Choice Req Env).thread? = some t ∧
        databaseWorks (.run t op ch) = true) ∧
      (service lim).exec t op ch w = some (r, w') := by
  cases op <;> first | exact h.elim | exact ⟨.ok, _, _, ⟨rfl, rfl⟩, rfl⟩

end Query

/-- In a run without a failure of the database a query for a committed payment replies with what
its `SELECT` has loaded. -/
theorem query_loads {c c₁ c' : Config World Op Op.Res Exc Reply} {r : PaymentRow}
    {ds : List (Config World Op Op.Res Exc Reply × Move Op Choice Req Env)}
    (h : Reachable lim c) (hr : r ∈ c.shared.db.payments.rows)
    (hs : (service lim).Step c (.start t (.get r.id)) c₁) (h' : (service lim).Path c₁ ds c')
    (hw : ∀ d ∈ ds, databaseWorks d.2 = true) {x : Except Exc Reply}
    (hx : .ended x ∈ c'.shared.story t) : ∃ d ∈ ds, d.2 = .run t (.selectPaymentById r.id) .ok ∧
      ∃ y, d.1.shared.Loads t r.id y ∧ x = queryReply y := by
  obtain ⟨rfl, hnext, p, he, ht⟩ := hs.started
  obtain ⟨rfl, hshared⟩ : (getPayment r.id).bind (fun r => pure (.payment r)) = p ∧
      c.shared = c₁.shared := Prod.mk.inj (Option.some.inj he)
  have hlt : c.next < c₁.next := hnext ▸ Nat.lt_succ_self _
  have hbefore : ∀ {allow} {d : Config World Op Op.Res Exc Reply},
      (service lim).Reach allow c₁ d → Reachable lim d := fun hr =>
    (h.step trivial hs).trans (hr.mono (fun _ _ _ => trivial))
  have hreach : (service lim).Reach (Queried (fun w => ∃ d ∈ ds, d.1.shared = w ∧
      d.2 = .run c.next (.selectPaymentById r.id) .ok) c.next r.id) c₁ c' :=
    h'.reach (fun d hd => ⟨hw d hd, fun he => ⟨d, hd, rfl, he⟩⟩)
  obtain ⟨_, _, _, _, _, _, ⟨d, hd, rfl, hsel⟩, y, hl, hy⟩ := ended_meets hlt
    (by rw [← hshared, story_fresh h _ (Nat.le_refl _)]; exact List.not_mem_nil) (fun p hp => by
      cases ht.symm.trans hp
      rw [← hshared]
      exact query_meets ((reachable_holds h).fresh _ (Nat.le_refl _)) (reachable_holds h).inv
        ⟨r, hr, rfl⟩)
    (World.Rely.refl _) (fun _ _ _ => World.Rely.trans) (fun _ _ _ hq _ => hq)
    (fun d hd => (reachable_holds (hbefore hd)).inv)
    (fun d m d' hd _ hst hm => contract_valid.rely_step (reachable_holds (hbefore hd)) trivial hst hm)
    hreach hx
  exact ⟨d, hd, hsel, y, hl, hy⟩

/-- In a run without a failure of the database a query for a committed payment never waits, and
it answers with the committed data exactly where its `SELECT` finds the row unlocked. -/
theorem query_answers {c c₁ c' : Config World Op Op.Res Exc Reply} {r : PaymentRow}
    {ds : List (Config World Op Op.Res Exc Reply × Move Op Choice Req Env)}
    (h : Reachable lim c) (hr : r ∈ c.shared.db.payments.rows)
    (hs : (service lim).Step c (.start t (.get r.id)) c₁) (h' : (service lim).Path c₁ ds c')
    (hw : ∀ d ∈ ds, databaseWorks d.2 = true) :
    (c'.threads t ≠ none → ∃ c'' x, (service lim).Reach
      (fun _ m => m.thread? = some t ∧ databaseWorks m = true) c' c'' ∧
        .ended x ∈ c''.shared.story t) ∧
    ∀ x, .ended x ∈ c'.shared.story t → ∃ d ∈ ds, d.2 = .run t (.selectPaymentById r.id) .ok ∧
      (d.1.shared.Answered r.id x ↔ d.1.shared.Free t (.payment r.id)) := by
  refine ⟨fun hrun => ?_, fun x hx => ?_⟩
  · obtain ⟨rfl, hnext, p, he, ht⟩ := hs.started
    obtain ⟨rfl, hshared⟩ : (getPayment r.id).bind (fun r => pure (.payment r)) = p ∧
        c.shared = c₁.shared := Prod.mk.inj (Option.some.inj he)
    have hlt : c.next < c₁.next := hnext ▸ Nat.lt_succ_self _
    obtain ⟨q, hq⟩ := Option.ne_none_iff_exists'.mp hrun
    have hreach : (service lim).Reach (fun _ m => databaseWorks m = true) c₁ c' := h'.reach hw
    have honly := (hreach.only hlt (fun p hp => by
      cases ht.symm.trans hp
      exact Prog.Only.bind (only_get_payment r.id) (fun _ => trivial))).2 q hq
    obtain ⟨d, q', x, hreach, hq', hx⟩ : ∃ d q' x, (service lim).Reach
        (fun _ m => m.thread? = some c.next ∧ databaseWorks m = true) c' d ∧
        d.threads c.next = some q' ∧ q'.result? = some x :=
      Sys.finishes (fun op ho w => gets_answer ho w) honly hq
    refine ⟨_, x, hreach.step ⟨rfl, rfl⟩ (.exit hq' hx), ?_⟩
    show .ended x ∈ (d.shared.finish c.next x).story c.next
    rw [World.story_told (o := .ended x) (w := d.shared) rfl rfl]
    exact List.mem_cons_self
  · obtain ⟨d, hd, hsel, y, hl, rfl⟩ := query_loads h hr hs h' hw hx
    exact ⟨d, hd, hsel, hl.answered⟩

end

/-- A query for a payment starts. -/
def queryConfig [Externals] (c : Config World Op Op.Res Exc Reply) (id : UUID) :
    Config World Op Op.Res Exc Reply :=
  { c.put c.next (some ((getPayment id).bind (fun r => pure (.payment r)))) c.shared with
    next := c.next + 1 }

theorem step_query [Externals] {lim : Limits} (c : Config World Op Op.Res Exc Reply) (id : UUID) :
    (service lim).Step c (.start c.next (.get id)) (queryConfig c id) :=
  .start rfl

/-- The payment with an identifier is committed. -/
def World.has (w : World) (id : UUID) : Bool := w.db.payments.rows.any (fun r => r.id = id)

theorem World.mem_of_has {w : World} {id : UUID} (h : w.has id = true) :
    ∃ r ∈ w.db.payments.rows, r.id = id := by
  obtain ⟨r, hr, hid⟩ := List.any_eq_true.mp h
  exact ⟨r, hr, of_decide_eq_true hid⟩

set_option maxRecDepth 20000 in
theorem createRun_some :
    (after {} (createRun 0 (uid 1) (uid 10) (uid 11))).isSome = true := by decide +kernel

/-- A committed payment that nothing handles. -/
def createdConfig : Config World Op Op.Res Exc Reply :=
  (after {} (createRun 0 (uid 1) (uid 10) (uid 11))).get createRun_some

def afterQuery : Option (Config World Op Op.Res Exc Reply) :=
  (sampleService {}).play (fun _ => databaseWorks) (oks 1 2 ++ [.exit 1])
    (@queryConfig sample createdConfig (uid 10))

set_option maxRecDepth 20000 in
theorem afterQuery_some : afterQuery.isSome = true := by decide +kernel

set_option maxRecDepth 20000 in
theorem createdConfig_has :
    createdConfig.shared.has (uid 10) = true ∧ createdConfig.next = 1 := by decide +kernel

set_option maxRecDepth 20000 in
theorem afterQuery_ends :
    ends 1 (afterQuery.get afterQuery_some).shared.trace = true := by decide +kernel

theorem query_answers_created : ∃ c r c₁ ds c' x, @Reachable sample {} c ∧
    r ∈ (c : Config World Op Op.Res Exc Reply).shared.db.payments.rows ∧
    (sampleService {}).Step c (.start c.next (.get r.id)) c₁ ∧ (sampleService {}).Path c₁ ds c' ∧
    .ended x ∈ c'.shared.story c.next ∧ ∃ d ∈ ds, d.2 = .run c.next (.selectPaymentById r.id) .ok ∧
      (@World.Answered sample d.1.shared r.id x ↔ d.1.shared.Free c.next (.payment r.id)) := by
  obtain ⟨hhas, hnext⟩ := createdConfig_has
  obtain ⟨r, hr, hid⟩ := World.mem_of_has hhas
  obtain ⟨x, hx⟩ := mem_of_ends afterQuery_ends
  obtain ⟨ds, hp, hw⟩ := Sys.path_of_play (Option.some_get afterQuery_some).symm
  have hreach : @Reachable sample {} createdConfig := reachable_after createRun_some
  have hstep := @step_query sample {} createdConfig r.id
  rw [← hid] at hp
  have hend : .ended x ∈ (afterQuery.get afterQuery_some).shared.story createdConfig.next :=
    World.mem_story.mpr ⟨hnext.symm ▸ hx, rfl⟩
  exact ⟨createdConfig, r, _, ds, _, x, hreach, hr, hstep, hp, hend,
    (@query_answers sample {} _ createdConfig _ _ r ds hreach hr hstep hp hw).2 x hend⟩

/-- A thread was told that the payment does not exist. -/
def misses (t : Tid) (id : UUID) (trace : List (Tid × Obs)) : Bool :=
  trace.any (fun d => d.1 = t && match d.2 with
    | .ended (.error (.notFound text)) => text = "Payment not found: " ++ id.str
    | _ => false)

theorem mem_of_misses {t : Tid} {id : UUID} {trace : List (Tid × Obs)}
    (h : misses t id trace = true) :
    (t, .ended (.error (.notFound ("Payment not found: " ++ id.str)))) ∈ trace := by
  obtain ⟨⟨u, o⟩, hm, ho⟩ := List.any_eq_true.mp h
  simp only [Bool.and_eq_true, decide_eq_true_eq] at ho
  obtain ⟨rfl, ho⟩ := ho
  split at ho
  · rw [← of_decide_eq_true ho]
    exact hm
  · cases ho

/-- A delivery has loaded the payment and is about to ask the gateway. -/
def loadedRun : Schedule :=
  createRun 0 (uid 1) (uid 10) (uid 11) ++ [.start (.deliver 0), .run 1 .ok] ++ claimRun 1 ++ oks 1 2

def afterWorking (as : Schedule) (c : Config World Op Op.Res Exc Reply) :
    Option (Config World Op Op.Res Exc Reply) :=
  (sampleService {}).play (fun _ => works) as c

set_option maxRecDepth 20000 in
theorem loadedRun_some : (afterWorking loadedRun (Config.initial {})).isSome = true := by
  decide +kernel

def loadedConfig : Config World Op Op.Res Exc Reply :=
  (afterWorking loadedRun (Config.initial {})).get loadedRun_some

def afterMiss : Option (Config World Op Op.Res Exc Reply) :=
  afterWorking (oks 2 3 ++ [.exit 2]) (@queryConfig sample loadedConfig (uid 10))

set_option maxRecDepth 20000 in
theorem afterMiss_some : afterMiss.isSome = true := by decide +kernel

set_option maxRecDepth 20000 in
theorem loadedConfig_has :
    loadedConfig.shared.has (uid 10) = true ∧ loadedConfig.next = 2 := by decide +kernel

set_option maxRecDepth 20000 in
theorem afterMiss_misses :
    misses 2 (uid 10) (afterMiss.get afterMiss_some).shared.trace = true := by decide +kernel

theorem query_missed : ∃ c r c₁ ds c', (sampleService {}).Reach (fun _ m => works m = true)
      (Config.initial {}) c ∧ r ∈ (c : Config World Op Op.Res Exc Reply).shared.db.payments.rows ∧
    (sampleService {}).Step c (.start c.next (.get r.id)) c₁ ∧ (sampleService {}).Path c₁ ds c' ∧
    (∀ d ∈ ds, works d.2 = true) ∧
    .ended (.error (.notFound ("Payment not found: " ++ r.id.str))) ∈ c'.shared.story c.next := by
  obtain ⟨hhas, hnext⟩ := loadedConfig_has
  obtain ⟨r, hr, hid⟩ := World.mem_of_has hhas
  obtain ⟨ds, hp, hw⟩ := Sys.path_of_play (Option.some_get afterMiss_some).symm
  have hmiss := mem_of_misses afterMiss_misses
  rw [← hid] at hp hmiss
  exact ⟨loadedConfig, r, _, ds, _, Sys.reach_of_play (fun _ _ h => h)
    (Option.some_get loadedRun_some).symm, hr, @step_query sample {} loadedConfig r.id, hp, hw,
    World.mem_story.mpr ⟨hnext.symm ▸ hmiss, rfl⟩⟩

end Payments
