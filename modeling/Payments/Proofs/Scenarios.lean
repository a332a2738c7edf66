import Payments.Proofs.Service

namespace Payments

open Lib

/-- Answers of the other packages for the inputs of the runs below. -/
@[reducible]
def sample : Externals where
  validatorsUrl := fun _ => true
  floatText := fun _ => ""
  isPrintable := fun _ => true

def sampleService (lim : Limits) : Sys World Op Op.Res Exc Reply Choice Req Env :=
  @service sample lim

abbrev Schedule := List (Action Choice Req Env)

/-- A UUID of version 4. -/
def uid (n : Nat) : UUID := ⟨BitVec.ofNat 128 (4 * 2 ^ 76 + 2 ^ 63 + n)⟩

def sampleTime : DateTime := ⟨2026, 1, 2, 3, 4, 5, 0, by decide⟩

def sampleCommand (key : UUID) : CreatePaymentCommand where
  amount := .finite false 100 (-2)
  currency := .rub
  key := key
  description := "test payment"
  metadata := .dict []
  webhookUrl := "https://example.com/hook"

/-- A thread makes steps that all work. -/
def oks (t : Tid) (n : Nat) : Schedule := List.replicate n (.run t .ok)

/-- A thread draws a time, an identifier and a time. -/
def stamps (t : Tid) (id : UUID) : Schedule :=
  [.run t (.time sampleTime), .run t (.uuid id), .run t (.time sampleTime)]

/-- A creation that runs alone to its end. -/
def createRun (t : Tid) (key id eventId : UUID) : Schedule :=
  [.start (.create (sampleCommand key)), .run t .ok, .run t (.uuid id)] ++ stamps t eventId ++
    oks t 8 ++ [.exit t]

/-- The claim of an event with its unit of work, up to the gate. -/
def claimRun (t : Tid) : Schedule := .run t (.time sampleTime) :: oks t 4

/-- A first delivery to `handle_payment_processing` that settles the payment. -/
def processRun (t : Tid) (i : Nat) (eventId : UUID) : Schedule :=
  [.start (.deliver i), .run t .ok] ++ claimRun t ++ oks t 2 ++ [.run t (.coin true)] ++
    stamps t eventId ++ oks t 13 ++ [.exit t]

/-- A first delivery to `handle_notify_client`. -/
def notifyRun (t : Tid) (i : Nat) : Schedule :=
  [.start (.deliver i)] ++ claimRun t ++ oks t 8 ++ [.exit t]

/-- A poll that publishes the given events. -/
def pollRun (t : Tid) (ids : List UUID) : Schedule :=
  [.start .poll, .run t .ok, .run t (.order ids)] ++ oks t (ids.length + 1) ++ [.exit t]

/-- The configuration after a schedule that starts from empty tables. -/
def after (lim : Limits) (as : Schedule) : Option (Config World Op Op.Res Exc Reply) :=
  (sampleService lim).play (fun _ _ => true) as (Config.initial {})

theorem reachable_of_after {lim : Limits} {as : Schedule}
    {c : Config World Op Op.Res Exc Reply} (h : after lim as = some c) : @Reachable sample lim c :=
  Sys.reach_of_play (fun _ _ _ => trivial) h

theorem reachable_after {lim : Limits} {as : Schedule} (h : (after lim as).isSome = true) :
    @Reachable sample lim ((after lim as).get h) :=
  reachable_of_after (Option.some_get h).symm

/-- The configuration after more of a schedule. -/
def follow (lim : Limits) (as : Schedule) (c : Config World Op Op.Res Exc Reply) :
    Option (Config World Op Op.Res Exc Reply) :=
  (sampleService lim).play (fun _ _ => true) as c

theorem reach_of_follow {lim : Limits} {as : Schedule} {c c' : Config World Op Op.Res Exc Reply}
    (h : follow lim as c = some c') : (sampleService lim).Reach (fun _ _ => True) c c' :=
  Sys.reach_of_play (fun _ _ _ => trivial) h

/-- The thread has acknowledged its message. -/
def acks (t : Tid) (trace : List (Tid × Obs)) : Bool :=
  trace.any (fun d => d.1 = t && match d.2 with | .acked => true | _ => false)

theorem mem_of_acks {t : Tid} {trace : List (Tid × Obs)} (h : acks t trace = true) :
    (t, .acked) ∈ trace := by
  obtain ⟨⟨u, o⟩, hm, ho⟩ := List.any_eq_true.mp h
  simp only [Bool.and_eq_true, decide_eq_true_eq] at ho
  obtain ⟨rfl, ho⟩ := ho
  cases o <;> first | exact hm | cases ho

/-- The first message, for `handle_payment_processing`, in an attempt of it. -/
def awaits (attempt : Nat) (w : World) : Bool :=
  w.ready[0]?.any (fun d => d.1 = newPaymentsQ && d.2.attempt = attempt)

theorem ready_of_awaits {attempt : Nat} {w : World} (h : awaits attempt w = true) :
    ∃ m, w.ready[0]? = some (newPaymentsQ, m) ∧ m.attempt = attempt := by
  obtain ⟨⟨q, m⟩, hd, hm⟩ := (Option.any_eq_true _ _).mp h
  simp only [Bool.and_eq_true, decide_eq_true_eq] at hm
  obtain ⟨rfl, ha⟩ := hm
  exact ⟨m, hd, ha⟩

/-- The broker has taken a message. -/
def accepts (trace : List (Tid × Obs)) : Bool :=
  trace.any (fun d => match d.2 with | .accepted _ _ _ => true | _ => false)

theorem not_mem_of_accepts {trace : List (Tid × Obs)} (h : accepts trace = false) (t : Tid)
    (x k : String) (m : Message) : (t, .accepted x k m) ∉ trace :=
  fun hm => List.any_eq_false.mp h _ hm rfl

end Payments
