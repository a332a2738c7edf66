import Payments.Proofs.Contract

namespace Payments

open Lib

/-- The effects that ask nothing of the program. -/
def Op.Plain : Op → Prop
  | .insertPayment _ | .insertOutbox _ | .commit | .publish _ _ _ | .send _ _ _ => False
  | _ => True

/-- The effects that leave the open transaction as it is. -/
def Op.Reads : Op → Prop
  | .updatePayment _ _ _ | .updateOutbox _ _ _ | .rollback | .close => False
  | op => op.Plain

theorem Op.Reads.plain {op : Op} (h : op.Reads) : op.Plain := by
  cases op <;> trivial

/-- Others do not break the assertion, and neither does what only reads. -/
def Stable (t : Tid) (P : World → Prop) : Prop := ∀ w w', P w → World.Rely t w w' → P w'

/-- Stable, and kept by the changes of the open transaction as well. -/
def Firm (t : Tid) (F : World → Prop) : Prop := ∀ w w', F w → World.Keeps t w w' → F w'

section Stability

variable {t : Tid} {F F' : World → Prop}

theorem Firm.and (h : Firm t F) (h' : Firm t F') : Firm t (fun w => F w ∧ F' w) :=
  fun w w' hf hk => ⟨h w w' hf.1 hk, h' w w' hf.2 hk⟩

theorem Firm.const (p : Prop) : Firm t (fun _ => p) := fun _ _ hp _ => hp

/-- What the growth of the tables keeps is firm. -/
theorem Firm.db (G : Db → Prop) (hG : ∀ db db', G db → db.Grows db' → G db') :
    Firm t (fun w => G w.db) :=
  fun _ _ hp hk => hG _ _ hp hk.grows

/-- The open transaction has made these changes, and something firm holds. -/
def During (t : Tid) (ws : List Write) (F : World → Prop) (w : World) : Prop :=
  w.pend t = ws ∧ F w

theorem Firm.during (h : Firm t F) (ws : List Write) : Stable t (During t ws F) :=
  fun w w' hp hr => ⟨hr.pend.trans hp.1, h w w' hp.2 hr.toKeeps⟩

/-- The thread has drawn an identifier that no row has. -/
def Drawn (t : Tid) (u : UUID) (w : World) : Prop :=
  w.drawn u = some t ∧ w.db.payments.find? u = none ∧ w.db.outbox.find? u = none

theorem firm_drawn (u : UUID) : Firm t (Drawn t u) :=
  fun _ _ hp hr => ⟨hr.drawn u hp.1, hr.unusedPayment u hp.1 hp.2.1, hr.unusedEvent u hp.1 hp.2.2⟩

/-- The thread holds the lock on a committed payment. -/
def Holds (t : Tid) (r : PaymentRow) (w : World) : Prop :=
  w.lock (.payment r.id) = some t ∧ r ∈ w.db.payments.rows

theorem firm_holds (r : PaymentRow) : Firm t (Holds t r) :=
  fun _ _ hp hr => ⟨hr.lock _ hp.1, hr.payment r hp.2 hp.1⟩

/-- The thread holds the lock on an idempotency key that no committed payment has. -/
def Reserves (t : Tid) (key : UUID) (w : World) : Prop :=
  w.lock (.paymentKey key) = some t ∧ ∀ r ∈ w.db.payments.rows, r.idempotencyKey ≠ key

theorem firm_reserves (key : UUID) : Firm t (Reserves t key) :=
  fun _ _ hp hr => ⟨hr.lock _ hp.1, hr.key key hp.1 hp.2⟩

end Stability

/-- A program works and `P` holds, or it fails and `E` holds. -/
def Ends {α : Type} (P : α → World → Prop) (E : Exc → World → Prop) : Except Exc α → World → Prop
  | .ok a, w => P a w
  | .error e, w => E e w

section Rules

variable [Externals] {lim : Limits} {t : Tid} {w : World} {α β : Type}

/-- A unit of work runs its body, rolls back where the body raised, and closes the session. It ends
as its body does, or in the exception of the close. -/
theorem wp_unit {allow : World → Move Op Choice Req Env → Prop} {C : Contract World}
    {body : Service α} {Q : Except Exc α → World → Prop} (R : Except Exc α → World → Prop)
    (h : wp (service lim) allow C t body R w)
    (hroll : ∀ e w, R (.error e) w →
      wp (service lim) allow C t (perform .rollback) (fun _ => R (.error e)) w)
    (hclose : ∀ r w, R r w → wp (service lim) allow C t (perform .close)
      (Ends (fun _ => Q r) (fun e => Q (.error e))) w) :
    wp (service lim) allow C t (Uow.within body) Q w := by
  refine wp_seq (fun x w => ∃ r, x = .ok r ∧ R r w)
    (wp_outcome (wp_mono h (fun r w hr => ⟨r, rfl, hr⟩))) ?_ (by rintro _ _ ⟨_, he, _⟩; cases he)
  rintro r w ⟨_, he, hr⟩
  cases he
  refine wp_seq (fun x w => (∃ u, x = .ok u) ∧ R r w) ?_ ?_ (by rintro _ _ ⟨⟨_, he⟩, _⟩; cases he)
  · cases r with
    | ok a => exact ⟨⟨(), rfl⟩, hr⟩
    | error e =>
      -- the failure of a rollback is swallowed
      exact wp_catch (fun _ => R (.error e)) (hroll e w hr) (fun u _ hw => ⟨⟨u, rfl⟩, hw⟩)
        (fun _ _ hw => ⟨⟨(), rfl⟩, hw⟩)
  · rintro _ w ⟨_, hr⟩
    exact wp_seq _ (hclose r w hr) (fun _ _ hw => (wp_ofExcept r).mpr hw) (fun _ _ hw => hw)

/-- A unit of work ends as its body does, where its session can be closed. -/
theorem wp_within {allow : World → Move Op Choice Req Env → Prop} {C : Contract World}
    {body : Service α} {P P' : α → World → Prop} {E E' : Exc → World → Prop}
    (h : wp (service lim) allow C t body (Ends P E) w)
    (hroll : ∀ e w, E e w → wp (service lim) allow C t (perform .rollback) (fun _ => E e) w)
    (hok : ∀ a w, P a w →
      wp (service lim) allow C t (perform .close) (Ends (fun _ => P' a) (fun _ _ => False)) w)
    (herr : ∀ e w, E e w →
      wp (service lim) allow C t (perform .close) (Ends (fun _ => E' e) (fun _ _ => False)) w) :
    wp (service lim) allow C t (Uow.within body) (Ends P' E') w := by
  have hclosed : ∀ {S : World → Prop} {r : Except Exc α} {w : World},
      (∀ w, S w → Ends P' E' r w) → wp (service lim) allow C t (perform .close)
        (Ends (fun _ => S) (fun _ _ => False)) w → wp (service lim) allow C t (perform .close)
        (Ends (fun _ => Ends P' E' r) (fun e => Ends P' E' (.error e))) w := by
    intro S r w hS hw
    refine wp_mono hw (fun x w hx => ?_)
    cases x with
    | ok _ => exact hS w hx
    | error _ => exact hx.elim
  refine wp_unit (Ends P E) h hroll (fun r w hw => ?_)
  cases r with
  | ok a => exact hclosed (fun _ h => h) (hok a w hw)
  | error e => exact hclosed (fun _ h => h) (herr e w hw)

/-- Under the contract of the service a program ends in `Q`. -/
abbrev Meets (lim : Limits) (t : Tid) (p : Service α) (Q : Except Exc α → World → Prop)
    (w : World) : Prop :=
  wp (service lim) (fun _ _ => True) World.contract t p Q w

/-- One effect, from an assertion that is stable. -/
theorem meets_op {op : Op} {Q : Except Exc op.Res → World → Prop} (P : World → Prop) (hP : P w)
    (hs : Stable t P) (h : ∀ w₁, P w₁ → w₁.Inv → World.Obliged lim t w₁ op ∧
      ∀ ch r w₂, World.Does lim t w₁ op ch r w₂ → Q r w₂) :
    Meets lim t (perform op) Q w := by
  refine wp_perform hP hs (fun w₁ ch r w₂ hp hi _ he => ?_)
  obtain ⟨ho, hq⟩ := h w₁ hp hi
  obtain ⟨hi', hg⟩ := World.exec_keeps hi ho he
  exact ⟨hi', hg, hq ch r w₂ (World.exec_does he)⟩

omit [Externals] in
theorem obliged_of_plain {op : Op} (h : op.Plain) : World.Obliged lim t w op := by
  cases op <;> trivial

omit [Externals] in
/-- What an effect that only reads does is nothing that the thread itself would notice. -/
theorem reads_rely {op : Op} (h : op.Reads) {ch : Choice} {r : Except Exc op.Res} {w' : World}
    (hd : World.Does lim t w op ch r w') : World.Rely t w w' := by
  cases hd with
  | fault =>
    cases op <;> first | exact .refl t w | exact h.elim
  | lockPayment _ _ hf => exact .hold (by simpa using hf)
  | lockKey _ _ hf => exact .hold (by simpa using hf)
  | lockEvent _ _ hf => exact .hold (by simpa using hf)
  | pendings hs =>
    refine .hold (fun x hx => ?_)
    obtain ⟨id, hid, rfl⟩ := List.mem_map.mp hx
    obtain ⟨o, ho, rfl⟩ := List.mem_map.mp (hs.1.subset (List.mem_of_mem_take hid))
    exact (by simpa using (List.mem_filter.mp ho).2 : _ ∧ _).2
  | @claim id _ _ _ _ hf =>
    exact (World.Rely.hold (by simpa using hf : ∀ r ∈ [Resource.outbox id], _)).trans .note
  | uuid4 hu => exact .draw hu
  | enter => exact .note
  | ack => exact .ackDelivery
  | skipPayment | skipKey | readKey | missKey | skipEvent | skipClaim | flush | now | random
  | connect => exact .refl t w
  | _ => exact h.elim

/-- A program whose effects ask nothing keeps the contract. -/
theorem meets_plain {p : Service α} (hp : p.Only Op.Plain) :
    Meets lim t p (fun _ _ => True) w := by
  refine wp_only hp trivial (fun _ _ _ _ => trivial) (fun op ho w₁ ch r w₂ _ hi _ he => ?_)
  obtain ⟨hi', hg⟩ := World.exec_keeps hi (obliged_of_plain ho) he
  exact ⟨hi', hg, trivial⟩

/-- A program that only reads keeps what is stable. -/
theorem meets_reads {p : Service α} {P : World → Prop} (hp : p.Only Op.Reads) (hP : P w)
    (hs : Stable t P) : Meets lim t p (fun _ => P) w := by
  refine wp_only hp hP hs (fun op ho w₁ ch r w₂ hp₁ hi _ he => ?_)
  obtain ⟨hi', hg⟩ := World.exec_keeps hi (obliged_of_plain ho.plain) he
  exact ⟨hi', hg, hs _ _ hp₁ (reads_rely ho (World.exec_does he))⟩

theorem meets_bind {p : Service α} {f : α → Service β} {Q : Except Exc β → World → Prop}
    (R : Except Exc α → World → Prop) (hp : Meets lim t p R w)
    (hok : ∀ a w, R (.ok a) w → Meets lim t (f a) Q w)
    (herr : ∀ e w, R (.error e) w → Q (.error e) w) : Meets lim t (p.bind f) Q w :=
  wp_seq R hp hok herr

theorem meets_handle {p : Service α} {f : Exc → Service α} {Q : Except Exc α → World → Prop}
    (R : Except Exc α → World → Prop) (hp : Meets lim t p R w)
    (hok : ∀ a w, R (.ok a) w → Q (.ok a) w)
    (herr : ∀ e w, R (.error e) w → Meets lim t (f e) Q w) : Meets lim t (p.handle f) Q w :=
  wp_catch R hp hok herr

/-- After a unit of work the session is empty, and what its body tells of the tables when it
succeeds still holds. -/
theorem meets_within {body : Service α} (G : α → Db → Prop)
    (hG : ∀ a db db', G a db → db.Grows db' → G a db')
    (h : Meets lim t body (fun r w => ∀ a, r = .ok a → G a w.db) w) :
    Meets lim t (Uow.within body)
      (fun r w => w.pend t = [] ∧ ∀ a, r = .ok a → G a w.db) w := by
  have hs : ∀ r : Except Exc α, Stable t (fun w => ∀ a, r = .ok a → G a w.db) :=
    fun r w w' hp hr a ha => hG a _ _ (hp a ha) hr.grows
  refine wp_unit (fun r w => ∀ a, r = .ok a → G a w.db) h (fun e w _ => ?_) (fun r w hr => ?_)
  · have hplain : (perform .rollback).Only Op.Plain := (Prog.only_perform _).mpr trivial
    exact wp_mono (meets_plain hplain) (fun _ _ _ _ ha => by cases ha)
  · refine meets_op _ hr (hs r) (fun w₁ hp _ => ⟨trivial, fun ch r' w₂ hd => ?_⟩)
    cases hd with
    | fault => exact ⟨by simp [World.failed], fun _ ha => by cases ha⟩
    | close => exact ⟨by simp, hp⟩

/-- What the growth of the tables keeps holds after any program that held it before. -/
theorem meets_frame {p : Service α} {Q : Except Exc α → World → Prop} {H : Db → Prop}
    (hH : ∀ db db', H db → db.Grows db' → H db') (h : Meets lim t p Q w) (hw : H w.db) :
    Meets lim t p (fun r w => Q r w ∧ H w.db) w := by
  induction p generalizing w with
  | ret a => exact ⟨h, hw⟩
  | raise e => exact ⟨h, hw⟩
  | call op k ih =>
    intro w₁ hr hi ch r w₂ ha he
    obtain ⟨hi₂, hg, hk⟩ := h w₁ hr hi ch r w₂ ha he
    have hgrows := (hg.others (t + 1) (Nat.ne_of_lt (Nat.lt_succ_self t))).grows
    exact ⟨hi₂, hg, ih r hk (hH _ _ (hH _ _ hw hr.grows) hgrows)⟩

end Rules

end Payments
