import Payments.Proofs.Programs

namespace Payments

open Lib

/-- The effects that change nothing but the locks of the session and who drew an identifier. -/
def Op.Quiet : Op → Prop
  | .selectPaymentById _ | .selectPaymentByKey _ | .selectPaymentIdByKey _ | .selectOutboxId _
  | .selectPendings _ _ | .flush | .uuid4 | .now | .random | .connect => True
  | _ => False

/-- Since `w₀` the session has made these changes and committed none, and nothing can be
seen of it outside. -/
structure Draft (t : Tid) (w₀ : World) (ws : List Write) (w : World) : Prop where
  db : w.db = w₀.db
  pend : w.pend t = ws
  ready : w.ready = w₀.ready
  trace : w.trace = w₀.trace
  free : ∀ r, w₀.Free t r → w.Free t r

section Draft

variable {t : Tid} {w₀ w : World} {ws : List Write}

theorem Draft.refl (h : w.pend t = ws) : Draft t w ws w := ⟨rfl, h, rfl, rfl, fun _ h => h⟩

theorem Draft.hold (h : Draft t w₀ ws w) (rs : List Resource) : Draft t w₀ ws (w.hold t rs) :=
  { h with free := fun r hr => World.free_hold (h.free r hr) }

theorem Draft.write (h : Draft t w₀ ws w) (xs : List Write) :
    Draft t w₀ (ws ++ xs) (w.write t xs) where
  db := h.db
  pend := by simp [h.pend]
  ready := h.ready
  trace := h.trace
  free := fun r hr => World.free_write (h.free r hr)

/-- A quiet effect leaves the changes of the session as they are. -/
theorem Draft.quiet (h : Draft t w₀ ws w) {lim : Limits} {op : Op} (ho : op.Quiet) {ch : Choice}
    {r : Except Exc op.Res} {w' : World} (hd : World.Does lim t w op ch r w') :
    Draft t w₀ ws w' := by
  cases hd with
  | fault => cases op <;> first | exact h | exact ho.elim
  | lockPayment | lockKey | lockEvent | pendings => exact h.hold _
  | uuid4 => exact { h with free := fun r hr => h.free r hr }
  | skipPayment | skipKey | readKey | missKey | skipEvent | flush | now | random | connect =>
    exact h
  | _ => exact ho.elim

/-- In a session that has made no changes yet the tables are the committed ones. -/
theorem Draft.view (h : Draft t w₀ [] w) : w.view t = w₀.db := by
  rw [World.view, h.pend, h.db]
  rfl

end Draft

/-- A session that is closed has made no changes. -/
theorem Draft.drop {t : Tid} {w₀ w : World} {ws : List Write} (h : Draft t w₀ ws w) :
    Draft t w₀ [] (w.drop t) where
  db := h.db
  pend := by simp
  ready := h.ready
  trace := h.trace
  free := fun r hr => World.free_drop (h.free r hr)

theorem World.drop_drop (w : World) (t : Tid) : (w.drop t).drop t = w.drop t := by
  simp only [World.drop, World.mk.injEq, true_and, Function.update_idem, and_self, and_true]
  funext r
  by_cases h : w.lock r = some t <;> simp [h]

theorem World.commit_drop (w : World) (t : Tid) : (w.commit t).drop t = w.commit t :=
  congrArg (fun v : World =>
    { v with db := w.view t, trace := (t, .committed (w.pend t)) :: w.trace }) (w.drop_drop t)

section Rules

variable [Externals] {lim : Limits} {allow : World → Move Op Choice Req Env → Prop} {t : Tid}
  {w w₀ : World} {ws : List Write} {α β : Type}

/-- A program that runs alone ends in `Q`. -/
abbrev Solo (lim : Limits) (allow : World → Move Op Choice Req Env → Prop) (t : Tid)
    (p : Service α) (Q : Except Exc α → World → Prop) (w : World) : Prop :=
  wp (service lim) allow (.alone World) t p Q w

theorem solo_op {op : Op} {Q : Except Exc op.Res → World → Prop}
    (h : ∀ ch r w', allow w (.run t op ch) → World.Does lim t w op ch r w' → Q r w') :
    Solo lim allow t (perform op) Q w :=
  wp_alone (fun ch r w' ha he => h ch r w' ha (World.exec_does he))

theorem solo_bind {p : Service α} {f : α → Service β} {Q : Except Exc β → World → Prop}
    (R : Except Exc α → World → Prop) (hp : Solo lim allow t p R w)
    (hok : ∀ a w, R (.ok a) w → Solo lim allow t (f a) Q w)
    (herr : ∀ e w, R (.error e) w → Q (.error e) w) : Solo lim allow t (p.bind f) Q w :=
  wp_seq R hp hok herr

theorem solo_handle {p : Service α} {f : Exc → Service α} {Q : Except Exc α → World → Prop}
    (R : Except Exc α → World → Prop) (hp : Solo lim allow t p R w)
    (hok : ∀ a w, R (.ok a) w → Q (.ok a) w)
    (herr : ∀ e w, R (.error e) w → Solo lim allow t (f e) Q w) :
    Solo lim allow t (p.handle f) Q w :=
  wp_catch R hp hok herr

/-- A unit of work ends as its body does, or in the exception of its close, and the session
is closed in any case. -/
theorem solo_within {body : Service α} {Q : Except Exc α → World → Prop}
    (h : Solo lim allow t body (fun r w => Q r (w.drop t) ∧ ∀ e : Exc, e.isDatabase = true →
      Q (.error e) (w.drop t)) w) :
    Solo lim allow t (Uow.within body) Q w := by
  refine wp_unit _ h (fun e w hr => ?_) (fun r w hr => ?_)
  · refine solo_op (fun ch r w' _ hd => ?_)
    cases hd with
    | fault => exact hr
    | rollback => simpa only [World.drop_drop] using hr
  · refine solo_op (fun ch r w' _ hd => ?_)
    cases hd with
    | fault he => exact hr.2 _ he
    | close => exact hr.1

end Rules

section Runs

variable [Externals] {lim : Limits} {allow : World → Move Op Choice Req Env → Prop} {t : Tid}
  {w : World} (hallow : ∀ w m, works m = true → allow w m)
include hallow

theorem runs_op {op : Op} (ch : Choice) {r : Except Exc op.Res} {w' : World}
    (hw : works (.run t op ch) = true) (he : World.exec lim t op ch w = some (r, w')) :
    (service lim).Runs allow t (perform op) w r w' :=
  .perform (hallow _ _ hw) he

/-- A unit of work whose statements work closes the session. -/
theorem runs_within {α : Type} {body : Service α} {a : α} {w' : World}
    (h : (service lim).Runs allow t body w (.ok a) w') :
    (service lim).Runs allow t (Uow.within body) w (.ok a) (w'.drop t) := by
  refine .bind (Sys.Runs.outcome h) ?_
  refine .bind (a := ()) (.ret _ _) ?_
  refine .bind (runs_op hallow .ok rfl rfl) ?_
  exact .ret _ _

theorem runs_within_error {α : Type} {body : Service α} {e : Exc} {w' : World}
    (h : (service lim).Runs allow t body w (.error e) w') :
    (service lim).Runs allow t (Uow.within body) w (.error e) (w'.drop t) := by
  have hroll : (service lim).Runs allow t Uow.rollback w' (.ok ()) (w'.drop t) :=
    Sys.Runs.handle_ok (runs_op hallow .ok rfl rfl)
  have hclose : (service lim).Runs allow t (perform .close) (w'.drop t) (.ok ()) (w'.drop t) := by
    refine runs_op hallow .ok rfl ?_
    exact congrArg (fun v => some (Except.ok (), v)) (w'.drop_drop t)
  refine .bind (Sys.Runs.outcome h) ?_
  refine .bind (a := ()) hroll ?_
  refine .bind hclose ?_
  exact .raise _ _

end Runs

end Payments
