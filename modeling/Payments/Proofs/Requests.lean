import Payments.Lib.Courses
import Payments.Proofs.Queries

namespace Payments

open Lib

section

variable [Externals] {lim : Limits} {t : Tid} {c c₁ c' : Config World Op Op.Res Exc Reply}
  {ds : List (Config World Op Op.Res Exc Reply × Move Op Choice Req Env)}

/-- Whoever is in the trace has started. -/
theorem trace_numbered (h : Reachable lim c) : ∀ d ∈ c.shared.trace, d.1 < c.next := by
  induction h with
  | init => exact fun _ hd => by cases hd
  | @step c c' m hr _ hs ih =>
    have hrunning := (reachable_holds hr).running
    have hnext : c.next ≤ c'.next := by
      cases hs <;> first | exact Nat.le_refl _ | exact Nat.le_succ _
    intro d hd
    rcases step_trace hs with ht | ⟨u, o, hm, ht⟩ <;> rw [ht] at hd
    · exact Nat.lt_of_lt_of_le (ih d hd) hnext
    · rcases List.mem_cons.mp hd with rfl | hd
      · cases hs with
        | run hu _ | exit hu _ | kill hu =>
          cases hm
          exact (hrunning _ _ hu).1
        | start =>
          cases hm
          exact Nat.lt_succ_self _
        | env => cases hm
      · exact Nat.lt_of_lt_of_le (ih d hd) hnext

/-- A step tells nothing of the other threads. -/
theorem told_other {m : Move Op Choice Req Env} {o : Obs} (h : (service lim).Step c m c')
    (hm : m.thread? ≠ some t) (ho : (t, o) ∈ c'.shared.trace) : (t, o) ∈ c.shared.trace := by
  rcases step_trace h with ht | ⟨u, o', hu, ht⟩ <;> rw [ht] at ho
  · exact ho
  · rcases List.mem_cons.mp ho with he | ho
    · obtain ⟨rfl, rfl⟩ := Prod.mk.inj he
      exact absurd hu hm
    · exact ho

/-- A commit that a thread is told of is one of its effects, and it took effect. -/
theorem committed_own {ws : List Write} (h : (service lim).Path c₁ ds c')
    (hn : (t, .committed ws) ∉ c₁.shared.trace) (hc : (t, .committed ws) ∈ c'.shared.trace) :
    ∃ w ch, (w, .commit, ch) ∈ Sys.own t ds ∧ ∀ e, ch ≠ .fault e := by
  induction h with
  | init => exact absurd hc hn
  | @step ds c c' m hpath hs ih =>
    have hold : (t, .committed ws) ∈ c.shared.trace →
        ∃ w ch, (w, .commit, ch) ∈ Sys.own t ((c, m) :: ds) ∧ ∀ e, ch ≠ .fault e := by
      intro hm
      obtain ⟨w, ch, hown, hne⟩ := ih hm
      obtain ⟨d, hd, hw, he⟩ := Sys.mem_own.mp hown
      exact ⟨w, ch, Sys.mem_own.mpr ⟨d, List.mem_cons_of_mem _ hd, hw, he⟩, hne⟩
    have hother : ∀ {u o}, (t, .committed ws) ∈ (u, o) :: c.shared.trace → o ≠ .committed ws →
        (t, .committed ws) ∈ c.shared.trace := by
      intro u o hm hne
      rcases List.mem_cons.mp hm with he | hm
      · exact absurd (Prod.mk.inj he).2.symm hne
      · exact hm
    cases hs with
    | @run u op k ch r w hu he =>
      have hd := World.exec_does he
      rcases World.does_trace hd with ht | ⟨o, ho, ht⟩
      · exact hold (ht ▸ hc)
      · have hc : (t, .committed ws) ∈ (u, o) :: c.shared.trace := ht ▸ hc
        rcases List.mem_cons.mp hc with heq | hm
        · cases heq
          refine ⟨c.shared, ch, Sys.mem_own.mpr ⟨_, List.mem_cons_self, rfl, ?_⟩, ?_⟩
          · cases op <;> first | exact ho.elim | rfl
          · rintro e rfl
            cases op <;> first | exact ho.elim | skip
            cases hd
            exact absurd ht (by simp [World.failed])
        · exact hold hm
    | exit | kill => exact hold (hother hc (by simp))
    | @start req p w he =>
      cases req with
      | create command =>
        cases he
        exact hold (hother hc (by simp))
      | get id =>
        cases he
        exact hold hc
      | poll =>
        cases he
        exact hold (hother hc (by simp))
      | deliver i =>
        obtain ⟨⟨q, m⟩, _, hm⟩ := Option.bind_eq_some_iff.mp he
        obtain ⟨_, _, he⟩ := Option.map_eq_some_iff.mp hm
        cases he
        exact hold (hother hc (by simp))
    | env he =>
      obtain ⟨_, _, hw⟩ := World.environment_same he
      exact hold (by rwa [hw] at hc)

/-- A thread that has ended has taken a course of its program. -/
theorem ended_course {p : Service Reply} {x : Except Exc Reply} (h : (service lim).Path c₁ ds c')
    (hlt : t < c₁.next) (hp : c₁.threads t = some p) (hs : .ended x ∉ c₁.shared.story t)
    (hx : .ended x ∈ c'.shared.story t) : Sys.Course (service lim) t p (Sys.own t ds) x := by
  obtain ⟨d, hd, he, q, hq, hr⟩ : ∃ d ∈ ds, d.2 = .exit t ∧ ∃ q, d.1.threads t = some q ∧
      q.result? = some x := by
    clear hlt hp
    induction h with
    | init => exact absurd hx hs
    | @step ds c c' m _ hst ih =>
      by_cases hold : .ended x ∈ c.shared.story t
      · obtain ⟨d, hd, h⟩ := ih hold
        exact ⟨d, List.mem_cons_of_mem _ hd, h⟩
      rcases step_story hst with hsame | ⟨u, o, hm, htold, hother⟩
      · exact absurd (hsame t ▸ hx) hold
      by_cases hu : u = t
      swap
      · exact absurd (hother t hu ▸ hx) hold
      subst hu
      rw [htold] at hx
      rcases List.mem_cons.mp hx with rfl | hx
      swap
      · exact absurd hx hold
      obtain rfl := World.told_ended hm
      cases hst with
      | @exit _ q r hq hr =>
        have hend : (c.shared.finish u r).story u = .ended r :: c.shared.story u :=
          World.story_told rfl rfl
        cases (List.cons.inj (hend.symm.trans htold)).1
        exact ⟨_, List.mem_cons_self, rfl, q, hq, hr⟩
  exact h.course hlt hp hd he hq hr

/-- How a request starts: the thread has done nothing yet. -/
theorem started_fresh {req : Req} (h : Reachable lim c) (hs : (service lim).Step c (.start t req) c₁)
    (hreq : ∀ i, req ≠ .deliver i) : ∃ p, (∃ w, (service lim).start t req c.shared = some (p, w)) ∧
    t < c₁.next ∧ c₁.threads t = some p ∧ c₁.shared.story t = [] ∧ c₁.shared.pend t = [] ∧
    ∀ ws, (t, .committed ws) ∉ c₁.shared.trace := by
  obtain ⟨rfl, hnext, p, he, ht⟩ := hs.started
  have hstory := story_fresh h _ (Nat.le_refl _)
  have hpend := (reachable_holds h).fresh _ (Nat.le_refl _)
  have htrace : ∀ ws, (c.next, .committed ws) ∉ c.shared.trace := fun ws hm =>
    absurd (trace_numbered h _ hm) (Nat.lt_irrefl _)
  have hnoted : ∀ {o : Obs}, o.aside = true → (∀ ws, o ≠ .committed ws) →
      (c.shared.note c.next o).story c.next = [] ∧ (c.shared.note c.next o).pend c.next = [] ∧
        ∀ ws, (c.next, .committed ws) ∉ (c.shared.note c.next o).trace := by
    intro o ho hne
    refine ⟨(World.story_aside rfl ho).trans hstory, hpend, fun ws hm => ?_⟩
    rcases List.mem_cons.mp hm with he | hm
    · exact hne ws (Prod.mk.inj he).2.symm
    · exact htrace ws hm
  refine ⟨p, ⟨_, he⟩, hnext ▸ Nat.lt_succ_self _, ht, ?_⟩
  cases req with
  | create command =>
    obtain ⟨_, hw⟩ := Prod.mk.inj (Option.some.inj he)
    rw [← hw]
    exact hnoted rfl (by simp)
  | get id =>
    obtain ⟨_, hw⟩ := Prod.mk.inj (Option.some.inj he)
    rw [← hw]
    exact ⟨hstory, hpend, htrace⟩
  | poll =>
    obtain ⟨_, hw⟩ := Prod.mk.inj (Option.some.inj he)
    rw [← hw]
    exact hnoted rfl (by simp)
  | deliver i => exact absurd rfl (hreq i)

/-- How a delivery starts: the thread has been delivered its message and nothing more. -/
theorem started_delivery {i : Nat} {q : RabbitQueue} {m : Message} (h : Reachable lim c)
    (hr : c.shared.ready[i]? = some (q, m)) (hs : (service lim).Step c (.start t (.deliver i)) c₁) :
    ∃ p, subscriber lim q m = some p ∧ c₁.shared = c.shared.deliver t i q m ∧ t < c₁.next ∧
      c₁.threads t = some (p.bind (fun _ => .ret .done)) ∧
      c₁.shared.story t = [.delivered q m] := by
  obtain ⟨rfl, hnext, p, he, ht⟩ := hs.started
  obtain ⟨_, hd, hm⟩ := Option.bind_eq_some_iff.mp he
  cases hr.symm.trans hd
  obtain ⟨p, hp, he⟩ := Option.map_eq_some_iff.mp hm
  obtain ⟨rfl, hw⟩ := Prod.mk.inj he
  refine ⟨p, hp, hw.symm, hnext ▸ Nat.lt_succ_self _, ht, ?_⟩
  rw [← hw, ← story_fresh h c.next (Nat.le_refl _)]
  exact World.story_told rfl rfl

/-- A thread that writes nothing has no changes in its session. -/
theorem pend_nothing {allow : World → Move Op Choice Req Env → Prop}
    (h : (service lim).Reach allow c₁ c') (hlt : t < c₁.next)
    (hp : ∀ p, c₁.threads t = some p → p.Only (fun op => ∀ x, ¬ World.Writes op x))
    (h₁ : c₁.shared.pend t = []) : c'.shared.pend t = [] := by
  induction h with
  | init => exact h₁
  | @step c c' m hr ha hs ih =>
    have hdrop : ∀ u, (c.shared.drop u).pend t = [] := by
      intro u
      by_cases hu : t = u
      · subst hu
        simp
      · simpa [Function.update_of_ne hu] using ih
    cases hs with
    | run hu he =>
      apply List.eq_nil_iff_forall_not_mem.mpr
      intro x hx
      rcases World.does_pend (World.exec_does he) hx with hold | ⟨rfl, hnew⟩
      · rw [ih] at hold
        cases hold
      · exact ((hr.only hlt hp).2 _ hu).1 x hnew
    | exit | kill => exact hdrop _
    | start he =>
      obtain ⟨_, _, _, hw⟩ := World.start_same he
      rw [show (Config.put _ _ _ _).shared = _ from hw]
      exact ih
    | env he =>
      obtain ⟨_, _, hw⟩ := World.environment_same he
      rw [hw]
      exact ih

/-- What the end of a session does after its body: a body that raised is rolled back. -/
def Undone {α : Type} : Except Exc α → List (World × Op × Choice) → Prop
  | .ok _, ms => ms = []
  | .error _, ms => ∃ w ch, ms = [(w, .rollback, ch)]

omit [Externals] in
theorem Undone.rollbacks {α : Type} {r : Except Exc α} {ms : List (World × Op × Choice)}
    (h : Undone r ms) : ∀ m ∈ ms, m.2.1 = .rollback := by
  intro m hm
  cases r with
  | ok a =>
    rw [show ms = [] from h] at hm
    cases hm
  | error e =>
    obtain ⟨_, _, rfl⟩ := h
    rw [List.mem_singleton.mp hm]

/-- A unit of work ends as its body does, unless its session cannot be closed. -/
theorem within_course {α : Type} {body : Service α} {ms : List (World × Op × Choice)}
    {x : Except Exc α} (h : Sys.Course (service lim) t (Uow.within body) ms x) :
    ∃ r ms₁ ms₂ w ch, ms = ms₁ ++ (ms₂ ++ [(w, .close, ch)]) ∧
      Sys.Course (service lim) t body ms₁ r ∧ Undone r ms₂ ∧
      (ch = .ok ∧ x = r ∨ ∃ e, ch = .fault e ∧ e.isDatabase = true ∧ x = .error e) := by
  rcases h.of_bind with ⟨r, ms₁, ms', rfl, hbody, h⟩ | ⟨e, h, _⟩
  swap
  · obtain ⟨_, he, _⟩ := h.of_outcome
    cases he
  obtain ⟨r', he, hbody⟩ := hbody.of_outcome
  cases he
  refine ⟨r, ms₁, ?_⟩
  have hundo : ∀ {ms : List (World × Op × Choice)} {y : Except Exc Unit},
      Sys.Course (service lim) t (Uow.rollbackOn r) ms y → y = .ok () ∧ Undone r ms := by
    intro ms y h
    cases r with
    | ok a =>
      cases h
      exact ⟨rfl, rfl⟩
    | error e =>
      rcases h.of_handle with ⟨a, hr, rfl⟩ | ⟨e, ms₁, ms₂, rfl, hr, hret⟩
      · obtain ⟨w, ch, _, rfl, _⟩ := hr.of_perform
        exact ⟨rfl, w, ch, rfl⟩
      · obtain ⟨w, ch, _, rfl, _⟩ := hr.of_perform
        cases hret
        exact ⟨rfl, w, ch, rfl⟩
  rcases h.of_bind with ⟨u, ms₂, ms₃, rfl, hr, h⟩ | ⟨e, hr, _⟩
  swap
  · cases (hundo hr).1
  obtain ⟨_, hu⟩ := hundo hr
  rcases h.of_bind with ⟨v, ms₄, ms₅, rfl, hc, h⟩ | ⟨e, hc, rfl⟩
  · obtain ⟨rfl, rfl⟩ := h.of_except
    obtain ⟨w, ch, _, rfl, he⟩ := hc.of_perform
    cases World.exec_does he
    exact ⟨ms₂, w, .ok, by simp, hbody, hu, .inl ⟨rfl, rfl⟩⟩
  · obtain ⟨w, ch, _, rfl, he⟩ := hc.of_perform
    cases World.exec_does he with
    | fault hf => exact ⟨ms₂, w, .fault e, rfl, hbody, hu, .inr ⟨e, rfl, hf, rfl⟩⟩

end

end Payments
