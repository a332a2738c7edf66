import Payments.Lib.Threads

namespace Payments.Lib.Sys

variable {σ Op : Type} {Res : Op → Type} {ε α β γ Choice Req Env : Type}
variable {S : Sys σ Op Res ε α Choice Req Env} {t : Tid}

/-- What one thread does among others, oldest first: its effects in the states that the others
leave to them, and what it ends with. -/
inductive Course (S : Sys σ Op Res ε α Choice Req Env) (t : Tid) {β : Type} :
    Prog Op Res ε β → List (σ × Op × Choice) → Except ε β → Prop
  | ret (a : β) : Course S t (.ret a) [] (.ok a)
  | raise (e : ε) : Course S t (.raise e) [] (.error e)
  | call {op : Op} {k : Except ε (Res op) → Prog Op Res ε β} {ch : Choice} {r : Except ε (Res op)}
      {s s' : σ} {ms : List (σ × Op × Choice)} {x : Except ε β}
      (he : S.exec t op ch s = some (r, s')) (hk : Course S t (k r) ms x) :
      Course S t (.call op k) ((s, op, ch) :: ms) x

namespace Course

variable {p : Prog Op Res ε β} {ms : List (σ × Op × Choice)} {x : Except ε β}

theorem of_result (h : p.result? = some x) : Course S t p [] x := by
  cases p with
  | ret a => cases h; exact .ret a
  | raise e => cases h; exact .raise e
  | call op k => cases h

theorem of_except {r : Except ε β} (h : Course S t (.ofExcept r) ms x) : ms = [] ∧ x = r := by
  cases r <;> cases h <;> exact ⟨rfl, rfl⟩

theorem of_perform {op : Op} {x : Except ε (Res op)} (h : Course S t (.perform op) ms x) :
    ∃ s ch s', ms = [(s, op, ch)] ∧ S.exec t op ch s = some (x, s') := by
  cases h with
  | call he hk =>
    obtain ⟨rfl, rfl⟩ := of_except hk
    exact ⟨_, _, _, rfl, he⟩

/-- A sequence takes its second course after its first one, unless that raises. -/
theorem of_bind {f : β → Prog Op Res ε γ} {x : Except ε γ} (h : Course S t (p.bind f) ms x) :
    (∃ a ms₁ ms₂, ms = ms₁ ++ ms₂ ∧ Course S t p ms₁ (.ok a) ∧ Course S t (f a) ms₂ x) ∨
      ∃ e, Course S t p ms (.error e) ∧ x = .error e := by
  induction p generalizing ms with
  | ret a => exact .inl ⟨a, [], ms, rfl, .ret a, h⟩
  | raise e =>
    cases h
    exact .inr ⟨e, .raise e, rfl⟩
  | call op k ih =>
    cases h with
    | call he hk =>
      rcases ih _ hk with ⟨a, ms₁, ms₂, rfl, hp, hf⟩ | ⟨e, hp, rfl⟩
      · exact .inl ⟨a, _ :: ms₁, ms₂, rfl, .call he hp, hf⟩
      · exact .inr ⟨e, .call he hp, rfl⟩

/-- A program whose result is only mapped takes the same course. -/
theorem of_map {f : β → γ} {x : Except ε γ} (h : Course S t (p.bind (fun a => .ret (f a))) ms x) :
    ∃ y, Course S t p ms y ∧ x = y.map f := by
  rcases h.of_bind with ⟨a, ms₁, ms₂, rfl, hp, hr⟩ | ⟨e, hp, rfl⟩
  · cases hr
    exact ⟨.ok a, by rwa [List.append_nil], rfl⟩
  · exact ⟨.error e, hp, rfl⟩

theorem of_handle {f : ε → Prog Op Res ε β} (h : Course S t (p.handle f) ms x) :
    (∃ a, Course S t p ms (.ok a) ∧ x = .ok a) ∨
      ∃ e ms₁ ms₂, ms = ms₁ ++ ms₂ ∧ Course S t p ms₁ (.error e) ∧ Course S t (f e) ms₂ x := by
  induction p generalizing ms with
  | ret a =>
    cases h
    exact .inl ⟨a, .ret a, rfl⟩
  | raise e => exact .inr ⟨e, [], ms, rfl, .raise e, h⟩
  | call op k ih =>
    cases h with
    | call he hk =>
      rcases ih _ hk with ⟨a, hp, rfl⟩ | ⟨e, ms₁, ms₂, rfl, hp, hf⟩
      · exact .inl ⟨a, .call he hp, rfl⟩
      · exact .inr ⟨e, _ :: ms₁, ms₂, rfl, .call he hp, hf⟩

theorem of_outcome {x : Except ε (Except ε β)} (h : Course S t p.outcome ms x) :
    ∃ r, x = .ok r ∧ Course S t p ms r := by
  induction p generalizing ms with
  | ret a =>
    cases h
    exact ⟨_, rfl, .ret a⟩
  | raise e =>
    cases h
    exact ⟨_, rfl, .raise e⟩
  | call op k ih =>
    cases h with
    | call he hk =>
      obtain ⟨r, rfl, hp⟩ := ih _ hk
      exact ⟨r, rfl, .call he hp⟩

/-- The effects of a course are those that the program performs. -/
theorem of_only {P : Op → Prop} (h : Course S t p ms x) (hp : p.Only P) : ∀ m ∈ ms, P m.2.1 := by
  induction h with
  | ret a => exact fun _ hm => by cases hm
  | raise e => exact fun _ hm => by cases hm
  | call _ _ ih =>
    intro m hm
    rcases List.mem_cons.mp hm with rfl | hm
    · exact hp.1
    · exact ih (hp.2 _) m hm

/-- A course has at most so many effects of a kind as the program. -/
theorem at_most {P : Op → Prop} [DecidablePred P] {n : Nat} (h : Course S t p ms x)
    (hp : p.AtMost P n) : (ms.filter (fun m => P m.2.1)).length ≤ n := by
  induction h generalizing n with
  | ret a => exact Nat.zero_le n
  | raise e => exact Nat.zero_le n
  | @call op k ch r s s' ms x _ _ ih =>
    have hk := ih (hp.2 r)
    by_cases ho : P op
    · have hpos := hp.1 ho
      simp only [ho, ↓reduceIte] at hk
      simp only [ho, List.filter_cons, decide_true, ↓reduceIte, List.length_cons]
      omega
    · simpa [ho, List.filter_cons] using hk

/-- Where a program performs an effect of a kind at most once, any two of a course are one. -/
theorem unique {P : Op → Prop} [DecidablePred P] {m m' : σ × Op × Choice} (h : Course S t p ms x)
    (hp : p.AtMost P 1) (hm : m ∈ ms) (hm' : m' ∈ ms) (ho : P m.2.1) (ho' : P m'.2.1) : m = m' := by
  have hmem : ∀ {a}, a ∈ ms → P a.2.1 → a ∈ ms.filter (fun m => P m.2.1) := fun ha hPa =>
    List.mem_filter.mpr ⟨ha, decide_eq_true hPa⟩
  have hlen := h.at_most hp
  have ha := hmem hm ho
  have hb := hmem hm' ho'
  cases hf : ms.filter (fun m => P m.2.1) with
  | nil =>
    rw [hf] at ha
    cases ha
  | cons a as =>
    rw [hf] at ha hb hlen
    obtain rfl : as = [] := List.length_eq_zero_iff.mp (Nat.le_zero.mp (Nat.le_of_succ_le_succ hlen))
    exact (List.mem_singleton.mp ha).trans (List.mem_singleton.mp hb).symm

/-- Nothing follows a failure in a straight program. -/
theorem of_straight {e : ε} {m : σ × Op × Choice} (h : Course S t p ms x) (hp : p.Straight)
    (hm : m ∈ ms) (he : ∀ r s, S.exec t m.2.1 m.2.2 m.1 = some (r, s) → r = .error e) :
    x = .error e := by
  induction h with
  | ret a => cases hm
  | raise e => cases hm
  | @call op k ch r s s' ms x hexec hk ih =>
    cases r with
    | ok a =>
      rcases List.mem_cons.mp hm with rfl | hm
      · cases he _ _ hexec
      · exact ih (hp.2 a) hm
    | error e' =>
      rw [hp.1 e'] at hk
      cases hk
      rcases List.mem_cons.mp hm with rfl | hm
      · cases he _ _ hexec
        rfl
      · cases hm

/-- A smooth program returns where all its effects answer. -/
theorem of_smooth (h : Course S t p ms x) (hp : p.Smooth) (hok : ∀ m ∈ ms, ∀ r s,
    S.exec t m.2.1 m.2.2 m.1 = some (r, s) → ∃ a, r = .ok a) : ∃ a, x = .ok a := by
  induction h with
  | ret a => exact ⟨a, rfl⟩
  | raise e => exact hp.elim
  | call he _ ih =>
    obtain ⟨a, rfl⟩ := hok _ List.mem_cons_self _ _ he
    exact ih (hp a) (fun m hm => hok m (List.mem_cons_of_mem _ hm))

end Course

/-- The effect that a step performs for a thread, with the state that it meets. -/
def own? (t : Tid) (d : Config σ Op Res ε α × Move Op Choice Req Env) :
    Option (σ × Op × Choice) :=
  match d.2 with
  | .run u op ch => if u = t then some (d.1.shared, op, ch) else none
  | _ => none

/-- The effects of a thread in a run, oldest first. -/
def own (t : Tid) (ds : List (Config σ Op Res ε α × Move Op Choice Req Env)) :
    List (σ × Op × Choice) :=
  (ds.filterMap (own? t)).reverse

variable {ds : List (Config σ Op Res ε α × Move Op Choice Req Env)}
  {c₀ c : Config σ Op Res ε α} {m : Move Op Choice Req Env}

theorem own_other (hm : m.thread? ≠ some t) : own t ((c, m) :: ds) = own t ds := by
  cases m with
  | run u op ch =>
    have hu : u ≠ t := fun he => hm (congrArg some he)
    simp [own, own?, hu]
  | _ => rfl

theorem own_run {op : Op} {ch : Choice} :
    own t ((c, .run t op ch) :: ds) = own t ds ++ [(c.shared, op, ch)] := by
  simp [own, own?]

theorem mem_own {s : σ} {op : Op} {ch : Choice} :
    (s, op, ch) ∈ own t ds ↔ ∃ d ∈ ds, d.1.shared = s ∧ d.2 = .run t op ch := by
  simp only [own, List.mem_reverse, List.mem_filterMap]
  constructor
  · rintro ⟨⟨c, m⟩, hd, he⟩
    cases m with
    | run u op' ch' =>
      simp only [own?, Option.ite_none_right_eq_some] at he
      obtain ⟨rfl, he⟩ := he
      cases he
      exact ⟨_, hd, rfl, rfl⟩
    | _ => cases he
  · rintro ⟨⟨c, m⟩, hd, rfl, he⟩
    subst he
    exact ⟨_, hd, if_pos rfl⟩

/-- What a thread does in a run is a course of its program: as long as it is not at its end, a
course of the rest of the program completes it, and nothing is added to it behind its end. -/
theorem Path.courses {p : Prog Op Res ε α} (h : S.Path c₀ ds c) (hlt : t < c₀.next)
    (hp : c₀.threads t = some p) : t < c.next ∧
    (∀ q, c.threads t = some q → ∀ ms x, Course S t q ms x → Course S t p (own t ds ++ ms) x) ∧
    ∀ d ∈ ds, d.2 = .exit t → ∀ q x, d.1.threads t = some q → q.result? = some x →
      c.threads t = none ∧ Course S t p (own t ds) x := by
  induction h with
  | init =>
    refine ⟨hlt, fun q hq ms x hc => ?_, fun _ hd => by cases hd⟩
    cases hp.symm.trans hq
    exact hc
  | @step ds c c' m hpath hs ih =>
    obtain ⟨hlt, hrun, hend⟩ := ih
    have hnext : t < c'.next := by
      cases hs <;> first | exact hlt | exact Nat.lt_succ_of_lt hlt
    refine ⟨hnext, ?_⟩
    by_cases hm : m.thread? = some t
    swap
    · rw [hs.other hm, own_other hm]
      refine ⟨hrun, fun d hd he => ?_⟩
      rcases List.mem_cons.mp hd with rfl | hd
      · exact absurd (by rw [show m = .exit t from he]; rfl) hm
      · exact hend d hd he
    -- the thread was not at its end before a step of its own
    have hold : ∀ {q}, c.threads t = some q → ∀ d ∈ ds, d.2 = .exit t → ∀ q x,
        d.1.threads t = some q → q.result? = some x → False := by
      intro q hq d hd he q' x hq' hx
      cases hq.symm.trans (hend d hd he q' x hq' hx).1
    cases hs with
    | @run _ op k ch r s hu he =>
      cases hm
      refine ⟨fun q hq ms x hc => ?_, fun d hd he' q x hq hx => ?_⟩
      · cases (Function.update_self _ _ _).symm.trans hq
        rw [own_run, List.append_assoc]
        exact hrun _ hu _ x (.call he hc)
      · rcases List.mem_cons.mp hd with rfl | hd
        · cases he'
        · exact (hold hu d hd he' q x hq hx).elim
    | @exit _ q r hu hr =>
      cases hm
      refine ⟨fun q hq => ?_, fun d hd he q' x hq hx => ?_⟩
      · cases (Function.update_self _ _ _).symm.trans hq
      · rcases List.mem_cons.mp hd with rfl | hd
        · cases hu.symm.trans hq
          have hc := hrun _ hu [] x (.of_result hx)
          rw [List.append_nil] at hc
          exact ⟨Function.update_self _ _ _, hc⟩
        · exact (hold hu d hd he q' x hq hx).elim
    | kill hu =>
      cases hm
      refine ⟨fun q hq => ?_, fun d hd he q' x hq hx => ?_⟩
      · cases (Function.update_self _ _ _).symm.trans hq
      · rcases List.mem_cons.mp hd with rfl | hd
        · cases he
        · exact (hold hu d hd he q' x hq hx).elim
    | start _ =>
      cases hm
      exact absurd hlt (Nat.lt_irrefl _)
    | env _ => cases hm

/-- A thread that ends has taken a course of its program. -/
theorem Path.course {p q : Prog Op Res ε α} {x : Except ε α}
    {d : Config σ Op Res ε α × Move Op Choice Req Env} (h : S.Path c₀ ds c) (hlt : t < c₀.next)
    (hp : c₀.threads t = some p) (hd : d ∈ ds) (he : d.2 = .exit t) (hq : d.1.threads t = some q)
    (hx : q.result? = some x) : Course S t p (own t ds) x :=
  ((h.courses hlt hp).2.2 d hd he q x hq hx).2

/-- A step before a run. -/
theorem Path.cons {c₁ : Config σ Op Res ε α} (hs : S.Step c₀ m c₁) (h : S.Path c₁ ds c) :
    S.Path c₀ (ds ++ [(c₀, m)]) c := by
  induction h with
  | init => exact .step .init hs
  | step _ hs ih => exact .step ih hs

variable (S)

/-- The run that a schedule makes, newest first, and where it comes to. -/
def record : List (Action Choice Req Env) → Config σ Op Res ε α →
    Option (List (Config σ Op Res ε α × Move Op Choice Req Env) × Config σ Op Res ε α)
  | [], c => some ([], c)
  | a :: as, c =>
    (S.next? c a).bind (fun x => (record as x.2).map (fun y => (y.1 ++ [(c, x.1)], y.2)))

variable {S}

theorem step_of_start {req : Req} (h : S.next? c₀ (.start req) = some (m, c)) :
    S.Step c₀ (.start c₀.next req) c := by
  obtain ⟨⟨p, s⟩, hp, he⟩ := Option.map_eq_some_iff.mp h
  cases he
  exact .start hp

theorem step_of_exit (h : S.next? c₀ (.exit t) = some (m, c)) : S.Step c₀ (.exit t) c := by
  obtain ⟨p, hp, he⟩ := Option.bind_eq_some_iff.mp h
  obtain ⟨r, hr, he⟩ := Option.map_eq_some_iff.mp he
  cases he
  exact .exit hp hr

theorem path_of_record {as : List (Action Choice Req Env)}
    {y : List (Config σ Op Res ε α × Move Op Choice Req Env) × Config σ Op Res ε α}
    (h : S.record as c = some y) : S.Path c y.1 y.2 := by
  induction as generalizing c y with
  | nil =>
    cases h
    exact .init
  | cons a as ih =>
    obtain ⟨x, hx, hy⟩ := Option.bind_eq_some_iff.mp h
    obtain ⟨z, hz, rfl⟩ := Option.map_eq_some_iff.mp hy
    exact (ih hz).cons (step_of_next hx)

end Payments.Lib.Sys
