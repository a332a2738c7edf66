import Mathlib.Logic.Function.Basic
import Payments.Lib.Program

namespace Payments.Lib

abbrev Tid := Nat

/-- What the threads of a service share and how each effect, exit, start, crash and
move of the environment changes it. `exec` answers `none` where the effect must wait. -/
structure Sys (σ Op : Type) (Res : Op → Type) (ε α Choice Req Env : Type) where
  exec : Tid → (op : Op) → Choice → σ → Option (Except ε (Res op) × σ)
  exit : Tid → Except ε α → σ → σ
  start : Tid → Req → σ → Option (Prog Op Res ε α × σ)
  kill : Tid → σ → σ
  env : Env → σ → Option σ

/-- The label of one atomic step of a service. -/
inductive Move (Op Choice Req Env : Type) where
  | run (t : Tid) (op : Op) (ch : Choice)
  | exit (t : Tid)
  | start (t : Tid) (req : Req)
  | kill (t : Tid)
  | env (e : Env)

/-- The thread whose step it is. -/
def Move.thread? {Op Choice Req Env : Type} : Move Op Choice Req Env → Option Tid
  | .run t _ _ | .exit t | .start t _ | .kill t => some t
  | .env _ => none

/-- What a schedule may ask for in any configuration. -/
inductive Action (Choice Req Env : Type) where
  | run (t : Tid) (ch : Choice)
  | exit (t : Tid)
  | start (req : Req)
  | kill (t : Tid)
  | env (e : Env)

structure Config (σ Op : Type) (Res : Op → Type) (ε α : Type) where
  shared : σ
  threads : Tid → Option (Prog Op Res ε α)
  next : Tid

variable {σ Op : Type} {Res : Op → Type} {ε α Choice Req Env : Type}

def Config.initial (s : σ) : Config σ Op Res ε α := ⟨s, fun _ => none, 0⟩

/-- Thread `t` goes on with `p` over the shared state `s`. -/
def Config.put (c : Config σ Op Res ε α) (t : Tid) (p : Option (Prog Op Res ε α)) (s : σ) :
    Config σ Op Res ε α :=
  { c with shared := s, threads := Function.update c.threads t p }

namespace Sys

variable (S : Sys σ Op Res ε α Choice Req Env)

/-- The atomic steps of a service: one effect of one thread, the end of a thread,
a new thread, a crash, or a move of the environment. -/
inductive Step : Config σ Op Res ε α → Move Op Choice Req Env → Config σ Op Res ε α → Prop
  | run {c : Config σ Op Res ε α} {t : Tid} {op : Op}
      {k : Except ε (Res op) → Prog Op Res ε α} {ch : Choice} {r : Except ε (Res op)} {s : σ}
      (ht : c.threads t = some (.call op k)) (he : S.exec t op ch c.shared = some (r, s)) :
      Step c (.run t op ch) (c.put t (some (k r)) s)
  | exit {c : Config σ Op Res ε α} {t : Tid} {p : Prog Op Res ε α} {r : Except ε α}
      (ht : c.threads t = some p) (hr : p.result? = some r) :
      Step c (.exit t) (c.put t none (S.exit t r c.shared))
  | start {c : Config σ Op Res ε α} {req : Req} {p : Prog Op Res ε α} {s : σ}
      (he : S.start c.next req c.shared = some (p, s)) :
      Step c (.start c.next req) { c.put c.next (some p) s with next := c.next + 1 }
  | kill {c : Config σ Op Res ε α} {t : Tid} {p : Prog Op Res ε α}
      (ht : c.threads t = some p) :
      Step c (.kill t) (c.put t none (S.kill t c.shared))
  | env {c : Config σ Op Res ε α} {e : Env} {s : σ} (he : S.env e c.shared = some s) :
      Step c (.env e) { c with shared := s }

/-- Configurations that a run from `c₀` reaches when each step meets `allow` in the
shared state before it. -/
inductive Reach (allow : σ → Move Op Choice Req Env → Prop) (c₀ : Config σ Op Res ε α) :
    Config σ Op Res ε α → Prop
  | init : Reach allow c₀ c₀
  | step {c c' : Config σ Op Res ε α} {m : Move Op Choice Req Env}
      (h : Reach allow c₀ c) (ha : allow c.shared m) (hs : S.Step c m c') : Reach allow c₀ c'

variable {S} {allow allow' : σ → Move Op Choice Req Env → Prop} {c₀ c c' : Config σ Op Res ε α}

theorem Reach.trans (h : S.Reach allow c₀ c) (h' : S.Reach allow c c') : S.Reach allow c₀ c' := by
  induction h' with
  | init => exact h
  | step _ ha hs ih => exact .step ih ha hs

theorem Reach.mono (h : S.Reach allow c₀ c) (hm : ∀ s m, allow s m → allow' s m) :
    S.Reach allow' c₀ c := by
  induction h with
  | init => exact .init
  | step _ ha hs ih => exact .step ih (hm _ _ ha) hs

/-- What a run makes true becomes so in one of its steps. -/
theorem Reach.onset {P : Config σ Op Res ε α → Prop} (h : S.Reach allow c₀ c) (h₀ : ¬ P c₀)
    (hP : P c) : ∃ c₁ m c₂, S.Reach allow c₀ c₁ ∧ S.Step c₁ m c₂ ∧ ¬ P c₁ ∧ P c₂ ∧
      S.Reach allow c₂ c := by
  induction h with
  | init => exact absurd hP h₀
  | @step c c' m hr ha hs ih =>
    by_cases hc : P c
    · obtain ⟨c₁, m₁, c₂, h₁, hs₁, hn, hp, h₂⟩ := ih hc
      exact ⟨c₁, m₁, c₂, h₁, hs₁, hn, hp, .step h₂ ha hs⟩
    · exact ⟨c, m, c', hr, hs, hc, hP, .init⟩

/-- The threads that start before a configuration have numbers below its next one. -/
theorem Reach.numbered {n : Tid} (h : S.Reach allow c₀ c) (hn : c.next ≤ n) :
    S.Reach (fun s m => allow s m ∧ ∀ t req, m = .start t req → t < n) c₀ c := by
  induction h with
  | init => exact .init
  | @step c c' m hr ha hs ih =>
    have hle : c.next ≤ n := by
      cases hs <;> first | exact hn | exact Nat.le_of_succ_le hn
    refine .step (ih hle) ⟨ha, ?_⟩ hs
    rintro t req rfl
    cases hs
    exact hn

/-- A run with its steps, newest first: the configuration before each and its label. -/
inductive Path (S : Sys σ Op Res ε α Choice Req Env) (c₀ : Config σ Op Res ε α) :
    List (Config σ Op Res ε α × Move Op Choice Req Env) → Config σ Op Res ε α → Prop
  | init : Path S c₀ [] c₀
  | step {ds : List (Config σ Op Res ε α × Move Op Choice Req Env)} {c c' : Config σ Op Res ε α}
      {m : Move Op Choice Req Env} (h : Path S c₀ ds c) (hs : S.Step c m c') :
      Path S c₀ ((c, m) :: ds) c'

/-- A run reaches its end under what each of its steps meets. -/
theorem Path.reach {ds : List (Config σ Op Res ε α × Move Op Choice Req Env)}
    (h : S.Path c₀ ds c) (ha : ∀ d ∈ ds, allow d.1.shared d.2) : S.Reach allow c₀ c := by
  induction h with
  | init => exact .init
  | step _ hs ih =>
    exact .step (ih (fun d hd => ha d (List.mem_cons_of_mem _ hd))) (ha _ List.mem_cons_self) hs

/-- A run around one of its steps. -/
theorem Path.split {ds : List (Config σ Op Res ε α × Move Op Choice Req Env)}
    {d : Config σ Op Res ε α × Move Op Choice Req Env} (h : S.Path c₀ ds c) (hd : d ∈ ds) :
    ∃ ds₁ ds₂ c₁, ds = ds₁ ++ d :: ds₂ ∧ S.Path c₀ ds₂ d.1 ∧ S.Step d.1 d.2 c₁ ∧
      S.Path c₁ ds₁ c := by
  induction h with
  | init => cases hd
  | @step ds c c' m h hs ih =>
    rcases List.mem_cons.mp hd with rfl | hd
    · exact ⟨[], ds, c', rfl, h, hs, .init⟩
    · obtain ⟨ds₁, ds₂, c₁, rfl, h₁, h₂, h₃⟩ := ih hd
      exact ⟨(c, m) :: ds₁, ds₂, c₁, rfl, h₁, h₂, h₃.step hs⟩

theorem Path.trans {ds ds' : List (Config σ Op Res ε α × Move Op Choice Req Env)}
    (h : S.Path c₀ ds c) (h' : S.Path c ds' c') : S.Path c₀ (ds' ++ ds) c' := by
  induction h' with
  | init => exact h
  | step _ hs ih => exact ih.step hs

/-- The configurations that a run goes through are reached before its end. -/
theorem Path.reach_mem {ds : List (Config σ Op Res ε α × Move Op Choice Req Env)}
    {d : Config σ Op Res ε α × Move Op Choice Req Env} (h : S.Path c₀ ds c)
    (ha : ∀ d ∈ ds, allow d.1.shared d.2) (hd : d ∈ ds) : S.Reach allow c₀ d.1 := by
  induction h with
  | init => cases hd
  | step h _ ih =>
    have hold := fun d hm => ha d (List.mem_cons_of_mem _ hm)
    rcases List.mem_cons.mp hd with rfl | hd
    · exact h.reach hold
    · exact ih hold hd

theorem Reach.path (h : S.Reach allow c₀ c) : ∃ ds, S.Path c₀ ds c ∧
    ∀ d ∈ ds, allow d.1.shared d.2 := by
  induction h with
  | init => exact ⟨[], .init, fun d hd => by cases hd⟩
  | @step c c' m _ ha hs ih =>
    obtain ⟨ds, hp, hd⟩ := ih
    refine ⟨(c, m) :: ds, .step hp hs, fun d hm => ?_⟩
    rcases List.mem_cons.mp hm with rfl | hm
    · exact ha
    · exact hd d hm

/-- The steps of the other threads leave a thread where it is in its program. -/
theorem Step.other {m : Move Op Choice Req Env} {t : Tid} (h : S.Step c m c')
    (hm : m.thread? ≠ some t) : c'.threads t = c.threads t := by
  cases h <;> first
    | rfl
    | exact Function.update_of_ne (fun he => hm (congrArg some he.symm)) _ _

/-- A thread starts under the next number with the program of its request. -/
theorem Step.started {t : Tid} {req : Req} (h : S.Step c (.start t req) c') : t = c.next ∧
    c'.next = c.next + 1 ∧ ∃ p, S.start t req c.shared = some (p, c'.shared) ∧
      c'.threads t = some p := by
  cases h with
  | start he => exact ⟨rfl, rfl, _, he, Function.update_self _ _ _⟩

/-- A thread that only performs some effects goes on to do so. -/
theorem Reach.only {P : Op → Prop} {t : Tid} (h : S.Reach allow c₀ c) (ht : t < c₀.next)
    (hp : ∀ p, c₀.threads t = some p → p.Only P) :
    t < c.next ∧ ∀ p, c.threads t = some p → p.Only P := by
  induction h with
  | init => exact ⟨ht, hp⟩
  | @step c c' m _ _ hs ih =>
    obtain ⟨hlt, hp⟩ := ih
    have hnext : t < c'.next := by
      cases hs <;> first | exact hlt | exact Nat.lt_succ_of_lt hlt
    refine ⟨hnext, fun p he => ?_⟩
    by_cases hm : m.thread? = some t
    · cases hs with
      | run hu _ =>
        cases hm
        cases (Function.update_self _ _ _).symm.trans he
        exact (hp _ hu).2 _
      | exit hu _ | kill hu =>
        cases hm
        cases (Function.update_self _ _ _).symm.trans he
      | start _ =>
        cases hm
        exact absurd hlt (Nat.lt_irrefl _)
      | env _ => cases hm
    · exact hp p (hs.other hm ▸ he)

/-- A thread whose effects never wait comes to the end of its program by its own steps. -/
theorem finishes {P : Op → Prop} {t : Tid} (hP : ∀ op, P op → ∀ s, ∃ ch r s',
    allow s (.run t op ch) ∧ S.exec t op ch s = some (r, s')) {p : Prog Op Res ε α}
    (hp : p.Only P) (ht : c.threads t = some p) :
    ∃ c' q r, S.Reach allow c c' ∧ c'.threads t = some q ∧ q.result? = some r := by
  induction p generalizing c with
  | ret a => exact ⟨c, _, _, .init, ht, rfl⟩
  | raise e => exact ⟨c, _, _, .init, ht, rfl⟩
  | call op k ih =>
    obtain ⟨ch, r, s, ha, he⟩ := hP op hp.1 c.shared
    obtain ⟨c', q, r', hr, hq⟩ := @ih r (c.put t (some (k r)) s) (hp.2 r)
      (Function.update_self _ _ _)
    exact ⟨c', q, r', (Reach.init.step ha (.run ht he)).trans hr, hq⟩

variable (S)

/-- One action of a schedule, with the label of the step it takes. -/
def next? (c : Config σ Op Res ε α) :
    Action Choice Req Env → Option (Move Op Choice Req Env × Config σ Op Res ε α)
  | .run t ch =>
    match c.threads t with
    | some (.call op k) => (S.exec t op ch c.shared).map (fun (r, s) =>
        (.run t op ch, c.put t (some (k r)) s))
    | _ => none
  | .exit t =>
    (c.threads t).bind (fun p => p.result?.map (fun r =>
      (.exit t, c.put t none (S.exit t r c.shared))))
  | .start req => (S.start c.next req c.shared).map (fun (p, s) =>
      (.start c.next req, { c.put c.next (some p) s with next := c.next + 1 }))
  | .kill t => (c.threads t).map (fun _ => (.kill t, c.put t none (S.kill t c.shared)))
  | .env e => (S.env e c.shared).map (fun s => (.env e, { c with shared := s }))

variable {S}

theorem step_of_next {a : Action Choice Req Env} {m : Move Op Choice Req Env}
    (h : S.next? c a = some (m, c')) : S.Step c m c' := by
  cases a with
  | run t ch =>
    simp only [next?] at h
    split at h
    · rename_i op k ht
      obtain ⟨⟨r, s⟩, he, hp⟩ := Option.map_eq_some_iff.mp h
      cases hp
      exact .run ht he
    · cases h
  | exit t =>
    simp only [next?] at h
    obtain ⟨p, ht, hp⟩ := Option.bind_eq_some_iff.mp h
    obtain ⟨r, hr, he⟩ := Option.map_eq_some_iff.mp hp
    cases he
    exact .exit ht hr
  | start req =>
    simp only [next?] at h
    obtain ⟨⟨p, s⟩, he, hp⟩ := Option.map_eq_some_iff.mp h
    cases hp
    exact .start he
  | kill t =>
    simp only [next?] at h
    obtain ⟨p, ht, hp⟩ := Option.map_eq_some_iff.mp h
    cases hp
    exact .kill ht
  | env e =>
    simp only [next?] at h
    obtain ⟨s, he, hp⟩ := Option.map_eq_some_iff.mp h
    cases hp
    exact .env he

variable (S)

/-- Run a schedule, asking `ok` of every step; `none` if an action is not possible or
not allowed. -/
def play (ok : σ → Move Op Choice Req Env → Bool) :
    List (Action Choice Req Env) → Config σ Op Res ε α → Option (Config σ Op Res ε α)
  | [], c => some c
  | a :: as, c =>
    match S.next? c a with
    | some (m, c') => if ok c.shared m then play ok as c' else none
    | none => none

variable {S}

theorem reach_of_play {ok : σ → Move Op Choice Req Env → Bool}
    (hok : ∀ s m, ok s m = true → allow s m) {as : List (Action Choice Req Env)}
    (h : S.play ok as c = some c') : S.Reach allow c c' := by
  induction as generalizing c with
  | nil => cases h; exact .init
  | cons a as ih =>
    unfold play at h
    split at h
    · rename_i m d hn
      split at h
      · rename_i ho
        exact (Reach.init.step (hok _ _ ho) (step_of_next hn)).trans (ih h)
      · cases h
    · cases h

theorem path_of_play {ok : σ → Move Op Choice Req Env → Bool}
    {as : List (Action Choice Req Env)} (h : S.play ok as c = some c') :
    ∃ ds, S.Path c ds c' ∧ ∀ d ∈ ds, ok d.1.shared d.2 = true :=
  (@reach_of_play _ _ _ _ _ _ _ _ S (fun s m => ok s m = true) _ _ ok (fun _ _ h => h) _ h).path

/-- The outcomes of a program that runs alone, to its end, with each effect allowed. -/
inductive Runs (S : Sys σ Op Res ε α Choice Req Env) (allow : σ → Move Op Choice Req Env → Prop)
    (t : Tid) {β : Type} : Prog Op Res ε β → σ → Except ε β → σ → Prop
  | ret (a : β) (s : σ) : Runs S allow t (.ret a) s (.ok a) s
  | raise (e : ε) (s : σ) : Runs S allow t (.raise e) s (.error e) s
  | call {op : Op} {k : Except ε (Res op) → Prog Op Res ε β} {ch : Choice}
      {r : Except ε (Res op)} {s s' s'' : σ} {r' : Except ε β} (ha : allow s (.run t op ch))
      (he : S.exec t op ch s = some (r, s')) (hk : Runs S allow t (k r) s' r' s'') :
      Runs S allow t (.call op k) s r' s''

section Runs

variable {t : Tid} {β γ : Type} {p : Prog Op Res ε β} {s s' s'' : σ}

theorem Runs.perform {op : Op} {ch : Choice} {r : Except ε (Res op)}
    (ha : allow s (.run t op ch)) (he : S.exec t op ch s = some (r, s')) :
    Runs S allow t (.perform op) s r s' := by
  refine .call ha he ?_
  cases r with
  | ok a => exact .ret a s'
  | error e => exact .raise e s'

theorem Runs.bind {f : β → Prog Op Res ε γ} {a : β} {r : Except ε γ}
    (h : Runs S allow t p s (.ok a) s') (hf : Runs S allow t (f a) s' r s'') :
    Runs S allow t (p.bind f) s r s'' := by
  generalize hx : (.ok a : Except ε β) = x at h
  induction h with
  | ret b s => cases hx; exact hf
  | raise e s => cases hx
  | call ha he _ ih => exact .call ha he (ih hf hx)

theorem Runs.bind_error {f : β → Prog Op Res ε γ} {e : ε}
    (h : Runs S allow t p s (.error e) s') : Runs S allow t (p.bind f) s (.error e) s' := by
  generalize hx : (.error e : Except ε β) = x at h
  induction h with
  | ret b s => cases hx
  | raise e' s => cases hx; exact .raise e s
  | call ha he _ ih => exact .call ha he (ih hx)

/-- A sequence runs as its parts do, one after the other. -/
theorem Runs.of_bind {f : β → Prog Op Res ε γ} {r : Except ε γ}
    (h : Runs S allow t (p.bind f) s r s'') :
    (∃ a s', Runs S allow t p s (.ok a) s' ∧ Runs S allow t (f a) s' r s'') ∨
      ∃ e, Runs S allow t p s (.error e) s'' ∧ r = .error e := by
  induction p generalizing s with
  | ret a => exact .inl ⟨a, _, .ret a _, h⟩
  | raise e =>
    cases h
    exact .inr ⟨e, .raise e _, rfl⟩
  | call op k ih =>
    cases h with
    | call ha he hk =>
      rcases ih _ hk with ⟨a, s', hp, hf⟩ | ⟨e, hp, rfl⟩
      · exact .inl ⟨a, s', .call ha he hp, hf⟩
      · exact .inr ⟨e, .call ha he hp, rfl⟩

theorem Runs.handle_ok {f : ε → Prog Op Res ε β} {a : β} (h : Runs S allow t p s (.ok a) s') :
    Runs S allow t (p.handle f) s (.ok a) s' := by
  generalize hx : (.ok a : Except ε β) = x at h
  induction h with
  | ret b s => cases hx; exact .ret a s
  | raise e s => cases hx
  | call ha he _ ih => exact .call ha he (ih hx)

theorem Runs.handle_error {f : ε → Prog Op Res ε β} {e : ε} {r : Except ε β}
    (h : Runs S allow t p s (.error e) s') (hf : Runs S allow t (f e) s' r s'') :
    Runs S allow t (p.handle f) s r s'' := by
  generalize hx : (.error e : Except ε β) = x at h
  induction h with
  | ret b s => cases hx
  | raise e' s => cases hx; exact hf
  | call ha he _ ih => exact .call ha he (ih hf hx)

theorem Runs.mono {r : Except ε β} (h : Runs S allow t p s r s')
    (hm : ∀ s m, allow s m → allow' s m) : Runs S allow' t p s r s' := by
  induction h with
  | ret a s => exact .ret a s
  | raise e s => exact .raise e s
  | call ha he _ ih => exact .call (hm _ _ ha) he ih

theorem Runs.outcome {r : Except ε β} (h : Runs S allow t p s r s') :
    Runs S allow t p.outcome s (.ok r) s' := by
  induction h with
  | ret a s => exact .ret _ s
  | raise e s => exact .ret _ s
  | call ha he _ ih => exact .call ha he ih

end Runs

/-- The outcomes that a program can come to when each effect answers as it does in some
state, whatever the other threads do in between. -/
inductive Ends (S : Sys σ Op Res ε α Choice Req Env) {β : Type} :
    Prog Op Res ε β → Except ε β → Prop
  | ret (a : β) : Ends S (.ret a) (.ok a)
  | raise (e : ε) : Ends S (.raise e) (.error e)
  | call {t : Tid} {op : Op} {k : Except ε (Res op) → Prog Op Res ε β} {ch : Choice}
      {r : Except ε (Res op)} {s s' : σ} {r' : Except ε β}
      (he : S.exec t op ch s = some (r, s')) (hk : Ends S (k r) r') : Ends S (.call op k) r'

/-- The effects that a program can come to in this way. -/
inductive Comes (S : Sys σ Op Res ε α Choice Req Env) {β : Type} :
    Prog Op Res ε β → Op → Prop
  | here {op : Op} {k : Except ε (Res op) → Prog Op Res ε β} : Comes S (.call op k) op
  | call {t : Tid} {op op' : Op} {k : Except ε (Res op) → Prog Op Res ε β} {ch : Choice}
      {r : Except ε (Res op)} {s s' : σ} (he : S.exec t op ch s = some (r, s'))
      (hk : Comes S (k r) op') : Comes S (.call op k) op'

section Comes

variable {β γ : Type} {p : Prog Op Res ε β} {op : Op}

theorem Ends.perform {t : Tid} {ch : Choice} {r : Except ε (Res op)} {s s' : σ}
    (he : S.exec t op ch s = some (r, s')) : Ends S (.perform op) r := by
  refine .call he ?_
  cases r with
  | ok a => exact .ret a
  | error e => exact .raise e

theorem Ends.bind {f : β → Prog Op Res ε γ} {a : β} {r : Except ε γ} (h : Ends S p (.ok a))
    (hf : Ends S (f a) r) : Ends S (p.bind f) r := by
  generalize hx : (.ok a : Except ε β) = x at h
  induction h with
  | ret b => cases hx; exact hf
  | raise e => cases hx
  | call he _ ih => exact .call he (ih hx)

theorem Ends.bind_error {f : β → Prog Op Res ε γ} {e : ε} (h : Ends S p (.error e)) :
    Ends S (p.bind f) (.error e) := by
  generalize hx : (.error e : Except ε β) = x at h
  induction h with
  | ret b => cases hx
  | raise e' => cases hx; exact .raise e
  | call he _ ih => exact .call he (ih hx)

/-- A sequence ends as its second part does, or where its first part raises. -/
theorem Ends.of_bind {f : β → Prog Op Res ε γ} {r : Except ε γ} (h : Ends S (p.bind f) r) :
    (∃ a, Ends S p (.ok a) ∧ Ends S (f a) r) ∨ ∃ e, Ends S p (.error e) ∧ r = .error e := by
  induction p with
  | ret a => exact .inl ⟨a, .ret a, h⟩
  | raise e =>
    cases h
    exact .inr ⟨e, .raise e, rfl⟩
  | call op k ih =>
    cases h with
    | call he hk =>
      rcases ih _ hk with ⟨a, hp, hf⟩ | ⟨e, hp, rfl⟩
      · exact .inl ⟨a, .call he hp, hf⟩
      · exact .inr ⟨e, .call he hp, rfl⟩

/-- What a program that runs alone ends with is one of its outcomes. -/
theorem Runs.ends {t : Tid} {s s' : σ} {r : Except ε β} (h : Runs S allow t p s r s') :
    Ends S p r := by
  induction h with
  | ret a s => exact .ret a
  | raise e s => exact .raise e
  | call _ he _ ih => exact .call he ih

theorem Ends.outcome {r : Except ε β} (h : Ends S p r) : Ends S p.outcome (.ok r) := by
  induction h with
  | ret a => exact .ret _
  | raise e => exact .ret _
  | call he _ ih => exact .call he ih

theorem Ends.handle_ok {f : ε → Prog Op Res ε β} {a : β} (h : Ends S p (.ok a)) :
    Ends S (p.handle f) (.ok a) := by
  generalize hx : (.ok a : Except ε β) = x at h
  induction h with
  | ret b => cases hx; exact .ret a
  | raise e => cases hx
  | call he _ ih => exact .call he (ih hx)

/-- What a program only performs is all that it comes to. -/
theorem Comes.of_only {P : Op → Prop} (h : Comes S p op) (hp : p.Only P) : P op := by
  induction h with
  | here => exact hp.1
  | call _ _ ih => exact ih (hp.2 _)

theorem Comes.bind {f : β → Prog Op Res ε γ} {a : β} (h : Ends S p (.ok a))
    (hf : Comes S (f a) op) : Comes S (p.bind f) op := by
  generalize hx : (.ok a : Except ε β) = x at h
  induction h with
  | ret b => cases hx; exact hf
  | raise e => cases hx
  | call he _ ih => exact .call he (ih hx)

theorem Comes.first {f : β → Prog Op Res ε γ} (h : Comes S p op) : Comes S (p.bind f) op := by
  induction h with
  | here => exact .here
  | call he _ ih => exact .call he ih

theorem Comes.handle {f : ε → Prog Op Res ε β} {e : ε} (h : Ends S p (.error e))
    (hf : Comes S (f e) op) : Comes S (p.handle f) op := by
  generalize hx : (.error e : Except ε β) = x at h
  induction h with
  | ret b => cases hx
  | raise e' => cases hx; exact hf
  | call he _ ih => exact .call he (ih hx)

end Comes

/-- `Runs` with the effects and their choices, oldest first. -/
inductive Trail (S : Sys σ Op Res ε α Choice Req Env) (t : Tid) {β : Type} :
    Prog Op Res ε β → σ → List (Op × Choice) → Except ε β → σ → Prop
  | ret (a : β) (s : σ) : Trail S t (.ret a) s [] (.ok a) s
  | raise (e : ε) (s : σ) : Trail S t (.raise e) s [] (.error e) s
  | call {op : Op} {k : Except ε (Res op) → Prog Op Res ε β} {ch : Choice}
      {r : Except ε (Res op)} {s s' s'' : σ} {ms : List (Op × Choice)} {r' : Except ε β}
      (he : S.exec t op ch s = some (r, s')) (hk : Trail S t (k r) s' ms r' s'') :
      Trail S t (.call op k) s ((op, ch) :: ms) r' s''

section Trail

variable {t : Tid} {β : Type} {p : Prog Op Res ε β} {s s' : σ} {ms : List (Op × Choice)}
  {r : Except ε β}

theorem Trail.runs (h : Trail S t p s ms r s')
    (ha : ∀ m ∈ ms, ∀ s, allow s (.run t m.1 m.2)) : Runs S allow t p s r s' := by
  induction h with
  | ret a s => exact .ret a s
  | raise e s => exact .raise e s
  | call he _ ih =>
    exact .call (ha _ List.mem_cons_self _) he
      (ih (fun m hm => ha m (List.mem_cons_of_mem _ hm)))

/-- Effects that leave `f` alone. -/
theorem Trail.unchanged {τ : Type} {f : σ → τ} {P : Op → Prop} (h : Trail S t p s ms r s')
    (hP : ∀ op ch s r s', P op → S.exec t op ch s = some (r, s') → f s' = f s)
    (hm : ∀ m ∈ ms, P m.1) : f s' = f s := by
  induction h with
  | ret a s => rfl
  | raise e s => rfl
  | call he _ ih =>
    exact (ih (fun m h => hm m (List.mem_cons_of_mem _ h))).trans
      (hP _ _ _ _ _ (hm _ List.mem_cons_self) he)

theorem Trail.atMost {P : Op → Prop} [DecidablePred P] {n : Nat} (h : Trail S t p s ms r s')
    (hp : p.AtMost P n) : ms.countP (fun m => P m.1) ≤ n := by
  induction h generalizing n with
  | ret a s => exact Nat.zero_le n
  | raise e s => exact Nat.zero_le n
  | @call op k ch r s s' s'' ms r' _ _ ih =>
    have hk := ih (hp.2 r)
    by_cases ho : P op
    · have hn := hp.1 ho
      simp only [ho, if_true, List.countP_cons, decide_true] at hk ⊢
      omega
    · simpa [ho, List.countP_cons] using hk

end Trail

variable (S)

/-- Run a program alone on the given choices, asking `ok` of every step. -/
def alone? (ok : σ → Move Op Choice Req Env → Bool) (t : Tid) {β : Type} :
    List Choice → Prog Op Res ε β → σ → Option (Except ε β × σ)
  | _, .ret a, s => some (.ok a, s)
  | _, .raise e, s => some (.error e, s)
  | [], .call _ _, _ => none
  | ch :: chs, .call op k, s =>
    if ok s (.run t op ch) then (S.exec t op ch s).bind (fun (r, s') => alone? ok t chs (k r) s')
    else none

variable {S}

theorem runs_of_alone {ok : σ → Move Op Choice Req Env → Bool}
    (hok : ∀ s m, ok s m = true → allow s m) {t : Tid} {β : Type} {chs : List Choice}
    {p : Prog Op Res ε β} {s : σ} {x : Except ε β × σ} (h : S.alone? ok t chs p s = some x) :
    Runs S allow t p s x.1 x.2 := by
  induction chs generalizing p s with
  | nil =>
    cases p with
    | ret a => cases h; exact .ret _ _
    | raise e => cases h; exact .raise _ _
    | call op k => cases h
  | cons ch chs ih =>
    cases p with
    | ret a => cases h; exact .ret _ _
    | raise e => cases h; exact .raise _ _
    | call op k =>
      simp only [alone?] at h
      split at h
      · rename_i ho
        obtain ⟨⟨r', s₁⟩, he, hk⟩ := Option.bind_eq_some_iff.mp h
        exact .call (hok _ _ ho) he (ih hk)
      · cases h

theorem trail_of_alone {ok : σ → Move Op Choice Req Env → Bool} {t : Tid} {β : Type}
    {chs : List Choice} {p : Prog Op Res ε β} {s : σ} {x : Except ε β × σ}
    (h : S.alone? ok t chs p s = some x) :
    ∃ ms, Trail S t p s ms x.1 x.2 ∧ ∀ m ∈ ms, ∃ s, ok s (.run t m.1 m.2) = true := by
  induction chs generalizing p s with
  | nil =>
    cases p with
    | ret a => cases h; exact ⟨[], .ret _ _, fun _ hm => by cases hm⟩
    | raise e => cases h; exact ⟨[], .raise _ _, fun _ hm => by cases hm⟩
    | call op k => cases h
  | cons ch chs ih =>
    cases p with
    | ret a => cases h; exact ⟨[], .ret _ _, fun _ hm => by cases hm⟩
    | raise e => cases h; exact ⟨[], .raise _ _, fun _ hm => by cases hm⟩
    | call op k =>
      simp only [alone?] at h
      split at h
      · rename_i ho
        obtain ⟨⟨r', s₁⟩, he, hk⟩ := Option.bind_eq_some_iff.mp h
        obtain ⟨ms, ht, hms⟩ := ih hk
        refine ⟨(op, ch) :: ms, .call he ht, fun m hm => ?_⟩
        rcases List.mem_cons.mp hm with rfl | hm
        · exact ⟨s, ho⟩
        · exact hms m hm
      · cases h

end Sys

end Payments.Lib
