import Payments.Lib.Threads

namespace Payments.Lib

/-- What every state satisfies, what a thread may assume of the steps of the others,
what it promises of its own, and what is known of an identifier before its thread starts. -/
structure Contract (σ : Type) where
  inv : σ → Prop
  rely : Tid → σ → σ → Prop
  guar : Tid → σ → σ → Prop
  fresh : Tid → σ → Prop

variable {σ Op : Type} {Res : Op → Type} {ε α β Choice Req Env : Type}
variable (S : Sys σ Op Res ε α Choice Req Env) (allow : σ → Move Op Choice Req Env → Prop)
variable (C : Contract σ) (t : Tid)

/-- From `s`, whatever the other threads do within the rely, thread `t` running `p` keeps
the invariant, makes only promised steps and ends in `Q`. -/
def wp : Prog Op Res ε β → (Except ε β → σ → Prop) → σ → Prop
  | .ret a, Q, s => Q (.ok a) s
  | .raise e, Q, s => Q (.error e) s
  | .call op k, Q, s => ∀ s₁, C.rely t s s₁ → C.inv s₁ → ∀ ch r s₂,
      allow s₁ (.run t op ch) → S.exec t op ch s₁ = some (r, s₂) →
      C.inv s₂ ∧ C.guar t s₁ s₂ ∧ wp (k r) Q s₂

/-- What the end of a thread asks of the state its program stopped in. -/
def Contract.Done (r : Except ε α) (s : σ) : Prop :=
  ∀ s₁, C.rely t s s₁ → C.inv s₁ → allow s₁ (.exit t) →
    C.inv (S.exit t r s₁) ∧ C.guar t s₁ (S.exit t r s₁)

/-- The proof obligations of a contract: the promises of one thread are within the
rely of every other, and each started program keeps them. -/
structure Contract.Valid : Prop where
  refl : ∀ t s, C.rely t s s
  trans : ∀ t s s' s'', C.rely t s s' → C.rely t s' s'' → C.rely t s s''
  compat : ∀ t u s s', t ≠ u → C.inv s → C.inv s' → C.guar t s s' → C.rely u s s'
  fresh : ∀ t s s', C.rely t s s' → C.fresh t s → C.fresh t s'
  start : ∀ t req s p s', C.inv s → C.fresh t s → allow s (.start t req) →
    S.start t req s = some (p, s') →
    C.inv s' ∧ C.guar t s s' ∧ wp S allow C t p (C.Done S allow t) s'
  kill : ∀ t s, C.inv s → allow s (.kill t) → C.inv (S.kill t s) ∧ C.guar t s (S.kill t s)
  env : ∀ e s s', C.inv s → allow s (.env e) → S.env e s = some s' →
    C.inv s' ∧ ∀ t, C.rely t s s'

variable {S allow C t}

section Rules

variable {p : Prog Op Res ε β} {Q Q' : Except ε β → σ → Prop} {s : σ} {γ : Type}

@[simp] theorem wp_ret (a : β) : wp S allow C t (.ret a) Q s ↔ Q (.ok a) s := Iff.rfl

@[simp] theorem wp_raise (e : ε) : wp S allow C t (.raise e) Q s ↔ Q (.error e) s := Iff.rfl

@[simp] theorem wp_ofExcept (r : Except ε β) : wp S allow C t (.ofExcept r) Q s ↔ Q r s := by
  cases r <;> rfl

theorem wp_mono (h : wp S allow C t p Q s) (hQ : ∀ r s, Q r s → Q' r s) :
    wp S allow C t p Q' s := by
  induction p generalizing s with
  | ret a => exact hQ _ _ h
  | raise e => exact hQ _ _ h
  | call op k ih =>
    intro s₁ hr hi ch r s₂ ha he
    obtain ⟨h₁, h₂, h₃⟩ := h s₁ hr hi ch r s₂ ha he
    exact ⟨h₁, h₂, ih r h₃⟩

/-- Two specifications at once. -/
theorem wp_and (h : wp S allow C t p Q s) (h' : wp S allow C t p Q' s) :
    wp S allow C t p (fun r s => Q r s ∧ Q' r s) s := by
  induction p generalizing s with
  | ret a => exact ⟨h, h'⟩
  | raise e => exact ⟨h, h'⟩
  | call op k ih =>
    intro s₁ hr hi ch r s₂ ha he
    obtain ⟨h₁, h₂, h₃⟩ := h s₁ hr hi ch r s₂ ha he
    exact ⟨h₁, h₂, ih r h₃ (h' s₁ hr hi ch r s₂ ha he).2.2⟩

theorem wp_bind {f : β → Prog Op Res ε γ} {Q : Except ε γ → σ → Prop}
    (h : wp S allow C t p (fun r s => match r with
      | .ok a => wp S allow C t (f a) Q s
      | .error e => Q (.error e) s) s) :
    wp S allow C t (p.bind f) Q s := by
  induction p generalizing s with
  | ret a => exact h
  | raise e => exact h
  | call op k ih =>
    intro s₁ hr hi ch r s₂ ha he
    obtain ⟨h₁, h₂, h₃⟩ := h s₁ hr hi ch r s₂ ha he
    exact ⟨h₁, h₂, ih r h₃⟩

theorem wp_handle {f : ε → Prog Op Res ε β}
    (h : wp S allow C t p (fun r s => match r with
      | .ok a => Q (.ok a) s
      | .error e => wp S allow C t (f e) Q s) s) :
    wp S allow C t (p.handle f) Q s := by
  induction p generalizing s with
  | ret a => exact h
  | raise e => exact h
  | call op k ih =>
    intro s₁ hr hi ch r s₂ ha he
    obtain ⟨h₁, h₂, h₃⟩ := h s₁ hr hi ch r s₂ ha he
    exact ⟨h₁, h₂, ih r h₃⟩

/-- A sequence, with what holds between its parts. -/
theorem wp_seq {f : β → Prog Op Res ε γ} {Q : Except ε γ → σ → Prop}
    (R : Except ε β → σ → Prop) (hp : wp S allow C t p R s)
    (hok : ∀ a s, R (.ok a) s → wp S allow C t (f a) Q s)
    (herr : ∀ e s, R (.error e) s → Q (.error e) s) : wp S allow C t (p.bind f) Q s := by
  refine wp_bind (wp_mono hp (fun r s hr => ?_))
  cases r with
  | ok a => exact hok a s hr
  | error e => exact herr e s hr

/-- A handler, with what holds where the program ends. -/
theorem wp_catch {f : ε → Prog Op Res ε β} (R : Except ε β → σ → Prop)
    (hp : wp S allow C t p R s) (hok : ∀ a s, R (.ok a) s → Q (.ok a) s)
    (herr : ∀ e s, R (.error e) s → wp S allow C t (f e) Q s) :
    wp S allow C t (p.handle f) Q s := by
  refine wp_handle (wp_mono hp (fun r s hr => ?_))
  cases r with
  | ok a => exact hok a s hr
  | error e => exact herr e s hr

theorem wp_outcome {Q : Except ε (Except ε β) → σ → Prop}
    (h : wp S allow C t p (fun r s => Q (.ok r) s) s) :
    wp S allow C t p.outcome Q s := by
  induction p generalizing s with
  | ret a => exact h
  | raise e => exact h
  | call op k ih =>
    intro s₁ hr hi ch r s₂ ha he
    obtain ⟨h₁, h₂, h₃⟩ := h s₁ hr hi ch r s₂ ha he
    exact ⟨h₁, h₂, ih r h₃⟩

/-- One effect, from an assertion that the steps of the other threads keep. -/
theorem wp_perform {op : Op} {Q : Except ε (Res op) → σ → Prop} {P : σ → Prop} (hP : P s)
    (stable : ∀ s s', P s → C.rely t s s' → P s')
    (h : ∀ s₁ ch r s₂, P s₁ → C.inv s₁ → allow s₁ (.run t op ch) →
      S.exec t op ch s₁ = some (r, s₂) → C.inv s₂ ∧ C.guar t s₁ s₂ ∧ Q r s₂) :
    wp S allow C t (.perform op) Q s := by
  intro s₁ hr hi ch r s₂ ha he
  obtain ⟨h₁, h₂, h₃⟩ := h s₁ ch r s₂ (stable _ _ hP hr) hi ha he
  exact ⟨h₁, h₂, (wp_ofExcept r).mpr h₃⟩

/-- A program that performs only effects which keep a stable assertion keeps it. -/
theorem wp_only {A : σ → Prop} {P : Op → Prop} (hp : p.Only P) (hA : A s)
    (stable : ∀ s s', A s → C.rely t s s' → A s')
    (h : ∀ op, P op → ∀ s₁ ch r s₂, A s₁ → C.inv s₁ → allow s₁ (.run t op ch) →
      S.exec t op ch s₁ = some (r, s₂) → C.inv s₂ ∧ C.guar t s₁ s₂ ∧ A s₂) :
    wp S allow C t p (fun _ => A) s := by
  induction p generalizing s with
  | ret a => exact hA
  | raise e => exact hA
  | call op k ih =>
    intro s₁ hr hi ch r s₂ ha he
    obtain ⟨h₁, h₂, h₃⟩ := h op hp.1 s₁ ch r s₂ (stable _ _ hA hr) hi ha he
    exact ⟨h₁, h₂, ih r (hp.2 r) h₃⟩

/-- A stronger assumption about the others moves into the state they left behind. -/
theorem wp_rely (h : wp S allow C t p Q s) {s' : σ} (hs : C.rely t s s')
    (trans : ∀ s s' s'', C.rely t s s' → C.rely t s' s'' → C.rely t s s'')
    (stable : ∀ r s s', Q r s → C.rely t s s' → Q r s') : wp S allow C t p Q s' := by
  cases p with
  | ret a => exact stable _ _ _ h hs
  | raise e => exact stable _ _ _ h hs
  | call op k => exact fun s₁ hr => h s₁ (trans _ _ _ hs hr)

end Rules

/-- A program that runs alone meets its specification. -/
theorem Runs.sound {p : Prog Op Res ε β} {Q : Except ε β → σ → Prop} {s s' : σ}
    {r : Except ε β} (refl : ∀ s, C.rely t s s) (hr : Sys.Runs S allow t p s r s')
    (hi : C.inv s) (h : wp S allow C t p Q s) : C.inv s' ∧ Q r s' := by
  induction hr with
  | ret a s => exact ⟨hi, h⟩
  | raise e s => exact ⟨hi, h⟩
  | call ha he _ ih =>
    obtain ⟨h₁, _, h₃⟩ := h _ (refl _) hi _ _ _ ha he
    exact ih h₁ h₃

/-- The contract of a thread that runs alone: only its own steps change anything. -/
def Contract.alone (σ : Type) : Contract σ where
  inv := fun _ => True
  rely := fun _ s s' => s = s'
  guar := fun _ _ _ => True
  fresh := fun _ _ => True

/-- The contract of a thread of which nothing is asked, among others that keep their promises. -/
def Contract.relying (rely : Tid → σ → σ → Prop) : Contract σ where
  inv := fun _ => True
  rely := rely
  guar := fun _ _ _ => True
  fresh := fun _ _ => True

/-- One effect of which nothing is asked, from an assertion that the others keep. -/
theorem wp_relying {rely : Tid → σ → σ → Prop} {op : Op} {Q : Except ε (Res op) → σ → Prop}
    (P : σ → Prop) {s : σ} (hP : P s) (stable : ∀ s s', P s → rely t s s' → P s')
    (h : ∀ s₁ ch r s₂, P s₁ → allow s₁ (.run t op ch) → S.exec t op ch s₁ = some (r, s₂) →
      Q r s₂) : wp S allow (.relying rely) t (.perform op) Q s :=
  wp_perform hP stable (fun s₁ ch r s₂ hp _ ha he => ⟨trivial, trivial, h s₁ ch r s₂ hp ha he⟩)

/-- Alone, an effect meets what each of its answers meets. -/
theorem wp_alone {op : Op} {Q : Except ε (Res op) → σ → Prop} {s : σ}
    (h : ∀ ch r s', allow s (.run t op ch) → S.exec t op ch s = some (r, s') → Q r s') :
    wp S allow (.alone σ) t (.perform op) Q s := by
  rintro s₁ rfl _ ch r s₂ ha he
  exact ⟨trivial, trivial, (wp_ofExcept r).mpr (h ch r s₂ ha he)⟩

/-- What a program meets alone holds of its runs. -/
theorem Runs.alone {p : Prog Op Res ε β} {Q : Except ε β → σ → Prop} {s s' : σ}
    {r : Except ε β} (hr : Sys.Runs S allow t p s r s') (h : wp S allow (.alone σ) t p Q s) :
    Q r s' :=
  (Runs.sound (fun _ => rfl) hr trivial h).2

/-- What a reachable configuration satisfies: the invariant, and for every running thread
that the rest of its program is still within the contract. -/
structure Contract.Holds (S : Sys σ Op Res ε α Choice Req Env)
    (allow : σ → Move Op Choice Req Env → Prop) (C : Contract σ)
    (c : Config σ Op Res ε α) : Prop where
  inv : C.inv c.shared
  running : ∀ t p, c.threads t = some p → t < c.next ∧
    wp S allow C t p (C.Done S allow t) c.shared
  fresh : ∀ t, c.next ≤ t → C.fresh t c.shared

/-- A thread's own step is one that it promised; the environment's is in every rely. -/
def Contract.Within (C : Contract σ) : Move Op Choice Req Env → σ → σ → Prop
  | .run t _ _, s, s' => C.guar t s s'
  | .exit t, s, s' => C.guar t s s'
  | .start t _, s, s' => C.guar t s s'
  | .kill t, s, s' => C.guar t s s'
  | .env _, s, s' => ∀ t, C.rely t s s'

theorem Contract.holds_initial {s : σ} (hi : C.inv s) (hf : ∀ t, C.fresh t s) :
    C.Holds S allow (Config.initial s) where
  inv := hi
  running := fun _ _ h => by cases h
  fresh := fun t _ => hf t

namespace Contract.Valid

variable (V : C.Valid S allow)
include V

theorem done_stable (r : Except ε α) (s s' : σ) (h : C.Done S allow t r s)
    (hs : C.rely t s s') : C.Done S allow t r s' :=
  fun s₁ hr => h s₁ (V.trans _ _ _ _ hs hr)

/-- The other threads stay within their contracts when thread `t` keeps its promises. -/
theorem holds_put {c : Config σ Op Res ε α} (h : C.Holds S allow c) {t : Tid}
    (ht : t < c.next) {s : σ} {p : Option (Prog Op Res ε α)} (hi : C.inv s)
    (hg : C.guar t c.shared s)
    (hp : ∀ q, p = some q → wp S allow C t q (C.Done S allow t) s) :
    C.Holds S allow (c.put t p s) := by
  have hrely : ∀ u, t ≠ u → C.rely u c.shared s := fun u hu => V.compat t u _ _ hu h.inv hi hg
  refine ⟨hi, ?_, ?_⟩
  · intro u q hu
    by_cases he : u = t
    · subst he
      simp only [Config.put, Function.update_self] at hu
      exact ⟨ht, hp q hu⟩
    · simp only [Config.put, Function.update_of_ne he] at hu
      obtain ⟨hl, hw⟩ := h.running u q hu
      exact ⟨hl, wp_rely hw (hrely u (Ne.symm he)) (V.trans u) V.done_stable⟩
  · intro u hu
    have hne : t ≠ u := by
      rintro rfl
      exact absurd ht (Nat.not_lt.mpr hu)
    exact V.fresh u _ _ (hrely u hne) (h.fresh u hu)

theorem holds_step {c c' : Config σ Op Res ε α} {m : Move Op Choice Req Env}
    (h : C.Holds S allow c) (ha : allow c.shared m) (hs : S.Step c m c') :
    C.Holds S allow c' ∧ C.Within m c.shared c'.shared := by
  cases hs with
  | run ht he =>
    obtain ⟨hl, hw⟩ := h.running _ _ ht
    obtain ⟨h₁, h₂, h₃⟩ := hw _ (V.refl _ _) h.inv _ _ _ ha he
    exact ⟨V.holds_put h hl h₁ h₂ (fun q hq => Option.some.inj hq ▸ h₃), h₂⟩
  | @exit t p r ht hr =>
    obtain ⟨hl, hw⟩ := h.running _ _ ht
    have hd : C.Done S allow t r c.shared := by
      cases p with
      | ret a => cases hr; exact hw
      | raise e => cases hr; exact hw
      | call op k => cases hr
    obtain ⟨h₁, h₂⟩ := hd _ (V.refl _ _) h.inv ha
    exact ⟨V.holds_put h hl h₁ h₂ (fun _ hq => by cases hq), h₂⟩
  | @start req p s he =>
    obtain ⟨h₁, h₂, h₃⟩ := V.start _ _ _ _ _ h.inv (h.fresh _ (Nat.le_refl _)) ha he
    have hn : C.Holds S allow { c with next := c.next + 1 } :=
      ⟨h.inv, fun u q hu => ⟨Nat.lt_succ_of_lt (h.running u q hu).1, (h.running u q hu).2⟩,
        fun u hu => h.fresh u (Nat.le_of_succ_le hu)⟩
    exact ⟨V.holds_put hn (Nat.lt_succ_self _) h₁ h₂ (fun q hq => Option.some.inj hq ▸ h₃), h₂⟩
  | kill ht =>
    obtain ⟨h₁, h₂⟩ := V.kill _ _ h.inv ha
    exact ⟨V.holds_put h (h.running _ _ ht).1 h₁ h₂ (fun _ hq => by cases hq), h₂⟩
  | env he =>
    obtain ⟨h₁, h₂⟩ := V.env _ _ _ h.inv ha he
    refine ⟨⟨h₁, ?_, fun u hu => V.fresh u _ _ (h₂ u) (h.fresh u hu)⟩, h₂⟩
    intro u q hu
    obtain ⟨hl, hw⟩ := h.running u q hu
    exact ⟨hl, wp_rely hw (h₂ u) (V.trans u) V.done_stable⟩

theorem holds_reach {c c' : Config σ Op Res ε α} (h : C.Holds S allow c)
    (hr : S.Reach allow c c') : C.Holds S allow c' := by
  induction hr with
  | init => exact h
  | step _ ha hs ih => exact (V.holds_step ih ha hs).1

/-- Every reachable state satisfies the invariant. -/
theorem reach_inv {s : σ} {c : Config σ Op Res ε α} (hi : C.inv s) (hf : ∀ t, C.fresh t s)
    (hr : S.Reach allow (Config.initial s) c) : C.inv c.shared :=
  (V.holds_reach (C.holds_initial hi hf) hr).inv

/-- The steps that are not a thread's own are within what it relies on. -/
theorem rely_step {c c' : Config σ Op Res ε α} {m : Move Op Choice Req Env}
    (h : C.Holds S allow c) (ha : allow c.shared m) (hs : S.Step c m c')
    (hm : m.thread? ≠ some t) : C.rely t c.shared c'.shared := by
  obtain ⟨hh', hw⟩ := V.holds_step h ha hs
  cases m with
  | env e => exact hw t
  | run u _ _ | exit u | start u _ | kill u =>
    exact V.compat u t _ _ (fun he => hm (congrArg some he)) h.inv hh'.inv hw

/-- A thread that never runs sees between two states of a run only what it relies on. -/
theorem reach_rely {c c' : Config σ Op Res ε α} (h : C.Holds S allow c)
    (hr : S.Reach allow c c') : ∃ n, ∀ t, n ≤ t → C.rely t c.shared c'.shared := by
  induction hr with
  | init => exact ⟨0, fun t _ => V.refl t _⟩
  | @step d d' m hd ha hs ih =>
    obtain ⟨n, hn⟩ := ih
    have hh := V.holds_reach h hd
    refine ⟨max n d'.next, fun t hle =>
      V.trans _ _ _ _ (hn t (Nat.le_trans (Nat.le_max_left _ _) hle)) (V.rely_step hh ha hs ?_)⟩
    have hlt : d'.next ≤ t := Nat.le_trans (Nat.le_max_right _ _) hle
    have hne : ∀ u, u < d'.next → (some u : Option Tid) ≠ some t := fun u hu he =>
      absurd (Option.some.inj he ▸ hu) (Nat.not_lt.mpr hlt)
    cases hs with
    | run ht _ => exact hne _ (hh.running _ _ ht).1
    | exit ht _ => exact hne _ (hh.running _ _ ht).1
    | start _ => exact hne _ (Nat.lt_succ_self _)
    | kill ht => exact hne _ (hh.running _ _ ht).1
    | env _ => simp [Move.thread?]

end Contract.Valid

/-- At its end a program has met its specification. -/
theorem wp_result {p : Prog Op Res ε α} {Q : Except ε α → σ → Prop} {s : σ} {x : Except ε α}
    (h : wp S allow C t p Q s) (hx : p.result? = some x) : Q x s := by
  cases p with
  | ret a => cases hx; exact h
  | raise e => cases hx; exact h
  | call op k => cases hx

/-- One thread through a run whose other steps are within its rely: what is left of its program
still meets the specification. -/
theorem wp_reach {c c' : Config σ Op Res ε α} {Q : Except ε α → σ → Prop} (hlt : t < c.next)
    (hp : ∀ p, c.threads t = some p → wp S allow C t p Q c.shared) (refl : ∀ s, C.rely t s s)
    (trans : ∀ s s' s'', C.rely t s s' → C.rely t s' s'' → C.rely t s s'')
    (stable : ∀ r s s', Q r s → C.rely t s s' → Q r s')
    (hinv : ∀ d, S.Reach allow c d → C.inv d.shared)
    (hrely : ∀ d m d', S.Reach allow c d → allow d.shared m → S.Step d m d' →
      m.thread? ≠ some t → C.rely t d.shared d'.shared) (h : S.Reach allow c c') :
    t < c'.next ∧ ∀ p, c'.threads t = some p → wp S allow C t p Q c'.shared := by
  induction h with
  | init => exact ⟨hlt, hp⟩
  | @step d d' m hr ha hs ih =>
    obtain ⟨hlt, hp⟩ := ih
    have hnext : t < d'.next := by
      cases hs <;> first | exact hlt | exact Nat.lt_succ_of_lt hlt
    refine ⟨hnext, fun p he => ?_⟩
    by_cases hm : m.thread? = some t
    · cases hs with
      | run hu hx =>
        cases hm
        cases (Function.update_self _ _ _).symm.trans he
        exact (hp _ hu _ (refl _) (hinv _ hr) _ _ _ ha hx).2.2
      | exit hu _ | kill hu =>
        cases hm
        cases (Function.update_self _ _ _).symm.trans he
      | start _ =>
        cases hm
        exact absurd hlt (Nat.lt_irrefl _)
      | env _ => cases hm
    · exact wp_rely (hp p (hs.other hm ▸ he)) (hrely _ _ _ hr ha hs hm) trans stable

section Over

/-- Two contracts at once. -/
def Contract.both (C D : Contract σ) : Contract σ where
  inv := fun s => C.inv s ∧ D.inv s
  rely := fun t s s' => C.rely t s s' ∧ D.rely t s s'
  guar := fun t s s' => C.guar t s s' ∧ D.guar t s s'
  fresh := fun t s => C.fresh t s ∧ D.fresh t s

/-- A contract that is proved under the assumptions of another one. -/
def Contract.under (C D : Contract σ) : Contract σ where
  inv := D.inv
  rely := fun t s s' => C.rely t s s' ∧ D.rely t s s'
  guar := D.guar
  fresh := D.fresh

/-- The steps that are allowed where the invariant of another contract holds. -/
def Contract.Given (C : Contract σ) (allow : σ → Move Op Choice Req Env → Prop) (s : σ)
    (m : Move Op Choice Req Env) : Prop := C.inv s ∧ allow s m

/-- The proof obligations of a contract over one that is valid already. -/
structure Contract.ValidOver (S : Sys σ Op Res ε α Choice Req Env)
    (allow : σ → Move Op Choice Req Env → Prop) (C D : Contract σ) : Prop where
  refl : ∀ t s, D.rely t s s
  trans : ∀ t s s' s'', D.rely t s s' → D.rely t s' s'' → D.rely t s s''
  compat : ∀ t u s s', t ≠ u → C.inv s → D.inv s → C.guar t s s' → D.guar t s s' → D.rely u s s'
  fresh : ∀ t s s', D.rely t s s' → D.fresh t s → D.fresh t s'
  start : ∀ t req s p s', C.inv s → D.inv s → C.fresh t s → D.fresh t s →
    allow s (.start t req) → S.start t req s = some (p, s') →
    D.inv s' ∧ D.guar t s s' ∧ wp S (C.Given allow) (C.under D) t p
      ((C.under D).Done S (C.Given allow) t) s'
  kill : ∀ t s, C.inv s → D.inv s → allow s (.kill t) → D.inv (S.kill t s) ∧ D.guar t s (S.kill t s)
  env : ∀ e s s', C.inv s → D.inv s → allow s (.env e) → S.env e s = some s' →
    D.inv s' ∧ ∀ t, D.rely t s s'

variable {D : Contract σ}

/-- What a program meets by one contract it also meets where it is proved under it. -/
theorem wp_under {p : Prog Op Res ε β} {Q Q' : Except ε β → σ → Prop} {s : σ}
    (h : wp S allow C t p Q s) (h' : wp S (C.Given allow) (C.under D) t p Q' s) :
    wp S (C.Given allow) (C.under D) t p (fun r s => Q r s ∧ Q' r s) s := by
  induction p generalizing s with
  | ret a => exact ⟨h, h'⟩
  | raise e => exact ⟨h, h'⟩
  | call op k ih =>
    intro s₁ hr hi ch r s₂ ha he
    obtain ⟨_, _, hk₁⟩ := h s₁ hr.1 ha.1 ch r s₂ ha.2 he
    obtain ⟨hi₂, hg₂, hk₂⟩ := h' s₁ hr hi ch r s₂ ha he
    exact ⟨hi₂, hg₂, ih r hk₁ hk₂⟩

/-- A program meets two contracts at once when it meets one, and the other under it. -/
theorem wp_both {p : Prog Op Res ε β} {Q Q' : Except ε β → σ → Prop} {s : σ}
    (h : wp S allow C t p Q s) (h' : wp S (C.Given allow) (C.under D) t p Q' s) :
    wp S allow (C.both D) t p (fun r s => Q r s ∧ Q' r s) s := by
  induction p generalizing s with
  | ret a => exact ⟨h, h'⟩
  | raise e => exact ⟨h, h'⟩
  | call op k ih =>
    intro s₁ hr hi ch r s₂ ha he
    obtain ⟨hi₁, hg₁, hk₁⟩ := h s₁ hr.1 hi.1 ch r s₂ ha he
    obtain ⟨hi₂, hg₂, hk₂⟩ := h' s₁ hr hi.2 ch r s₂ ⟨hi.1, ha⟩ he
    exact ⟨⟨hi₁, hi₂⟩, ⟨hg₁, hg₂⟩, ih r hk₁ hk₂⟩

theorem Contract.Valid.both (V : C.Valid S allow) (W : C.ValidOver S allow D) :
    (C.both D).Valid S allow where
  refl := fun t s => ⟨V.refl t s, W.refl t s⟩
  trans := fun t s s' s'' h h' => ⟨V.trans t s s' s'' h.1 h'.1, W.trans t s s' s'' h.2 h'.2⟩
  compat := fun t u s s' hu hi hi' hg =>
    ⟨V.compat t u s s' hu hi.1 hi'.1 hg.1, W.compat t u s s' hu hi.1 hi.2 hg.1 hg.2⟩
  fresh := fun t s s' hr hf => ⟨V.fresh t s s' hr.1 hf.1, W.fresh t s s' hr.2 hf.2⟩
  start := fun t req s p s' hi hf ha hs => by
    obtain ⟨hi₁, hg₁, hp₁⟩ := V.start t req s p s' hi.1 hf.1 ha hs
    obtain ⟨hi₂, hg₂, hp₂⟩ := W.start t req s p s' hi.1 hi.2 hf.1 hf.2 ha hs
    refine ⟨⟨hi₁, hi₂⟩, ⟨hg₁, hg₂⟩, wp_mono (wp_both hp₁ hp₂) (fun r s hd s₁ hr hi ha => ?_)⟩
    obtain ⟨h₁, h₂⟩ := hd.1 s₁ hr.1 hi.1 ha
    obtain ⟨h₃, h₄⟩ := hd.2 s₁ hr hi.2 ⟨hi.1, ha⟩
    exact ⟨⟨h₁, h₃⟩, ⟨h₂, h₄⟩⟩
  kill := fun t s hi ha => by
    obtain ⟨h₁, h₂⟩ := V.kill t s hi.1 ha
    obtain ⟨h₃, h₄⟩ := W.kill t s hi.1 hi.2 ha
    exact ⟨⟨h₁, h₃⟩, ⟨h₂, h₄⟩⟩
  env := fun e s s' hi ha he => by
    obtain ⟨h₁, h₂⟩ := V.env e s s' hi.1 ha he
    obtain ⟨h₃, h₄⟩ := W.env e s s' hi.1 hi.2 ha he
    exact ⟨⟨h₁, h₃⟩, fun t => ⟨h₂ t, h₄ t⟩⟩

/-- What a program meets whatever is allowed it meets where less is. -/
theorem wp_restrict {p : Prog Op Res ε β} {Q : Except ε β → σ → Prop} {s : σ}
    (h : wp S (fun _ _ => True) C t p Q s) : wp S allow C t p Q s := by
  induction p generalizing s with
  | ret a => exact h
  | raise e => exact h
  | call op k ih =>
    intro s₁ hr hi ch r s₂ _ he
    obtain ⟨h₁, h₂, h₃⟩ := h s₁ hr hi ch r s₂ trivial he
    exact ⟨h₁, h₂, ih r h₃⟩

theorem Contract.Valid.restrict (V : C.Valid S (fun _ _ => True)) : C.Valid S allow where
  refl := V.refl
  trans := V.trans
  compat := V.compat
  fresh := V.fresh
  start := fun t req s p s' hi hf _ hs => by
    obtain ⟨h₁, h₂, h₃⟩ := V.start t req s p s' hi hf trivial hs
    refine ⟨h₁, h₂, wp_restrict (wp_mono h₃ (fun r s hd s₁ hr hi _ => hd s₁ hr hi trivial))⟩
  kill := fun t s hi _ => V.kill t s hi trivial
  env := fun e s s' hi _ he => V.env e s s' hi trivial he

end Over

end Payments.Lib
