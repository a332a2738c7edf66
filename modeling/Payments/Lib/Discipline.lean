import Payments.Lib.RelyGuarantee

namespace Payments.Lib

/-- When a thread may perform an effect: what holds of every state, what the steps of the other
threads leave it with, and what it must have seen to before. -/
structure Discipline (σ Op : Type) where
  inv : σ → Prop
  rely : Tid → σ → σ → Prop
  due : Tid → σ → Op → Prop

variable {σ Op : Type} {Res : Op → Type} {ε α β Choice Req Env : Type}
variable (S : Sys σ Op Res ε α Choice Req Env) (D : Discipline σ Op) (t : Tid)

/-- From `s`, whatever the other threads do within the rely, thread `t` running `p` comes to each
of its effects where the effect is due, also to one that must wait, and ends in `Q`. -/
def abides : Prog Op Res ε β → (Except ε β → σ → Prop) → σ → Prop
  | .ret a, Q, s => Q (.ok a) s
  | .raise e, Q, s => Q (.error e) s
  | .call op k, Q, s => ∀ s₁, D.rely t s s₁ → D.inv s₁ → D.due t s₁ op ∧
      ∀ ch r s₂, S.exec t op ch s₁ = some (r, s₂) → abides (k r) Q s₂

variable {S D t}

section Rules

variable {p : Prog Op Res ε β} {Q Q' : Except ε β → σ → Prop} {s : σ} {γ : Type}

@[simp] theorem abides_ret (a : β) : abides S D t (.ret a) Q s ↔ Q (.ok a) s := Iff.rfl

@[simp] theorem abides_raise (e : ε) : abides S D t (.raise e) Q s ↔ Q (.error e) s := Iff.rfl

@[simp] theorem abides_ofExcept (r : Except ε β) :
    abides S D t (.ofExcept r) Q s ↔ Q r s := by
  cases r <;> rfl

theorem abides_mono (h : abides S D t p Q s) (hQ : ∀ r s, Q r s → Q' r s) :
    abides S D t p Q' s := by
  induction p generalizing s with
  | ret a => exact hQ _ _ h
  | raise e => exact hQ _ _ h
  | call op k ih =>
    intro s₁ hr hi
    obtain ⟨hd, hk⟩ := h s₁ hr hi
    exact ⟨hd, fun ch r s₂ he => ih r (hk ch r s₂ he)⟩

/-- A sequence, with what holds between its parts. -/
theorem abides_seq {f : β → Prog Op Res ε γ} {Q : Except ε γ → σ → Prop}
    (R : Except ε β → σ → Prop) (hp : abides S D t p R s)
    (hok : ∀ a s, R (.ok a) s → abides S D t (f a) Q s)
    (herr : ∀ e s, R (.error e) s → Q (.error e) s) : abides S D t (p.bind f) Q s := by
  induction p generalizing s with
  | ret a => exact hok a s hp
  | raise e => exact herr e s hp
  | call op k ih =>
    intro s₁ hr hi
    obtain ⟨hd, hk⟩ := hp s₁ hr hi
    exact ⟨hd, fun ch r s₂ he => ih r (hk ch r s₂ he)⟩

/-- A handler, with what holds where the program ends. -/
theorem abides_catch {f : ε → Prog Op Res ε β} (R : Except ε β → σ → Prop)
    (hp : abides S D t p R s) (hok : ∀ a s, R (.ok a) s → Q (.ok a) s)
    (herr : ∀ e s, R (.error e) s → abides S D t (f e) Q s) :
    abides S D t (p.handle f) Q s := by
  induction p generalizing s with
  | ret a => exact hok a s hp
  | raise e => exact herr e s hp
  | call op k ih =>
    intro s₁ hr hi
    obtain ⟨hd, hk⟩ := hp s₁ hr hi
    exact ⟨hd, fun ch r s₂ he => ih r (hk ch r s₂ he)⟩

theorem abides_outcome {Q : Except ε (Except ε β) → σ → Prop}
    (h : abides S D t p (fun r s => Q (.ok r) s) s) : abides S D t p.outcome Q s := by
  induction p generalizing s with
  | ret a => exact h
  | raise e => exact h
  | call op k ih =>
    intro s₁ hr hi
    obtain ⟨hd, hk⟩ := h s₁ hr hi
    exact ⟨hd, fun ch r s₂ he => ih r (hk ch r s₂ he)⟩

/-- One effect, from an assertion that the steps of the other threads keep. -/
theorem abides_perform {op : Op} {Q : Except ε (Res op) → σ → Prop} {P : σ → Prop} (hP : P s)
    (stable : ∀ s s', P s → D.rely t s s' → P s')
    (h : ∀ s₁, P s₁ → D.inv s₁ → D.due t s₁ op ∧
      ∀ ch r s₂, S.exec t op ch s₁ = some (r, s₂) → Q r s₂) :
    abides S D t (.perform op) Q s := by
  intro s₁ hr hi
  obtain ⟨hd, hq⟩ := h s₁ (stable _ _ hP hr) hi
  exact ⟨hd, fun ch r s₂ he => (abides_ofExcept r).mpr (hq ch r s₂ he)⟩

/-- A program whose effects are all due under a stable assertion that they keep. -/
theorem abides_only {A : σ → Prop} {P : Op → Prop} (hp : p.Only P) (hA : A s)
    (stable : ∀ s s', A s → D.rely t s s' → A s')
    (h : ∀ op, P op → ∀ s₁, A s₁ → D.inv s₁ → D.due t s₁ op ∧
      ∀ ch r s₂, S.exec t op ch s₁ = some (r, s₂) → A s₂) :
    abides S D t p (fun _ => A) s := by
  induction p generalizing s with
  | ret a => exact hA
  | raise e => exact hA
  | call op k ih =>
    intro s₁ hr hi
    obtain ⟨hd, hk⟩ := h op hp.1 s₁ (stable _ _ hA hr) hi
    exact ⟨hd, fun ch r s₂ he => ih r (hp.2 r) (hk ch r s₂ he)⟩

/-- What a contract tells of a program holds of it under a discipline that assumes as much. -/
theorem abides_with {C : Contract σ} (hinv : ∀ s, D.inv s → C.inv s)
    (hrely : ∀ s s', D.rely t s s' → C.rely t s s') (h : abides S D t p Q s)
    (h' : wp S (fun _ _ => True) C t p Q' s) :
    abides S D t p (fun r s => Q r s ∧ Q' r s) s := by
  induction p generalizing s with
  | ret a => exact ⟨h, h'⟩
  | raise e => exact ⟨h, h'⟩
  | call op k ih =>
    intro s₁ hr hi
    obtain ⟨hd, hk⟩ := h s₁ hr hi
    refine ⟨hd, fun ch r s₂ he => ih r (hk ch r s₂ he) ?_⟩
    exact (h' s₁ (hrely _ _ hr) (hinv _ hi) ch r s₂ trivial he).2.2

/-- What nobody breaks holds after any program that held it before. -/
theorem abides_frame {H : σ → Prop} (stable : ∀ s s', H s → D.rely t s s' → H s')
    (kept : ∀ op ch s r s', H s → S.exec t op ch s = some (r, s') → H s')
    (h : abides S D t p Q s) (hs : H s) : abides S D t p (fun r s => Q r s ∧ H s) s := by
  induction p generalizing s with
  | ret a => exact ⟨h, hs⟩
  | raise e => exact ⟨h, hs⟩
  | call op k ih =>
    intro s₁ hr hi
    obtain ⟨hd, hk⟩ := h s₁ hr hi
    exact ⟨hd, fun ch r s₂ he => ih r (hk ch r s₂ he) (kept _ _ _ _ _ (stable _ _ hs hr) he)⟩

theorem abides_rely {s' : σ} (h : abides S D t p Q s) (hs : D.rely t s s')
    (trans : ∀ s s' s'', D.rely t s s' → D.rely t s' s'' → D.rely t s s'')
    (stable : ∀ r s s', Q r s → D.rely t s s' → Q r s') : abides S D t p Q s' := by
  cases p with
  | ret a => exact stable _ _ _ h hs
  | raise e => exact stable _ _ _ h hs
  | call op k => exact fun s₁ hr => h s₁ (trans _ _ _ hs hr)

end Rules

/-- What has to hold of the steps of a run so that its threads stay disciplined. -/
structure Discipline.Kept (S : Sys σ Op Res ε α Choice Req Env)
    (allow : σ → Move Op Choice Req Env → Prop) (D : Discipline σ Op)
    (c₀ : Config σ Op Res ε α) : Prop where
  refl : ∀ t s, D.rely t s s
  trans : ∀ t s s' s'', D.rely t s s' → D.rely t s' s'' → D.rely t s s''
  inv : ∀ c, S.Reach allow c₀ c → D.inv c.shared
  others : ∀ c m c' t, S.Reach allow c₀ c → S.Step c m c' → c.threads t ≠ none →
    m.thread? ≠ some t → D.rely t c.shared c'.shared
  start : ∀ c t req c' p, S.Reach allow c₀ c → S.Step c (.start t req) c' →
    c'.threads t = some p → abides S D t p (fun _ _ => True) c'.shared

section Reach

variable {allow : σ → Move Op Choice Req Env → Prop} {c₀ c : Config σ Op Res ε α}

/-- What is left of the program of a running thread abides by the discipline. -/
theorem Discipline.Kept.abiding (K : D.Kept S allow c₀) (hc : ∀ t, c₀.threads t = none)
    (h : S.Reach allow c₀ c) : ∀ t p, c.threads t = some p →
      abides S D t p (fun _ _ => True) c.shared := by
  induction h with
  | init =>
    intro t p ht
    rw [hc t] at ht
    cases ht
  | @step c c' m hr _ hs ih =>
    intro t p ht
    by_cases hm : m.thread? = some t
    · cases hs with
      | run hu he =>
        cases hm
        cases (Function.update_self _ _ _).symm.trans ht
        exact (ih _ _ hu _ (K.refl _ _) (K.inv _ hr)).2 _ _ _ he
      | exit hu _ | kill hu =>
        cases hm
        cases (Function.update_self _ _ _).symm.trans ht
      | start he =>
        cases hm
        exact K.start _ _ _ _ _ hr (.start he) ht
      | env _ => cases hm
    · rw [hs.other hm] at ht
      have hrun : c.threads t ≠ none := by simp [ht]
      exact abides_rely (ih t p ht) (K.others _ _ _ t hr hs hrun hm) (K.trans t)
        (fun _ _ _ _ _ => trivial)

/-- In every reachable configuration the next effect of each thread is due. -/
theorem Discipline.Kept.due (K : D.Kept S allow c₀) (hc : ∀ t, c₀.threads t = none)
    (h : S.Reach allow c₀ c) {op : Op} {k : Except ε (Res op) → Prog Op Res ε α}
    (ht : c.threads t = some (.call op k)) : D.due t c.shared op :=
  (K.abiding hc h t _ ht _ (K.refl _ _) (K.inv _ h)).1

end Reach

end Payments.Lib
