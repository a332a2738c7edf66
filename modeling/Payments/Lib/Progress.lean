import Payments.Lib.Threads

namespace Payments.Lib.Sys

variable {σ Op : Type} {Res : Op → Type} {ε α Choice Req Env : Type}

/-- The thread can make a step of its own that is allowed. -/
def Moves (S : Sys σ Op Res ε α Choice Req Env) (allow : σ → Move Op Choice Req Env → Prop)
    (c : Config σ Op Res ε α) (t : Tid) : Prop :=
  ∃ m c', m.thread? = some t ∧ allow c.shared m ∧ S.Step c m c'

variable {S : Sys σ Op Res ε α Choice Req Env} {allow : σ → Move Op Choice Req Env → Prop}
  {c : Config σ Op Res ε α} {t : Tid} {m n : Nat}

/-- A thread that can go on wherever it comes to goes on until something is so or it comes to its
end, and spends no more than its program may. -/
theorem runs_on {P : Op → Prop} [DecidablePred P] {I : Nat → Config σ Op Res ε α → Prop}
    {E : Config σ Op Res ε α → Prop} (hmono : ∀ n m c, m ≤ n → I n c → I m c)
    (hgo : ∀ n c op k, I n c → ¬ E c → c.threads t = some (.call op k) → (P op → 0 < n) →
      ∃ ch r s, allow c.shared (.run t op ch) ∧ S.exec t op ch c.shared = some (r, s) ∧
        I (if P op then n - 1 else n) (c.put t (some (k r)) s))
    {p : Prog Op Res ε α} (hp : p.AtMost P n) (ht : c.threads t = some p) (h : I (n + m) c) :
    ∃ c', S.Reach allow c c' ∧ I m c' ∧ (∀ u, t ≠ u → c'.threads u = c.threads u) ∧
      (E c' ∨ ∃ q r, c'.threads t = some q ∧ q.result? = some r) := by
  induction p generalizing c n with
  | ret a => exact ⟨c, .init, hmono _ _ _ (Nat.le_add_left m n) h, fun _ _ => rfl,
      .inr ⟨_, _, ht, rfl⟩⟩
  | raise e => exact ⟨c, .init, hmono _ _ _ (Nat.le_add_left m n) h, fun _ _ => rfl,
      .inr ⟨_, _, ht, rfl⟩⟩
  | call op k ih =>
    by_cases hstop : E c
    · exact ⟨c, .init, hmono _ _ _ (Nat.le_add_left m n) h, fun _ _ => rfl, .inl hstop⟩
    · have hspend : P op → 0 < n + m := fun ho => Nat.add_pos_left (hp.1 ho) m
      obtain ⟨ch, r, s, ha, he, hI⟩ := hgo (n + m) c op k h hstop ht hspend
      have hbudget : (if P op then n + m - 1 else n + m) = (if P op then n - 1 else n) + m := by
        by_cases ho : P op
        · have := hp.1 ho
          simp only [if_pos ho]
          omega
        · simp only [if_neg ho]
      rw [hbudget] at hI
      obtain ⟨c', hr, hI', hother, hend⟩ := ih r (hp.2 r) (Function.update_self _ _ _) hI
      refine ⟨c', (Reach.init.step ha (.run ht he)).trans hr, hI', fun u hu => ?_, hend⟩
      rw [hother u hu]
      exact Function.update_of_ne (Ne.symm hu) _ _

/-- What a program comes to alone its thread comes to, while the others wait. -/
theorem Runs.reach {p : Prog Op Res ε α} {s s' : σ} {r : Except ε α} (h : S.Runs allow t p s r s')
    (ht : c.threads t = some p) (hs : c.shared = s) :
    ∃ c' q, S.Reach allow c c' ∧ c'.shared = s' ∧ c'.threads t = some q ∧ q.result? = some r ∧
      c'.next = c.next ∧ ∀ u, t ≠ u → c'.threads u = c.threads u := by
  induction h generalizing c with
  | ret a s => exact ⟨c, _, .init, hs, ht, rfl, rfl, fun _ _ => rfl⟩
  | raise e s => exact ⟨c, _, .init, hs, ht, rfl, rfl, fun _ _ => rfl⟩
  | @call op k ch r s s' s'' r' ha he _ ih =>
    subst hs
    have hput : (c.put t (some (k r)) s').threads t = some (k r) := Function.update_self _ _ _
    obtain ⟨c', q, hr, hs', hq, hres, hn, hother⟩ := ih hput rfl
    refine ⟨c', q, (Reach.init.step ha (.run ht he)).trans hr, hs', hq, hres, hn, fun u hu => ?_⟩
    rw [hother u hu]
    exact Function.update_of_ne (Ne.symm hu) _ _

/-- What the effects of a program keep a run of it keeps. -/
theorem Runs.keeps {β : Type} {P : Op → Prop} {I : σ → Prop} {p : Prog Op Res ε β} {s s' : σ}
    {r : Except ε β} (h : S.Runs allow t p s r s') (hp : p.Only P)
    (hI : ∀ op ch s r s', P op → S.exec t op ch s = some (r, s') → I s → I s') (hs : I s) :
    I s' := by
  induction h with
  | ret | raise => exact hs
  | call _ he _ ih => exact ih (hp.2 _) (hI _ _ _ _ _ hp.1 he hs)

/-- What can be done for each thread on its own, and is not undone by doing it for another, can be
done for all of them. -/
theorem sweep {I : Nat → Config σ Op Res ε α → Prop} {D : Tid → Config σ Op Res ε α → Prop}
    {b : Nat} {l : List Tid} (hone : ∀ t ∈ l, ∀ n c, I (n + b) c →
      ∃ c', S.Reach allow c c' ∧ I n c' ∧ D t c' ∧ ∀ u, D u c → D u c')
    (h : I (n + l.length * b) c) :
    ∃ c', S.Reach allow c c' ∧ I n c' ∧ (∀ t ∈ l, D t c') ∧ ∀ u, D u c → D u c' := by
  induction l generalizing c with
  | nil => exact ⟨c, .init, by simpa using h, fun _ ht => (by cases ht), fun _ hd => hd⟩
  | cons t l ih =>
    have hbudget : n + (t :: l).length * b = n + l.length * b + b := by
      rw [List.length_cons, Nat.succ_mul, Nat.add_assoc]
    rw [hbudget] at h
    obtain ⟨c₁, hr₁, h₁, ht₁, hkeep₁⟩ := hone t List.mem_cons_self _ c h
    obtain ⟨c₂, hr₂, h₂, hts, hkeep₂⟩ := ih (fun u hu => hone u (List.mem_cons_of_mem _ hu)) h₁
    refine ⟨c₂, hr₁.trans hr₂, h₂, fun u hu => ?_, fun u hd => hkeep₂ u (hkeep₁ u hd)⟩
    rcases List.mem_cons.mp hu with rfl | hu
    · exact hkeep₂ u ht₁
    · exact hts u hu

/-- What holds of the programs that start, and of what is left of a program after an effect, holds
of every running thread. -/
theorem Reach.programs {F : Prog Op Res ε α → Prop} {c₀ : Config σ Op Res ε α}
    (h : S.Reach allow c₀ c) (h₀ : ∀ t p, c₀.threads t = some p → F p)
    (hstart : ∀ t req s p s', S.start t req s = some (p, s') → F p)
    (hcall : ∀ op k r, F (.call op k) → F (k r)) : ∀ t p, c.threads t = some p → F p := by
  induction h with
  | init => exact h₀
  | @step c c' m _ _ hs ih =>
    intro t p ht
    by_cases hm : m.thread? = some t
    · cases hs with
      | run hu _ =>
        cases hm
        cases (Function.update_self _ _ _).symm.trans ht
        exact hcall _ _ _ (ih _ _ hu)
      | exit hu _ | kill hu =>
        cases hm
        cases (Function.update_self _ _ _).symm.trans ht
      | start he =>
        cases hm
        cases (Function.update_self _ _ _).symm.trans ht
        exact hstart _ _ _ _ _ he
      | env _ => cases hm
    · exact ih t p (hs.other hm ▸ ht)

end Payments.Lib.Sys
