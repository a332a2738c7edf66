import Payments.Lib.Program

namespace Payments.Lib.Prog

variable {Op : Type} {Res : Op → Type} {ε α β : Type}

section Replay

variable (answers : Nat → (op : Op) → Except ε (Res op))

/-- Run a program on answers that are given in turn: the effects that it performs, and its
outcome. -/
def replay : Nat → Prog Op Res ε α → List Op × Except ε α
  | _, ret a => ([], .ok a)
  | _, raise e => ([], .error e)
  | n, call op k =>
    let later := replay (n + 1) (k (answers n op))
    (op :: later.1, later.2)

@[simp] theorem replay_ret (n : Nat) (a : α) :
    (ret a : Prog Op Res ε α).replay answers n = ([], .ok a) := rfl

@[simp] theorem replay_raise (n : Nat) (e : ε) :
    (raise e : Prog Op Res ε α).replay answers n = ([], .error e) := rfl

@[simp] theorem replay_ofExcept (n : Nat) (r : Except ε α) :
    (ofExcept r : Prog Op Res ε α).replay answers n = ([], r) := by
  cases r <;> rfl

theorem replay_bind (p : Prog Op Res ε α) (f : α → Prog Op Res ε β) (n : Nat) :
    (p.bind f).replay answers n = match p.replay answers n with
      | (ops, .ok a) =>
        (ops ++ ((f a).replay answers (n + ops.length)).1, ((f a).replay answers (n + ops.length)).2)
      | (ops, .error e) => (ops, .error e) := by
  induction p generalizing n with
  | ret a => simp [bind]
  | raise e => rfl
  | call op k ih =>
    simp only [bind, replay, ih]
    cases hr : (k (answers n op)).replay answers (n + 1) with
    | mk ops r =>
      cases r with
      | ok a => simp [Nat.add_assoc, Nat.add_comm 1]
      | error e => rfl

theorem replay_handle (p : Prog Op Res ε α) (h : ε → Prog Op Res ε α) (n : Nat) :
    (p.handle h).replay answers n = match p.replay answers n with
      | (ops, .ok a) => (ops, .ok a)
      | (ops, .error e) =>
        (ops ++ ((h e).replay answers (n + ops.length)).1,
          ((h e).replay answers (n + ops.length)).2) := by
  induction p generalizing n with
  | ret a => rfl
  | raise e => simp [handle]
  | call op k ih =>
    simp only [handle, replay, ih]
    cases hr : (k (answers n op)).replay answers (n + 1) with
    | mk ops r =>
      cases r with
      | ok a => rfl
      | error e => simp [Nat.add_assoc, Nat.add_comm 1]

end Replay

/-- One effect, whose answer decides the outcome. -/
def attempt (op : Op) (f : Except ε (Res op) → Except ε α) : Prog Op Res ε α :=
  call op (fun r => ofExcept (f r))

/-- Run a program again while it raises what is to be retried, as often as is left. The last
exception is raised. -/
def retry (on : ε → Bool) (p : Prog Op Res ε α) : Nat → Prog Op Res ε α
  | 0 => p
  | left + 1 => p.handle (fun e => if on e then retry on p left else raise e)

variable {answers : Nat → (op : Op) → Except ε (Res op)} {on : ε → Bool} {op : Op}
  {f : Except ε (Res op) → Except ε α}

/-- The attempts end with the first one that is not retried, or with the last one. -/
theorem replay_retry {left i : Nat} (hi : i ≤ left) (n : Nat)
    (hbefore : ∀ j < i, ∃ e, f (answers (n + j) op) = .error e ∧ on e = true)
    (hlast : i < left → ∀ e, f (answers (n + i) op) = .error e → on e = false) :
    (retry on (attempt op f) left).replay answers n =
      (List.replicate (i + 1) op, f (answers (n + i) op)) := by
  induction left generalizing i n with
  | zero =>
    obtain rfl := Nat.le_zero.mp hi
    simp [retry, attempt, replay]
  | succ left ih =>
    have hfirst : (attempt op f).replay answers n = ([op], f (answers n op)) := by
      simp [attempt, replay]
    rw [retry, replay_handle, hfirst]
    cases i with
    | zero =>
      cases hr : f (answers n op) with
      | ok a => simp
      | error e => simp [hlast (Nat.succ_pos left) e hr]
    | succ i =>
      obtain ⟨e, he, hon⟩ := hbefore 0 (Nat.succ_pos i)
      have hrest := ih (Nat.le_of_succ_le_succ hi) (n + 1)
        (fun j hj => by
          have hb := hbefore (j + 1) (Nat.succ_lt_succ hj)
          rwa [← Nat.add_assoc, Nat.add_right_comm] at hb)
        (fun hlt e' he' => hlast (Nat.succ_lt_succ hlt) e' (by
          rwa [← Nat.add_assoc, Nat.add_right_comm]))
      rw [Nat.add_zero] at he
      simp only [he, hon, ↓reduceIte, List.length_singleton, hrest]
      rw [← Nat.add_assoc, Nat.add_right_comm n i 1]
      rfl

end Payments.Lib.Prog
