import Mathlib.Data.List.Basic
import Mathlib.Data.List.Forall2

namespace Payments.Lib

theorem except_bind_ok {ε α β : Type} {x : Except ε α} {f : α → Except ε β} {b : β} :
    x.bind f = .ok b ↔ ∃ a, x = .ok a ∧ f a = .ok b := by
  cases x <;> simp [Except.bind]

theorem except_map_ok {ε α β : Type} {x : Except ε α} {f : α → β} {b : β} :
    x.map f = .ok b ↔ ∃ a, x = .ok a ∧ f a = b := by
  cases x <;> simp [Except.map]

/-- What a computation raises. -/
def raised {ε α : Type} : Except ε α → Option ε
  | .ok _ => none
  | .error e => some e

@[simp] theorem raised_ok {ε α : Type} (a : α) : raised (.ok a : Except ε α) = none := rfl

@[simp] theorem raised_error {ε α : Type} (e : ε) :
    raised (.error e : Except ε α) = some e := rfl

@[simp] theorem raised_map {ε α β : Type} (x : Except ε α) (f : α → β) :
    raised (x.map f) = raised x := by
  cases x <;> rfl

/-- A sequence raises what its first part raises, and then what the second part does. -/
theorem raised_bind {ε α β : Type} {x : Except ε α} {f : α → Except ε β} {o : Option ε}
    (h : ∀ a, x = .ok a → raised (f a) = o) : raised (x.bind f) = (raised x).or o := by
  cases x with
  | error e => rfl
  | ok a => exact h a rfl

/-- Each result of a traversal is the result of one of the elements. -/
theorem mem_mapM_ok {ε α β : Type} {f : α → Except ε β} {xs : List α} {ys : List β}
    (h : xs.mapM f = .ok ys) {y : β} (hy : y ∈ ys) : ∃ x ∈ xs, f x = .ok y := by
  induction xs generalizing ys with
  | nil =>
    cases h
    cases hy
  | cons x xs ih =>
    rw [List.mapM_cons] at h
    obtain ⟨z, hz, h⟩ := except_bind_ok.mp h
    obtain ⟨zs, hzs, h⟩ := except_bind_ok.mp h
    cases h
    rcases List.mem_cons.mp hy with rfl | hy
    · exact ⟨x, List.mem_cons_self, hz⟩
    · obtain ⟨x', hx', he⟩ := ih hzs hy
      exact ⟨x', List.mem_cons_of_mem _ hx', he⟩

/-- Of two lists that go together, each element has its partner. -/
theorem forall₂_mem {α β : Type} {R : α → β → Prop} {xs : List α} {ys : List β}
    (h : List.Forall₂ R xs ys) : (∀ x ∈ xs, ∃ y ∈ ys, R x y) ∧ ∀ y ∈ ys, ∃ x ∈ xs, R x y := by
  induction h with
  | nil => simp
  | cons hr _ ih =>
    constructor
    · intro x hx
      rcases List.mem_cons.mp hx with rfl | hx
      · exact ⟨_, List.mem_cons_self, hr⟩
      · obtain ⟨y, hy, hxy⟩ := ih.1 x hx
        exact ⟨y, List.mem_cons_of_mem _ hy, hxy⟩
    · intro y hy
      rcases List.mem_cons.mp hy with rfl | hy
      · exact ⟨_, List.mem_cons_self, hr⟩
      · obtain ⟨x, hx, hxy⟩ := ih.2 y hy
        exact ⟨x, List.mem_cons_of_mem _ hx, hxy⟩

/-- A traversal works where every element does. -/
theorem mapM_ok {ε α β : Type} {f : α → Except ε β} {xs : List α} {ys : List β} :
    xs.mapM f = .ok ys ↔ List.Forall₂ (fun x y => f x = .ok y) xs ys := by
  induction xs generalizing ys with
  | nil =>
    rw [List.forall₂_nil_left_iff, List.mapM_nil]
    exact ⟨fun h => (Except.ok.inj h).symm, fun h => h ▸ rfl⟩
  | cons x xs ih =>
    rw [List.mapM_cons, List.forall₂_cons_left_iff]
    constructor
    · intro h
      obtain ⟨y, hy, h⟩ := except_bind_ok.mp h
      obtain ⟨ys', hys, h⟩ := except_bind_ok.mp h
      exact ⟨y, ys', hy, ih.mp hys, (Except.ok.inj h).symm⟩
    · rintro ⟨y, ys', hy, hys, rfl⟩
      exact except_bind_ok.mpr ⟨y, hy, except_bind_ok.mpr ⟨ys', ih.mpr hys, rfl⟩⟩

/-- A program over the effects `Op`. An effect answers with a value of its result
type or with an exception, and the continuation sees which. -/
inductive Prog (Op : Type) (Res : Op → Type) (ε α : Type) where
  | ret (a : α) : Prog Op Res ε α
  | raise (e : ε) : Prog Op Res ε α
  | call (op : Op) (k : Except ε (Res op) → Prog Op Res ε α) : Prog Op Res ε α

namespace Prog

variable {Op : Type} {Res : Op → Type} {ε α β : Type}

def bind : Prog Op Res ε α → (α → Prog Op Res ε β) → Prog Op Res ε β
  | ret a, f => f a
  | raise e, _ => raise e
  | call op k, f => call op (fun r => (k r).bind f)

/-- Run a handler on the exception that escapes a program. -/
def handle : Prog Op Res ε α → (ε → Prog Op Res ε α) → Prog Op Res ε α
  | ret a, _ => ret a
  | raise e, h => h e
  | call op k, h => call op (fun r => (k r).handle h)

/-- The outcome of a value that is already computed. -/
def ofExcept : Except ε α → Prog Op Res ε α
  | .ok a => ret a
  | .error e => raise e

/-- Perform one effect and pass its outcome on. -/
def perform (op : Op) : Prog Op Res ε (Res op) :=
  call op ofExcept

/-- Run a program to its outcome, so that an escaping exception is a value. -/
def outcome : Prog Op Res ε α → Prog Op Res ε (Except ε α)
  | ret a => ret (.ok a)
  | raise e => ret (.error e)
  | call op k => call op (fun r => (k r).outcome)

/-- A program that has nothing left to do has a result. -/
def result? : Prog Op Res ε α → Option (Except ε α)
  | ret a => some (.ok a)
  | raise e => some (.error e)
  | call _ _ => none

instance : Monad (Prog Op Res ε) where
  pure := ret
  bind := bind

instance : MonadExceptOf ε (Prog Op Res ε) where
  throw := raise
  tryCatch := handle

@[simp] theorem pure_eq (a : α) : (pure a : Prog Op Res ε α) = ret a := rfl

@[simp] theorem bind_eq (p : Prog Op Res ε α) (f : α → Prog Op Res ε β) :
    (p >>= f) = p.bind f := rfl

@[simp] theorem throw_eq (e : ε) : (throw e : Prog Op Res ε α) = raise e := rfl

@[simp] theorem tryCatch_eq (p : Prog Op Res ε α) (h : ε → Prog Op Res ε α) :
    tryCatch p h = p.handle h := rfl

@[simp] theorem ofExcept_ok_bind (a : α) (f : α → Prog Op Res ε β) :
    (ofExcept (.ok a)).bind f = f a := rfl

@[simp] theorem ofExcept_error_bind (e : ε) (f : α → Prog Op Res ε β) :
    (ofExcept (.error e)).bind f = raise e := rfl

theorem bind_assoc {γ : Type} (p : Prog Op Res ε α) (f : α → Prog Op Res ε β)
    (g : β → Prog Op Res ε γ) : (p.bind f).bind g = p.bind (fun a => (f a).bind g) := by
  induction p with
  | ret a => rfl
  | raise e => rfl
  | call op k ih => exact congrArg (call op) (funext ih)

/-- Every effect that a program can perform, whatever the answers, satisfies `P`. -/
def Only (P : Op → Prop) : Prog Op Res ε α → Prop
  | ret _ => True
  | raise _ => True
  | call op k => P op ∧ ∀ r, (k r).Only P

section Only

variable {P : Op → Prop}

@[simp] theorem only_ret (a : α) : (ret a : Prog Op Res ε α).Only P := trivial

@[simp] theorem only_raise (e : ε) : (raise e : Prog Op Res ε α).Only P := trivial

@[simp] theorem only_ofExcept (r : Except ε α) :
    (ofExcept r : Prog Op Res ε α).Only P := by
  cases r <;> trivial

@[simp] theorem only_perform (op : Op) :
    (perform op : Prog Op Res ε (Res op)).Only P ↔ P op :=
  ⟨fun h => h.1, fun h => ⟨h, fun r => only_ofExcept r⟩⟩

theorem Only.bind {p : Prog Op Res ε α} {f : α → Prog Op Res ε β} (hp : p.Only P)
    (hf : ∀ a, (f a).Only P) : (p.bind f).Only P := by
  induction p with
  | ret a => exact hf a
  | raise e => trivial
  | call op k ih => exact ⟨hp.1, fun r => ih r (hp.2 r)⟩

theorem Only.handle {p : Prog Op Res ε α} {h : ε → Prog Op Res ε α} (hp : p.Only P)
    (hh : ∀ e, (h e).Only P) : (p.handle h).Only P := by
  induction p with
  | ret a => trivial
  | raise e => exact hh e
  | call op k ih => exact ⟨hp.1, fun r => ih r (hp.2 r)⟩

theorem Only.outcome {p : Prog Op Res ε α} (hp : p.Only P) : p.outcome.Only P := by
  induction p with
  | ret a => trivial
  | raise e => trivial
  | call op k ih => exact ⟨hp.1, fun r => ih r (hp.2 r)⟩

theorem Only.mono {P' : Op → Prop} {p : Prog Op Res ε α} (hp : p.Only P)
    (h : ∀ op, P op → P' op) : p.Only P' := by
  induction p with
  | ret a => trivial
  | raise e => trivial
  | call op k ih => exact ⟨h op hp.1, fun r => ih r (hp.2 r)⟩

theorem Only.and {P' : Op → Prop} {p : Prog Op Res ε α} (hp : p.Only P) (hp' : p.Only P') :
    p.Only (fun op => P op ∧ P' op) := by
  induction p with
  | ret a => trivial
  | raise e => trivial
  | call op k ih => exact ⟨⟨hp.1, hp'.1⟩, fun r => ih r (hp.2 r) (hp'.2 r)⟩

theorem only_true (p : Prog Op Res ε α) : p.Only (fun _ => True) := by
  induction p with
  | ret a => trivial
  | raise e => trivial
  | call op k ih => exact ⟨trivial, ih⟩

end Only

section Straight

/-- An effect that fails ends the program with its exception. -/
def Straight : Prog Op Res ε α → Prop
  | ret _ => True
  | raise _ => True
  | call _ k => (∀ e, k (.error e) = raise e) ∧ ∀ a, (k (.ok a)).Straight

@[simp] theorem straight_ofExcept (r : Except ε α) : (ofExcept r : Prog Op Res ε α).Straight := by
  cases r <;> trivial

@[simp] theorem straight_perform (op : Op) : (perform op : Prog Op Res ε (Res op)).Straight :=
  ⟨fun _ => rfl, fun _ => trivial⟩

theorem Straight.bind {p : Prog Op Res ε α} {f : α → Prog Op Res ε β} (hp : p.Straight)
    (hf : ∀ a, (f a).Straight) : (p.bind f).Straight := by
  induction p with
  | ret a => exact hf a
  | raise e => trivial
  | call op k ih =>
    exact ⟨fun e => congrArg (fun q => q.bind f) (hp.1 e), fun a => ih _ (hp.2 a)⟩

end Straight

section Smooth

/-- A program that raises nothing of its own as long as its effects do not. -/
def Smooth : Prog Op Res ε α → Prop
  | ret _ => True
  | raise _ => False
  | call _ k => ∀ a, (k (.ok a)).Smooth

@[simp] theorem smooth_perform (op : Op) : (perform op : Prog Op Res ε (Res op)).Smooth :=
  fun _ => trivial

theorem Smooth.bind {p : Prog Op Res ε α} {f : α → Prog Op Res ε β} (hp : p.Smooth)
    (hf : ∀ a, (f a).Smooth) : (p.bind f).Smooth := by
  induction p with
  | ret a => exact hf a
  | raise e => exact hp.elim
  | call op k ih => exact fun a => ih _ (hp a)

theorem Smooth.handle {p : Prog Op Res ε α} {h : ε → Prog Op Res ε α} (hp : p.Smooth) :
    (p.handle h).Smooth := by
  induction p with
  | ret a => trivial
  | raise e => exact hp.elim
  | call op k ih => exact fun a => ih _ (hp a)

end Smooth

section AtMost

variable {P : Op → Prop} [DecidablePred P] {m n : Nat}

/-- On each of its paths a program performs at most `n` effects that satisfy `P`. -/
def AtMost (P : Op → Prop) [DecidablePred P] : Nat → Prog Op Res ε α → Prop
  | _, ret _ => True
  | _, raise _ => True
  | n, call op k => (P op → 0 < n) ∧ ∀ r, (k r).AtMost P (if P op then n - 1 else n)

theorem Only.atMost {p : Prog Op Res ε α} (hp : p.Only (fun op => ¬ P op)) : p.AtMost P n := by
  induction p with
  | ret a => trivial
  | raise e => trivial
  | call op k ih =>
    refine ⟨fun h => absurd h hp.1, fun r => ?_⟩
    rw [if_neg hp.1]
    exact ih r (hp.2 r)

/-- A program that may perform none of the effects performs others only. -/
theorem AtMost.only {p : Prog Op Res ε α} (hp : p.AtMost P 0) : p.Only (fun op => ¬ P op) := by
  induction p with
  | ret a => trivial
  | raise e => trivial
  | call op k ih =>
    have hno : ¬ P op := fun h => absurd (hp.1 h) (Nat.lt_irrefl 0)
    refine ⟨hno, fun r => ih r ?_⟩
    have hr := hp.2 r
    rwa [if_neg hno] at hr

theorem atMost_perform {op : Op} : (perform op : Prog Op Res ε (Res op)).AtMost P 1 := by
  refine ⟨fun _ => Nat.one_pos, fun r => ?_⟩
  cases r <;> trivial

theorem AtMost.mono {p : Prog Op Res ε α} (hp : p.AtMost P m) (h : m ≤ n) : p.AtMost P n := by
  induction p generalizing m n with
  | ret a => trivial
  | raise e => trivial
  | call op k ih =>
    refine ⟨fun ho => Nat.lt_of_lt_of_le (hp.1 ho) h, fun r => ih r (hp.2 r) ?_⟩
    split <;> omega

theorem AtMost.spent {op : Op} (h : P op → 0 < m) :
    (if P op then m - 1 else m) + n ≤ if P op then m + n - 1 else m + n := by
  by_cases ho : P op
  · have := h ho
    simp only [if_pos ho]
    omega
  · simp only [if_neg ho]
    omega

theorem AtMost.bind {p : Prog Op Res ε α} {f : α → Prog Op Res ε β} (hp : p.AtMost P m)
    (hf : ∀ a, (f a).AtMost P n) : (p.bind f).AtMost P (m + n) := by
  induction p generalizing m with
  | ret a => exact (hf a).mono (Nat.le_add_left n m)
  | raise e => trivial
  | call op k ih =>
    exact ⟨fun ho => Nat.add_pos_left (hp.1 ho) n, fun r => (ih r (hp.2 r)).mono (spent hp.1)⟩

theorem AtMost.handle {p : Prog Op Res ε α} {h : ε → Prog Op Res ε α} (hp : p.AtMost P m)
    (hh : ∀ e, (h e).AtMost P n) : (p.handle h).AtMost P (m + n) := by
  induction p generalizing m with
  | ret a => trivial
  | raise e => exact (hh e).mono (Nat.le_add_left n m)
  | call op k ih =>
    exact ⟨fun ho => Nat.add_pos_left (hp.1 ho) n, fun r => (ih r (hp.2 r)).mono (spent hp.1)⟩

theorem AtMost.outcome {p : Prog Op Res ε α} (hp : p.AtMost P m) : p.outcome.AtMost P m := by
  induction p generalizing m with
  | ret a => trivial
  | raise e => trivial
  | call op k ih => exact ⟨hp.1, fun r => ih r (hp.2 r)⟩

end AtMost

end Prog

end Payments.Lib
