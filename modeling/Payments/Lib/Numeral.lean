import Mathlib.Algebra.Group.Nat.Defs
import Mathlib.Data.List.Forall2

namespace Payments.Lib

/-- The digit that a character stands for, in any base up to sixteen. -/
def digitValue (c : Char) : Option Nat :=
  if '0' ≤ c ∧ c ≤ '9' then some (c.toNat - 48)
  else if 'a' ≤ c ∧ c ≤ 'f' then some (c.toNat - 87)
  else if 'A' ≤ c ∧ c ≤ 'F' then some (c.toNat - 55)
  else none

/-- Read digits onto the number read so far. -/
def readDigits (b : Nat) (acc : Nat) : List Char → Option Nat
  | [] => some acc
  | c :: cs =>
    match digitValue c with
    | some d => if d < b then readDigits b (b * acc + d) cs else none
    | none => none

/-- The last `w` digits of a number, with leading zeros. -/
def padded (b : Nat) : Nat → Nat → List Char
  | 0, _ => []
  | w + 1, n => padded b w (n / b) ++ [Nat.digitChar (n % b)]

theorem digit_value {d : Nat} (h : d < 16) : digitValue (Nat.digitChar d) = some d := by
  have hall : ∀ e ∈ List.range 16, digitValue (Nat.digitChar e) = some e := by decide
  exact hall d (List.mem_range.mpr h)

theorem read_append (b : Nat) (cs ds : List Char) (acc : Nat) :
    readDigits b acc (cs ++ ds) = (readDigits b acc cs).bind (fun n => readDigits b n ds) := by
  induction cs generalizing acc with
  | nil => rfl
  | cons c cs ih =>
    simp only [List.cons_append, readDigits]
    split
    · split
      · exact ih _
      · rfl
    · rfl

theorem read_digit {b d : Nat} (hb : b ≤ 16) (hd : d < b) (acc : Nat) :
    readDigits b acc [Nat.digitChar d] = some (b * acc + d) := by
  simp [readDigits, digit_value (Nat.lt_of_lt_of_le hd hb), hd]

theorem read_padded {b : Nat} (h₁ : 1 < b) (h₂ : b ≤ 16) (w n : Nat) (hn : n < b ^ w) :
    readDigits b 0 (padded b w n) = some n := by
  induction w generalizing n with
  | zero =>
    have : n = 0 := by simpa using hn
    subst n
    rfl
  | succ w ih =>
    have hq : n / b < b ^ w := by
      rw [Nat.pow_succ] at hn
      exact Nat.div_lt_of_lt_mul (by rwa [Nat.mul_comm])
    rw [padded, read_append, ih _ hq]
    simp only [Option.bind_some]
    rw [read_digit h₂ (Nat.mod_lt _ (by omega)), Nat.div_add_mod]

theorem read_toDigits {b : Nat} (h₁ : 1 < b) (h₂ : b ≤ 16) (n : Nat) :
    readDigits b 0 (Nat.toDigits b n) = some n := by
  induction n using Nat.strongRecOn with
  | ind n ih =>
    rw [Nat.toDigits_eq_if h₁]
    split
    · rename_i h
      simpa using read_digit h₂ h 0
    · rename_i h
      have hlt : n / b < n := Nat.div_lt_self (by omega) h₁
      rw [read_append, ih _ hlt]
      simp only [Option.bind_some]
      rw [read_digit h₂ (Nat.mod_lt _ (by omega)), Nat.div_add_mod]

theorem toDigits_injective {b m n : Nat} (h₁ : 1 < b) (h₂ : b ≤ 16)
    (h : Nat.toDigits b m = Nat.toDigits b n) : m = n := by
  have hr := read_toDigits h₁ h₂ m
  rw [h, read_toDigits h₁ h₂ n] at hr
  exact (Option.some.inj hr).symm

/-- Leading zeros do not change the number read. -/
theorem read_zeros {b : Nat} (hb : 0 < b) (k : Nat) (cs : List Char) :
    readDigits b 0 (List.replicate k '0' ++ cs) = readDigits b 0 cs := by
  induction k with
  | zero => rfl
  | succ k ih =>
    have hz : digitValue '0' = some 0 := by decide
    simpa [List.replicate_succ, readDigits, hz, hb] using ih

@[simp] theorem padded_length (b w n : Nat) : (padded b w n).length = w := by
  induction w generalizing n with
  | zero => rfl
  | succ w ih => simp [padded, ih]

/-- A field of `w` digits at the front of a text, and the text after it. -/
def takeNumber (b w : Nat) (cs : List Char) : Option (Nat × List Char) :=
  if w ≤ cs.length then (readDigits b 0 (cs.take w)).map (fun n => (n, cs.drop w)) else none

/-- Numbers in fixed-width fields, each behind its own separator. -/
def writeFields (b : Nat) : List (List Char × Nat) → List Nat → List Char
  | (sep, w) :: fs, n :: ns => sep ++ (padded b w n ++ writeFields b fs ns)
  | _, _ => []

/-- Read the numbers of fixed-width fields, and give the text after the last of them. -/
def takeFields (b : Nat) : List (List Char × Nat) → List Char → Option (List Nat × List Char)
  | [], cs => some ([], cs)
  | (sep, w) :: fs, cs =>
    if cs.take sep.length = sep then
      (takeNumber b w (cs.drop sep.length)).bind (fun (n, cs) =>
        (takeFields b fs cs).map (fun (ns, cs) => (n :: ns, cs)))
    else none

theorem take_padded {b : Nat} (h₁ : 1 < b) (h₂ : b ≤ 16) {w n : Nat} (hn : n < b ^ w)
    (cs : List Char) : takeNumber b w (padded b w n ++ cs) = some (n, cs) := by
  have hl := padded_length b w n
  have ht : (padded b w n ++ cs).take w = padded b w n := by
    rw [List.take_append_of_le_length (by omega), List.take_of_length_le (by omega)]
  have hd : (padded b w n ++ cs).drop w = cs := by
    rw [List.drop_append_of_le_length (by omega), List.drop_of_length_le (by omega)]
    rfl
  simp [takeNumber, hl, ht, hd, read_padded h₁ h₂ w n hn]

/-- Fields that hold the numbers written into them are read back. -/
theorem take_fields {b : Nat} (h₁ : 1 < b) (h₂ : b ≤ 16) (fs : List (List Char × Nat))
    (ns : List Nat) (hn : List.Forall₂ (fun f n => n < b ^ f.2) fs ns) (cs : List Char) :
    takeFields b fs (writeFields b fs ns ++ cs) = some (ns, cs) := by
  induction hn with
  | nil => rfl
  | @cons f n fs ns h _ ih =>
    obtain ⟨sep, w⟩ := f
    have htake : ∀ rest : List Char, (sep ++ rest).take sep.length = sep := by simp
    have hdrop : ∀ rest : List Char, (sep ++ rest).drop sep.length = rest := by simp
    simp only [writeFields, takeFields, List.append_assoc]
    rw [if_pos (htake _), hdrop, take_padded h₁ h₂ h]
    simp only [Option.bind_some]
    rw [ih]
    rfl

end Payments.Lib
