import Mathlib.Data.List.TakeDrop
import Mathlib.Data.Rat.Defs
import Mathlib.Algebra.Order.Field.Rat
import Mathlib.Tactic.NormNum
import Payments.Lib.Numeral

namespace Payments

open Lib

/-- A UUID of the standard library, by its 128 bits. -/
structure UUID where
  int : BitVec 128
  deriving DecidableEq

namespace UUID

/-- `UUID.version`, which is none outside the RFC 4122 variant. -/
def version (u : UUID) : Option Nat :=
  if u.int.getLsbD 63 = true ∧ u.int.getLsbD 62 = false then
    some ((u.int.toNat / 2 ^ 76) % 16)
  else none

def hex (u : UUID) : List Char := padded 16 32 u.int.toNat

/-- `str(UUID)`. -/
def str (u : UUID) : String :=
  String.ofList (u.hex.take 8 ++ '-' :: ((u.hex.drop 8).take 4 ++ '-' :: ((u.hex.drop 12).take 4 ++
    '-' :: ((u.hex.drop 16).take 4 ++ '-' :: u.hex.drop 20))))

/-- `UUID(hex)`: hyphens may stand anywhere. The `urn:uuid:` spelling, which no part of
the service writes, is left out. -/
def parse (s : String) : Option UUID :=
  let digits := s.toList.filter (fun c => c ≠ '-')
  if digits.length = 32 then (readDigits 16 0 digits).map (fun n => ⟨BitVec.ofNat 128 n⟩) else none

theorem parse_str (u : UUID) : parse u.str = some u := by
  have hd : ∀ w n, ∀ c ∈ padded 16 w n, c ≠ '-' := by
    intro w
    induction w with
    | zero => simp [padded]
    | succ w ih =>
      intro n c hc
      rcases List.mem_append.mp hc with hc | hc
      · exact ih _ c hc
      · have hlt : n % 16 < 16 := Nat.mod_lt _ (by decide)
        have hall : ∀ e ∈ List.range 16, Nat.digitChar e ≠ '-' := by decide
        rw [List.mem_singleton.mp hc]
        exact hall _ (List.mem_range.mpr hlt)
  have hf : ∀ cs : List Char, (∀ c ∈ cs, c ∈ u.hex) → cs.filter (fun c => c ≠ '-') = cs := by
    intro cs h
    exact List.filter_eq_self.mpr (fun c hc => by simpa using hd _ _ c (h c hc))
  have ht : ∀ i j, ∀ c ∈ (u.hex.drop i).take j, c ∈ u.hex :=
    fun i j c hc => List.mem_of_mem_drop (List.mem_of_mem_take hc)
  have hs : u.str.toList.filter (fun c => c ≠ '-') = u.hex := by
    simp only [str, String.toList_ofList, List.filter_append, List.filter_cons, ne_eq, not_true,
      decide_false, Bool.false_eq_true, ↓reduceIte]
    have h₁ := hf _ (ht 0 8)
    have h₂ := hf _ (ht 8 4)
    have h₃ := hf _ (ht 12 4)
    have h₄ := hf _ (ht 16 4)
    have h₅ := hf (u.hex.drop 20) (fun c hc => List.mem_of_mem_drop hc)
    simp only [List.drop_zero] at h₁
    simp only [ne_eq] at h₁ h₂ h₃ h₄ h₅
    rw [h₁, h₂, h₃, h₄, h₅]
    have e₄ : (u.hex.drop 16).take 4 ++ u.hex.drop 20 = u.hex.drop 16 := by
      simpa using List.take_append_drop 4 (u.hex.drop 16)
    have e₃ : (u.hex.drop 12).take 4 ++ u.hex.drop 16 = u.hex.drop 12 := by
      simpa using List.take_append_drop 4 (u.hex.drop 12)
    have e₂ : (u.hex.drop 8).take 4 ++ u.hex.drop 12 = u.hex.drop 8 := by
      simpa using List.take_append_drop 4 (u.hex.drop 8)
    rw [e₄, e₃, e₂, List.take_append_drop]
  have hl : u.hex.length = 32 := padded_length 16 32 _
  have hr : readDigits 16 0 u.hex = some u.int.toNat :=
    read_padded (by decide) (by decide) 32 _ u.int.isLt
  unfold parse
  simp only [hs, hl, hr]
  simp

end UUID

/-- `datetime.timezone.utc` datetimes, the only ones the service builds. -/
structure DateTime where
  year : Nat
  month : Nat
  day : Nat
  hour : Nat
  minute : Nat
  second : Nat
  microsecond : Nat
  bounds : year ≤ 9999 ∧ 1 ≤ month ∧ month ≤ 12 ∧ 1 ≤ day ∧ day ≤ 31 ∧
    hour < 24 ∧ minute < 60 ∧ second < 60 ∧ microsecond < 1000000
  deriving DecidableEq

namespace DateTime

/-- The place of an instant in time, for `ORDER BY`. -/
def ordinal (t : DateTime) : Nat :=
  (((((t.year * 12 + (t.month - 1)) * 31 + (t.day - 1)) * 24 + t.hour) * 60 + t.minute) * 60 +
    t.second) * 1000000 + t.microsecond

/-- The fields of an ISO date and time, down to the second. -/
def isoFields : List (List Char × Nat) :=
  [([], 4), (['-'], 2), (['-'], 2), (['T'], 2), ([':'], 2), ([':'], 2)]

/-- `datetime.isoformat()`, which drops a zero microsecond field. -/
def isoformat (t : DateTime) : String :=
  String.ofList (writeFields 10 isoFields [t.year, t.month, t.day, t.hour, t.minute, t.second] ++
    ((if t.microsecond = 0 then [] else '.' :: padded 10 6 t.microsecond) ++
      ['+', '0', '0', ':', '0', '0']))

/-- The microsecond field, when the text has one. -/
def takeFraction : List Char → Option (Nat × List Char)
  | '.' :: cs => takeNumber 10 6 cs
  | cs => some (0, cs)

/-- `datetime.fromisoformat` on the texts that `isoformat` writes. -/
def fromisoformat (s : String) : Option DateTime :=
  match takeFields 10 isoFields s.toList with
  | some ([year, month, day, hour, minute, second], cs) =>
    match takeFraction cs with
    | some (microsecond, ['+', '0', '0', ':', '0', '0']) =>
      if h : year ≤ 9999 ∧ 1 ≤ month ∧ month ≤ 12 ∧ 1 ≤ day ∧ day ≤ 31 ∧
          hour < 24 ∧ minute < 60 ∧ second < 60 ∧ microsecond < 1000000 then
        some ⟨year, month, day, hour, minute, second, microsecond, h⟩
      else none
    | _ => none
  | _ => none

theorem take_fraction (n : Nat) (hn : n < 1000000) (cs : List Char) :
    takeFraction ((if n = 0 then [] else '.' :: padded 10 6 n) ++ '+' :: cs) =
      some (n, '+' :: cs) := by
  split
  · rename_i h
    subst h
    rfl
  · exact take_padded (by decide) (by decide) (by omega) _

theorem fromisoformat_isoformat (t : DateTime) : fromisoformat t.isoformat = some t := by
  obtain ⟨hy, hm₁, hm₂, hd₁, hd₂, hh, hmi, hs, hmu⟩ := t.bounds
  have hf : List.Forall₂ (fun (f : List Char × Nat) n => n < 10 ^ f.2) isoFields
      [t.year, t.month, t.day, t.hour, t.minute, t.second] := by
    simp only [isoFields, List.forall₂_cons, List.Forall₂.nil, and_true]
    omega
  unfold fromisoformat isoformat
  rw [String.toList_ofList, take_fields (by decide) (by decide) _ _ hf]
  simp only
  rw [take_fraction _ hmu]
  simp only
  rw [dif_pos t.bounds]

end DateTime

/-- `decimal.Decimal`. The coefficient of a finite number has no leading zeros, so it is
its value. -/
inductive Decimal where
  | finite (neg : Bool) (coeff : Nat) (exp : Int)
  | infinity (neg : Bool)
  | nan
  deriving DecidableEq

namespace Decimal

/-- The number that a finite decimal stands for. -/
def num : Decimal → Option ℚ
  | finite neg coeff exp => some ((if neg then -(coeff : ℚ) else coeff) * (10 : ℚ) ^ exp)
  | _ => none

/-- The exponent field of the scientific notation. -/
def expText (e : Int) : List Char :=
  if e < 0 then 'E' :: '-' :: Nat.toDigits 10 e.natAbs
  else 'E' :: '+' :: Nat.toDigits 10 e.natAbs

/-- The digits of a finite number with the point after the first `dotplace` of them. -/
def pointed (digits : List Char) (dotplace : Int) : List Char :=
  if dotplace ≤ 0 then '0' :: '.' :: (List.replicate dotplace.natAbs '0' ++ digits)
  else if digits.length ≤ dotplace.natAbs then
    digits ++ List.replicate (dotplace.natAbs - digits.length) '0'
  else digits.take dotplace.natAbs ++ '.' :: digits.drop dotplace.natAbs

/-- `str(Decimal)`. -/
def str : Decimal → String
  | finite neg coeff exp =>
    let digits := Nat.toDigits 10 coeff
    let leftdigits : Int := exp + digits.length
    let dotplace : Int := if exp ≤ 0 ∧ -6 < leftdigits then leftdigits else 1
    let exponent := if leftdigits = dotplace then [] else expText (leftdigits - dotplace)
    String.ofList ((if neg then ['-'] else []) ++ (pointed digits dotplace ++ exponent))
  | infinity neg => if neg then "-Infinity" else "Infinity"
  | nan => "NaN"

/-- The exponent field of a text, when there is one. -/
def readExp : List Char → Option Int
  | [] => some 0
  | 'E' :: '-' :: c :: cs => (readDigits 10 0 (c :: cs)).map (fun n => -(n : Int))
  | 'E' :: '+' :: c :: cs => (readDigits 10 0 (c :: cs)).map (fun n => (n : Int))
  | 'E' :: c :: cs => (readDigits 10 0 (c :: cs)).map (fun n => (n : Int))
  | _ => none

/-- The digits after the point, when there is one. -/
def readFraction : List Char → List Char × List Char
  | '.' :: cs => cs.span Char.isDigit
  | cs => ([], cs)

/-- `Decimal(text)` on numerals; the texts of infinities and NaN are matched whole. -/
def parse (s : String) : Option Decimal :=
  if s = "Infinity" then some (.infinity false)
  else if s = "-Infinity" then some (.infinity true)
  else if s = "NaN" then some .nan
  else
    let (neg, cs) := match s.toList with
      | '-' :: cs => (true, cs)
      | '+' :: cs => (false, cs)
      | cs => (false, cs)
    let (whole, cs) := cs.span Char.isDigit
    let (fraction, cs) := readFraction cs
    if whole ++ fraction = [] then none
    else (readExp cs).bind (fun e => (readDigits 10 0 (whole ++ fraction)).map (fun n =>
      .finite neg n (e - fraction.length)))

theorem digits_of_nat (n : Nat) : ∀ c ∈ Nat.toDigits 10 n, c.isDigit = true :=
  fun _ hc => Nat.isDigit_of_mem_toDigits (by decide) (by decide) hc

theorem span_digits (ds cs : List Char) (hd : ∀ c ∈ ds, c.isDigit = true)
    (hc : ∀ c ∈ cs.head?, c.isDigit = false) : (ds ++ cs).span Char.isDigit = (ds, cs) := by
  rw [List.span_eq_takeWhile_dropWhile]
  induction ds with
  | nil =>
    cases cs with
    | nil => rfl
    | cons c cs => simp [hc c (by simp)]
  | cons d ds ih =>
    have := ih (fun c hm => hd c (by simp [hm]))
    simp only [Prod.mk.injEq] at this
    simp [hd d (by simp), this]

theorem read_exp (e : Int) : readExp (expText e) = some e := by
  have hr := read_toDigits (b := 10) (by decide) (by decide) e.natAbs
  obtain ⟨c, cs, hc⟩ := List.exists_cons_of_ne_nil (Nat.toDigits_ne_nil (n := e.natAbs) (b := 10))
  unfold expText
  split
  · rw [hc] at hr ⊢
    simp only [readExp, hr]
    change some (-(e.natAbs : Int)) = some e
    exact congrArg some (by omega)
  · rw [hc] at hr ⊢
    simp only [readExp, hr]
    change some (e.natAbs : Int) = some e
    exact congrArg some (by omega)

/-- A pointed numeral is a whole part and a fraction that together spell the digits. -/
theorem pointed_split (ds : List Char) (k : Int) (hd : ∀ c ∈ ds, c.isDigit = true)
    (hne : ds ≠ []) (hk : 0 < k → k ≤ ds.length) :
    ∃ w f, pointed ds k = w ++ (if f = [] then [] else '.' :: f) ∧ w ≠ [] ∧
      (∀ c ∈ w ++ f, c.isDigit = true) ∧ (f.length : Int) = ds.length - k ∧
      readDigits 10 0 (w ++ f) = readDigits 10 0 ds := by
  have hz : ∀ n, ∀ c ∈ List.replicate n '0', c.isDigit = true := by
    intro n c hc
    rw [List.eq_of_mem_replicate hc]
    rfl
  unfold pointed
  split
  · rename_i h
    refine ⟨['0'], List.replicate k.natAbs '0' ++ ds, by simp [hne], by simp, ?_, ?_, ?_⟩
    · intro c hc
      rcases List.mem_append.mp hc with hc | hc
      · rw [List.mem_singleton.mp hc]
        rfl
      · rcases List.mem_append.mp hc with hc | hc
        · exact hz _ c hc
        · exact hd c hc
    · simp only [List.length_append, List.length_replicate]
      omega
    · have := read_zeros (b := 10) (by decide) (k.natAbs + 1) ds
      rwa [List.replicate_succ] at this
  · rename_i h
    have hle := hk (by omega)
    split
    · rename_i hl
      have hn : k.natAbs - ds.length = 0 := by omega
      exact ⟨ds, [], by simp [hn], hne, by simpa using hd, by simp; omega, by simp⟩
    · rename_i hl
      refine ⟨ds.take k.natAbs, ds.drop k.natAbs, ?_, ?_, ?_, ?_, ?_⟩
      · rw [if_neg]
        simp only [List.drop_eq_nil_iff]
        omega
      · simp only [ne_eq, List.take_eq_nil_iff, hne, or_false]
        omega
      · rwa [List.take_append_drop]
      · simp only [List.length_drop]
        omega
      · rw [List.take_append_drop]

/-- Reading a finite decimal back gives the same sign, coefficient and exponent. -/
theorem parse_str (neg : Bool) (coeff : Nat) (exp : Int) :
    parse (str (.finite neg coeff exp)) = some (.finite neg coeff exp) := by
  have hd := digits_of_nat coeff
  have hne : Nat.toDigits 10 coeff ≠ [] := Nat.toDigits_ne_nil
  have hlen : 0 < (Nat.toDigits 10 coeff).length := List.length_pos_iff.mpr hne
  simp only [str]
  generalize hk : (if exp ≤ 0 ∧ -6 < exp + ((Nat.toDigits 10 coeff).length : Int) then
    exp + ((Nat.toDigits 10 coeff).length : Int) else 1) = k
  have hle : 0 < k → k ≤ (Nat.toDigits 10 coeff).length := by
    intro _
    subst k
    split <;> omega
  obtain ⟨w, f, hp, hw, hdig, hf, hr⟩ := pointed_split _ k hd hne hle
  rw [hp]
  generalize he : (if exp + ((Nat.toDigits 10 coeff).length : Int) = k then []
    else expText (exp + ((Nat.toDigits 10 coeff).length : Int) - k)) = ex
  have hex : readExp ex = some (exp + ((Nat.toDigits 10 coeff).length : Int) - k) := by
    subst ex
    split
    · rename_i h
      rw [h, Int.sub_self]
      rfl
    · exact read_exp _
  have hexh : ∀ c ∈ ex.head?, c.isDigit = false := by
    intro c hc
    subst ex
    unfold expText at hc
    split at hc
    · simp at hc
    · split at hc <;>
        · simp only [List.head?_cons, Option.mem_def, Option.some.injEq] at hc
          subst hc
          rfl
  have hrest : readFraction ((if f = [] then [] else '.' :: f) ++ ex) = (f, ex) := by
    split
    · rename_i h
      subst h
      cases hx : ex with
      | nil => rfl
      | cons c cs =>
        have hdot : c ≠ '.' := by
          rintro rfl
          rw [hx] at hex
          simp [readExp] at hex
        unfold readFraction
        split
        · rename_i heq
          simp only [List.nil_append, List.cons.injEq] at heq
          exact absurd heq.1 hdot
        · rfl
    · exact span_digits f ex (fun c hc => hdig c (by simp [hc])) hexh
  have hspan : (w ++ ((if f = [] then [] else '.' :: f) ++ ex)).span Char.isDigit =
      (w, (if f = [] then [] else '.' :: f) ++ ex) := by
    apply span_digits
    · exact fun c hc => hdig c (by simp [hc])
    · intro c hc
      split at hc
      · exact hexh c (by simpa using hc)
      · simp only [List.cons_append, List.head?_cons, Option.mem_def, Option.some.injEq] at hc
        subst hc
        rfl
  obtain ⟨c, cs, rfl⟩ := List.exists_cons_of_ne_nil hw
  have hc : c.isDigit = true := hdig c (by simp)
  have hval : ((readExp ex).bind (fun e => (readDigits 10 0 (c :: cs ++ f)).map (fun n =>
      Decimal.finite neg n (e - f.length)))) = some (.finite neg coeff exp) := by
    rw [hex, hr, read_toDigits (by decide) (by decide)]
    simp only [Option.bind_some, Option.map_some, Option.some.injEq, Decimal.finite.injEq,
      true_and]
    omega
  have hc1 : c ≠ '-' := by rintro rfl; cases hc
  have hc2 : c ≠ '+' := by rintro rfl; cases hc
  have hc3 : c ≠ 'I' := by rintro rfl; cases hc
  have hc4 : c ≠ 'N' := by rintro rfl; cases hc
  have hlist : ∀ (s : String) (cs : List Char), String.ofList cs = s ↔ cs = s.toList := by
    intro s cs
    constructor
    · rintro rfl
      simp
    · rintro rfl
      simp
  simp only [List.cons_append, List.span_eq_takeWhile_dropWhile, Prod.mk.injEq] at hspan
  obtain ⟨htake, hdrop⟩ := hspan
  unfold parse
  cases neg with
  | false =>
    simp only [hlist]
    simp [hc3, hc4, hc1, hc2, htake, hdrop, hrest]
    simpa using hval
  | true =>
    simp only [hlist]
    simp [hc3, htake, hdrop, hrest]
    simpa using hval

end Decimal

end Payments
