import Mathlib.Tactic.Linarith
import Payments.Proofs.Readback
import Payments.Proofs.Transport

namespace Payments

open Lib

namespace Description

/-- A C0 control character, or DEL. -/
def Control (c : Char) : Prop := c.toNat < 0x20 ∨ c.toNat = 0x7f

/-- Only valid characters, and then a line end. -/
def EndsLine (text : String) : Prop :=
  ∃ body, text.toList = body ++ ['\n'] ∧ ∀ c ∈ body, isInvalid c = false

theorem invalid_control {c : Char} : isInvalid c = true ↔ Control c := by
  have hnat : ∀ d : Char, c = d ↔ c.toNat = d.toNat := fun d => ⟨congrArg _, Char.toNat_inj.mp⟩
  simp only [isInvalid, Control, Bool.or_eq_true, Bool.and_eq_true, decide_eq_true_eq, hnat]
  have hn : '\n'.toNat = 10 := rfl
  have hr : '\r'.toNat = 13 := rfl
  have ht : '\t'.toNat = 9 := rfl
  omega

/-- The pattern takes valid characters up to the end, or up to a line end that is the last
character. -/
theorem matches_valid {cs : List Char} : matchesValid cs = true ↔
    ∃ body rest, cs = body ++ rest ∧ (∀ c ∈ body, isInvalid c = false) ∧
      (rest = [] ∨ rest = ['\n']) := by
  simp only [matchesValid, Bool.or_eq_true, Bool.and_eq_true, List.all_eq_true, decide_eq_true_eq,
    Bool.not_eq_true']
  constructor
  · rintro (hall | ⟨hlast, hall⟩)
    · exact ⟨cs, [], by simp, hall, .inl rfl⟩
    · obtain ⟨body, rfl⟩ := List.getLast?_eq_some_iff.mp hlast
      exact ⟨body, ['\n'], rfl, by simpa using hall, .inr rfl⟩
  · rintro ⟨body, rest, rfl, hall, rfl | rfl⟩
    · exact .inl (by simpa using hall)
    · exact .inr ⟨by simp, by simpa using hall⟩

theorem search_none {cs : List Char} :
    searchInvalid cs = none ↔ ∀ c ∈ cs, isInvalid c = false := by
  simp [searchInvalid]

/-- The text of a length that is allowed passes where the pattern matches. -/
theorem new_ok {text : String} : (∃ d, Description.new text = .ok d) ↔
    (3 ≤ text.length ∧ text.length ≤ 50) ∧ matchesValid text.toList = true := by
  unfold Description.new validateLenth validatePattern MAX_LENTH MIN_LENTH
  by_cases hl : 50 < text.length ∨ text.length < 3
  · rw [if_pos hl]
    exact ⟨fun ⟨d, h⟩ => (by cases h), fun h => by omega⟩
  · rw [if_neg hl]
    by_cases hm : matchesValid text.toList = true
    · rw [if_pos hm]
      exact ⟨fun _ => ⟨by omega, hm⟩, fun _ => ⟨_, rfl⟩⟩
    · rw [if_neg hm]
      refine ⟨fun ⟨d, h⟩ => ?_, fun h => absurd h.2 hm⟩
      cases hs : searchInvalid text.toList <;> rw [hs] at h <;> cases h

theorem new_error {text : String} {e : Exc} (h : Description.new text = .error e) :
    ∃ message context, e = .validation message context := by
  unfold Description.new validateLenth validatePattern at h
  by_cases hl : MAX_LENTH < text.length ∨ text.length < MIN_LENTH
  · rw [if_pos hl] at h
    cases h
    exact ⟨_, _, rfl⟩
  · rw [if_neg hl] at h
    by_cases hm : matchesValid text.toList = true
    · rw [if_pos hm] at h
      cases h
    · rw [if_neg hm] at h
      cases hs : searchInvalid text.toList <;> rw [hs] at h <;> cases h <;> exact ⟨_, _, rfl⟩

/-- The texts that are documented are accepted and no others, and the two patterns agree. -/
structure AcceptsDocumented (text : String) : Prop where
  accepts : (∃ d, Description.new text = .ok d) ↔
    (3 ≤ text.length ∧ text.length ≤ 50) ∧ ∀ c ∈ text.toList, ¬ Control c
  refuses : ∀ e, Description.new text = .error e → ∃ message context, e = .validation message context
  agree : matchesValid text.toList = true ↔ searchInvalid text.toList = none

/-- A text is accepted as it is documented exactly when it is not made of valid characters and a
line end after them: there the pattern matches before the line end. -/
theorem description_accepts (text : String) : AcceptsDocumented text ↔ ¬ EndsLine text := by
  have hcontrol : (∀ c ∈ text.toList, ¬ Control c) ↔ ∀ c ∈ text.toList, isInvalid c = false := by
    simp only [← invalid_control, Bool.not_eq_true]
  constructor
  · rintro h ⟨body, htext, hall⟩
    have hmatches : matchesValid text.toList = true :=
      matches_valid.mpr ⟨body, ['\n'], htext, hall, .inr rfl⟩
    have hnone := search_none.mp (h.agree.mp hmatches) '\n' (by simp [htext])
    cases hnone
  · intro hno
    have hmatches : matchesValid text.toList = true ↔
        ∀ c ∈ text.toList, isInvalid c = false := by
      rw [matches_valid]
      constructor
      · rintro ⟨body, rest, htext, hall, rfl | rfl⟩
        · rw [htext, List.append_nil]
          exact hall
        · exact absurd ⟨body, htext, hall⟩ hno
      · intro hall
        exact ⟨text.toList, [], by simp, hall, .inl rfl⟩
    exact ⟨by rw [new_ok, hmatches, hcontrol], fun _ => new_error, by rw [hmatches, search_none]⟩

/-- Three letters and a line end are accepted. -/
theorem line_end_accepted : (∃ d, Description.new "abc\n" = .ok d) ∧
    ¬ AcceptsDocumented "abc\n" := by
  refine ⟨⟨_, rfl⟩, fun h => ?_⟩
  have hno := (h.accepts.mp ⟨_, rfl⟩).2 '\n' (by decide)
  exact hno (.inl (by decide))

end Description

namespace Amount

/-- The exceptions of the domain for a value of a wrong type or a wrong value. -/
def Refuses (e : Exc) : Prop :=
  (∃ message context, e = .domainType message context) ∨
    ∃ message context, e = .validation message context

/-- The table of the payments keeps an amount, and reads it back as the same number. -/
def Kept (amount : Amount) (q : ℚ) : Prop :=
  ∀ (payment : Payment) items, payment.amount = amount →
    storeJson payment.metadata.asDict = .ok (.obj items) →
    ∃ row payment', (PaymentRepository.values payment).toRow = .ok row ∧
      PaymentRepository.toDomain row = .ok payment' ∧ payment'.amount.value.num = some q

/-- A decimal is refused, or it is a positive number that the table keeps. -/
def AdmitsStorable (d : Decimal) : Prop :=
  (∃ e, Amount.new d = .error e ∧ Refuses e) ∨
    ∃ amount q, Amount.new d = .ok amount ∧ d.num = some q ∧ 0 < q ∧ amount.Kept q

/-- A number that is not positive, has more than two decimal places or is below the limit of the
column, or a negative infinity. -/
def Admissible : Decimal → Prop
  | .finite neg coeff exp =>
    neg = true ∨ coeff = 0 ∨ exp < -2 ∨ (coeff : ℚ) * (10 : ℚ) ^ exp < 10 ^ 16
  | .infinity neg => neg = true
  | .nan => False

/-- The column keeps what is below its limit. -/
theorem store_limit {neg : Bool} {coeff : Nat} {exp : Int} (he : -2 ≤ exp) :
    (∃ stored, storeNumeric (.finite neg coeff exp) = some stored) ↔
      (coeff : ℚ) * (10 : ℚ) ^ exp < 10 ^ 16 := by
  have hcents : ((cents coeff exp : ℕ) : ℚ) = (coeff : ℚ) * (10 : ℚ) ^ exp * 100 := by
    rw [← cents_value he]
    norm_num [mul_assoc]
  have hlt : cents coeff exp < 10 ^ 18 ↔ (coeff : ℚ) * (10 : ℚ) ^ exp < 10 ^ 16 := by
    rw [← Nat.cast_lt (α := ℚ), hcents]
    constructor <;> intro h <;> norm_num at h ⊢ <;> linarith
  rw [← hlt, storeNumeric]
  simp

theorem kept_iff {coeff : Nat} {exp : Int} (he : -2 ≤ exp) :
    Kept { value := .finite false coeff exp } ((coeff : ℚ) * (10 : ℚ) ^ exp) ↔
      (coeff : ℚ) * (10 : ℚ) ^ exp < 10 ^ 16 := by
  rw [← @store_limit false coeff exp he]
  constructor
  · intro h
    obtain ⟨row, _, hrow, _⟩ :=
      h { emittingPayment with amount := { value := .finite false coeff exp } } [] rfl rfl
    cases hs : storeNumeric (.finite false coeff exp) with
    | some stored => exact ⟨stored, rfl⟩
    | none =>
      simp only [PaymentValues.toRow, PaymentRepository.values, hs] at hrow
      cases hrow
  · rintro ⟨stored, hs⟩ payment items hamount hmeta
    obtain ⟨row, hrow, ha, hm⟩ : ∃ row : PaymentRow, (PaymentRepository.values payment).toRow =
        .ok row ∧ row.amount = stored ∧ row.metadata = .obj items := by
      simp [PaymentValues.toRow, PaymentRepository.values, hmeta, hamount, hs]
    obtain ⟨payment', hp⟩ := toDomain_obj ⟨items, hm⟩
    refine ⟨row, payment', hrow, hp, ?_⟩
    rw [(toDomain_ok hp).2.1, ha, store_numeric he hs]
    simp [Decimal.num]

/-- An amount is refused by the domain or kept by the table exactly when it is no NaN, no positive
infinity, and not above the limit of the column with at most two decimal places. -/
theorem amount_storable (d : Decimal) : AdmitsStorable d ↔ Admissible d := by
  cases d with
  | nan =>
    refine ⟨?_, False.elim⟩
    rintro (⟨e, he, hr⟩ | ⟨_, _, h, _⟩)
    · cases he
      rcases hr with ⟨_, _, hr⟩ | ⟨_, _, hr⟩ <;> cases hr
    · cases h
  | infinity neg =>
    cases neg with
    | true => exact ⟨fun _ => rfl, fun _ => .inl ⟨_, rfl, .inr ⟨_, _, rfl⟩⟩⟩
    | false =>
      refine ⟨?_, fun h => by cases h⟩
      rintro (⟨e, he, hr⟩ | ⟨_, _, h, _⟩)
      · cases he
        rcases hr with ⟨_, _, hr⟩ | ⟨_, _, hr⟩ <;> cases hr
      · cases h
  | finite neg coeff exp =>
    by_cases hpos : coeff = 0 ∨ neg = true
    · have hnew : Amount.new (.finite neg coeff exp) =
          .error (.validation "Amount must be greater than zero") := by
        rw [Amount.new, if_pos hpos]
      exact ⟨fun _ => hpos.elim (fun h => .inr (.inl h)) .inl,
        fun _ => .inl ⟨_, hnew, .inr ⟨_, _, rfl⟩⟩⟩
    · obtain ⟨hcoeff, hneg⟩ := not_or.mp hpos
      obtain rfl : neg = false := Bool.eq_false_iff.mpr hneg
      by_cases hexp : exp < -2
      · have hnew : Amount.new (.finite false coeff exp) =
            .error (.validation "Amount cannot have more than 2 decimal places") := by
          rw [Amount.new, if_neg hpos, if_pos hexp]
        exact ⟨fun _ => .inr (.inr (.inl hexp)), fun _ => .inl ⟨_, hnew, .inr ⟨_, _, rfl⟩⟩⟩
      · have hnew : Amount.new (.finite false coeff exp) =
            .ok { value := .finite false coeff exp } := by
          rw [Amount.new, if_neg hpos, if_neg hexp]
        have hnum : (Decimal.finite false coeff exp).num =
            some ((coeff : ℚ) * (10 : ℚ) ^ exp) := by simp [Decimal.num]
        have hkept := @kept_iff coeff exp (Int.not_lt.mp hexp)
        constructor
        · rintro (⟨e, he, _⟩ | ⟨amount, q, ha, hq, _, hk⟩)
          · cases hnew.symm.trans he
          · cases hnew.symm.trans ha
            cases hnum.symm.trans hq
            exact .inr (.inr (.inr (hkept.mp hk)))
        · rintro (h | h | h | h)
          · cases h
          · exact absurd h hcoeff
          · exact absurd h hexp
          · have hq : (0 : ℚ) < (coeff : ℚ) * (10 : ℚ) ^ exp := by
              have hc : (0 : ℚ) < coeff := Nat.cast_pos.mpr (Nat.pos_of_ne_zero hcoeff)
              exact mul_pos hc (zpow_pos (by norm_num) exp)
            exact .inr ⟨_, _, hnew, hnum, hq, hkept.mpr h⟩

/-- A NaN raises neither exception of the domain, and ten quadrillions are admitted and cannot be
stored. -/
theorem amount_not_storable : Amount.new .nan = .error .invalidOperation ∧
    ¬ AdmitsStorable .nan ∧
    (∃ amount, Amount.new (.finite false 1 16) = .ok amount) ∧
    storeNumeric (.finite false 1 16) = none := by
  refine ⟨rfl, ?_, ⟨_, rfl⟩, by decide⟩
  rintro (⟨e, he, hr⟩ | ⟨_, _, h, _⟩)
  · cases he
    rcases hr with ⟨_, _, hr⟩ | ⟨_, _, hr⟩ <;> cases hr
  · cases h

end Amount

end Payments
