import Mathlib.Tactic.NormNum
import Payments.Domain.Comparison

namespace Payments

namespace ValueObject

section

variable {V : Type} {eq : V → V → Bool} {S : Set (Obj V)} {x y z : Obj V}

/-- The amounts alone inherit both methods. -/
theorem generates_eq (c : Class) : c.decorator.generatesEq = decide (c ≠ .amount) := by
  cases c <;> rfl

theorem eq_iff : Obj.eq eq x y = true ↔ x.cls = y.cls ∧
    (x.cls ≠ .amount →
      x.address = y.address ∨ x.rebuilding = y.rebuilding ∧ eq x.value y.value = true) ∧
    (x.cls = .amount → eq x.value y.value = true) := by
  by_cases h : x.cls = .amount <;> simp [Obj.eq, generates_eq, h, eqFields, eqValue]

theorem hash_amount (h : x.cls = .amount) : x.hashData = some (x.rebuilding, none) := by
  simp [Obj.hashData, h, Class.decorator, Decorator.hashAction, baseHashData, decorator]

theorem hash_fields (h : x.cls ≠ .amount) : x.hashData = some (x.rebuilding, some x.value) := by
  unfold Obj.hashData
  cases hc : x.cls <;> first | exact absurd hc h | rfl

/-- The flag is all that the hash of an amount tells. -/
theorem same_amount {b c : Bool} :
    HashData.Same eq (b, none) (c, none) ↔ b = c := by
  simp [HashData.Same]

/-- Objects that equal each other hash equal tuples, except amounts with different flags. -/
theorem hashed_iff (hids : x.address = y.address → x = y) (h : Obj.eq eq x y = true) :
    (∃ d e, x.hashData = some d ∧ y.hashData = some e ∧ d.Same eq e) ↔
      (x.cls = .amount → x.rebuilding = y.rebuilding) := by
  obtain ⟨hc, hfields, hvalue⟩ := eq_iff.mp h
  by_cases ha : x.cls = .amount
  · simp [hash_amount ha, hash_amount (hc ▸ ha), ha, same_amount]
  · have hy : y.cls ≠ .amount := hc ▸ ha
    simp only [hash_fields ha, hash_fields hy, ha, false_implies, iff_true]
    refine ⟨_, _, rfl, rfl, ?_⟩
    rcases hfields ha with haddr | ⟨hflag, heq⟩
    · cases hids haddr
      exact .inl rfl
    · exact .inr ⟨hflag, _, _, rfl, rfl, heq⟩

theorem eq_symm (hsymm : ∀ v w, eq v w = true → eq w v = true) (h : Obj.eq eq x y = true) :
    Obj.eq eq y x = true := by
  obtain ⟨hc, hfields, hvalue⟩ := eq_iff.mp h
  rw [hc] at hfields hvalue
  refine eq_iff.mpr ⟨hc.symm, fun ha => ?_, fun ha => hsymm _ _ (hvalue ha)⟩
  exact (hfields ha).imp Eq.symm (fun ⟨hflag, heq⟩ => ⟨hflag.symm, hsymm _ _ heq⟩)

theorem eq_trans (htrans : ∀ u v w, eq u v = true → eq v w = true → eq u w = true)
    (hxy : x.address = y.address → x = y) (hyz : y.address = z.address → y = z)
    (h : Obj.eq eq x y = true) (h' : Obj.eq eq y z = true) : Obj.eq eq x z = true := by
  obtain ⟨hc, hfields, hvalue⟩ := eq_iff.mp h
  obtain ⟨hc', hfields', hvalue'⟩ := eq_iff.mp h'
  rw [← hc] at hfields' hvalue'
  refine eq_iff.mpr ⟨hc.trans hc', fun ha => ?_, fun ha => htrans _ _ _ (hvalue ha) (hvalue' ha)⟩
  rcases hfields ha with haddr | ⟨hflag, heq⟩
  · cases hxy haddr
    exact hfields' ha
  · rcases hfields' ha with haddr' | ⟨hflag', heq'⟩
    · cases hyz haddr'
      exact .inr ⟨hflag, heq⟩
    · exact .inr ⟨hflag.trans hflag', htrans _ _ _ heq heq'⟩

/-- Value objects are keys exactly when no amount among them holds a NaN and equal amounts have
been made in the same way, over any comparison of the values that is symmetric and transitive. -/
theorem keys_iff (hsymm : ∀ v w, eq v w = true → eq w v = true)
    (htrans : ∀ u v w, eq u v = true → eq v w = true → eq u w = true)
    (hids : ∀ x ∈ S, ∀ y ∈ S, x.address = y.address → x = y) : Keys eq S ↔
      (∀ x ∈ S, x.cls = .amount → eq x.value x.value = true) ∧
      ∀ x ∈ S, ∀ y ∈ S, x.cls = .amount → y.cls = .amount → eq x.value y.value = true →
        x.rebuilding = y.rebuilding := by
  constructor
  · intro h
    refine ⟨fun x hx ha => (eq_iff.mp (h.equivalence.refl ⟨x, hx⟩)).2.2 ha,
      fun x hx y hy ha hb heq => ?_⟩
    have hxy : Obj.eq eq x y = true :=
      eq_iff.mpr ⟨ha.trans hb.symm, fun hn => absurd ha hn, fun _ => heq⟩
    exact (hashed_iff (hids x hx y hy) hxy).mp (h.hashed x hx y hy hxy) ha
  · rintro ⟨hrefl, hflags⟩
    refine ⟨⟨fun x => ?_, fun h => eq_symm hsymm h, fun {x y z} h h' => ?_⟩, fun x hx y hy h => ?_⟩
    · exact eq_iff.mpr ⟨rfl, fun _ => .inl rfl, hrefl x x.2⟩
    · exact eq_trans htrans (hids x x.2 y y.2) (hids y y.2 z z.2) h h'
    · obtain ⟨hc, _, hvalue⟩ := eq_iff.mp h
      exact (hashed_iff (hids x hx y hy) h).mpr
        (fun ha => hflags x hx y hy ha (hc ▸ ha) (hvalue ha))

end

end ValueObject

theorem Decimal.eq_symm (d e : Decimal) (h : d.eq e = true) : e.eq d = true := Number.eq_symm h

theorem Decimal.eq_trans (c d e : Decimal) (h : c.eq d = true) (h' : d.eq e = true) :
    c.eq e = true :=
  Number.eq_trans h h'

/-- An amount in memory. -/
def Amount.obj (a : Amount) (address : Nat) : ValueObject.Obj Decimal :=
  { a.toValueObject with cls := .amount, address := address }

/-- One rouble, with two digits behind the point and with one. -/
theorem rouble_eq : Decimal.eq (.finite false 100 (-2)) (.finite false 10 (-1)) = true := by
  norm_num [Decimal.eq, Decimal.number]

open ValueObject in
/-- Two amounts that are constructed of equal decimals are one key. -/
theorem keys_constructed : ∃ a b, Amount.new (.finite false 100 (-2)) = .ok a ∧
    Amount.new (.finite false 10 (-1)) = .ok b ∧ a ≠ b ∧
    Obj.eq Decimal.eq (a.obj 1) (b.obj 2) = true ∧ Keys Decimal.eq {a.obj 1, b.obj 2} := by
  refine ⟨_, _, rfl, rfl, by decide, eq_iff.mpr ⟨rfl, fun ha => absurd rfl ha, fun _ => rouble_eq⟩,
    (keys_iff Decimal.eq_symm Decimal.eq_trans ?_).mpr ⟨?_, ?_⟩⟩
  · rintro x (rfl | rfl) y (rfl | rfl) h <;> first | rfl | cases h
  · rintro x (rfl | rfl) _ <;> simp [Decimal.eq, Amount.obj, Decimal.number]
  · rintro x (rfl | rfl) y (rfl | rfl) _ _ _ <;> rfl

open ValueObject in
/-- An amount and its rebuilt copy are equal and hash different tuples. -/
theorem rebuilt_amount_hash : ∃ a, Amount.new (.finite false 100 (-2)) = .ok a ∧
    Obj.eq Decimal.eq (a.obj 1) ((Amount.rebuild (.finite false 100 (-2))).obj 2) = true ∧
    (a.obj 1).hashData = some (false, none) ∧
    ((Amount.rebuild (.finite false 100 (-2))).obj 2).hashData = some (true, none) ∧
    ¬ Keys Decimal.eq {a.obj 1, (Amount.rebuild (.finite false 100 (-2))).obj 2} := by
  have heq : ∀ a : Amount, a.value = .finite false 100 (-2) →
      Obj.eq Decimal.eq (a.obj 1) ((Amount.rebuild (.finite false 100 (-2))).obj 2) = true := by
    intro a ha
    refine eq_iff.mpr ⟨rfl, fun hn => absurd rfl hn, fun _ => ?_⟩
    simp [Decimal.eq, Amount.obj, Amount.rebuild, ha, Decimal.number]
  refine ⟨_, rfl, heq _ rfl, rfl, rfl, fun h => ?_⟩
  obtain ⟨d, e, hd, he, hsame⟩ := h.hashed _ (.inl rfl) _ (.inr rfl) (heq _ rfl)
  cases hd
  cases he
  exact absurd (same_amount.mp hsame) (by decide)

end Payments
