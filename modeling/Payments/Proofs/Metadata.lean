import Payments.Proofs.Json

namespace Payments

open Lib

/-- The accepted mapping `m` survives a JSON column: it can be written and stored, and what is
rebuilt of the decoded text equals it. A key that is no string equals no decoded key, so it does
not matter that two keys may be written alike, nor which text a float key has. -/
def Metadata.Survives (m : PyVal) (accepted : Metadata) : Prop :=
  ∃ j, storeJson accepted.asDict = .ok j ∧ ∃ rebuilt, Metadata.rebuild j.toPy = .ok rebuilt ∧
    m.eq rebuilt.value = true

/-- An accepted mapping is wrapped as it is. -/
theorem Metadata.new_ok {m : PyVal} {accepted : Metadata} (h : Metadata.new m = .ok accepted) :
    ∃ items, m.mapping = some items ∧ accepted.value = .proxy items := by
  unfold Metadata.new at h
  split at h
  · split at h <;> cases h
    exact ⟨_, rfl, rfl⟩
  · split at h <;> cases h
    exact ⟨_, rfl, rfl⟩
  · cases h

theorem PyVal.eq_mapping {m : PyVal} {items others : List (PyVal × PyVal)}
    (h : m.mapping = some items) : m.eq (.proxy others) = true ↔
      items.length = others.length ∧ eqItems items others = true := by
  cases m <;> cases h <;> simp [eq, mapping]

/-- Accepted metadata survives the JSON column exactly when it is JSON at every depth, with
strings for its keys, finite floats, and integers that have a text. -/
theorem metadata_survives_iff {m : PyVal} {accepted : Metadata}
    (h : Metadata.new m = .ok accepted) : accepted.Survives m ↔
      ∃ items, m.mapping = some items ∧ PyVal.isJsonItems isFinite isShort items = true := by
  obtain ⟨items, hm, hv⟩ := Metadata.new_ok h
  have hdict : accepted.asDict.dumps = (PyVal.dumpsItems items).map .obj := by
    rw [Metadata.asDict, hv]
    rfl
  constructor
  · rintro ⟨j, hj, rebuilt, hr, he⟩
    obtain ⟨hj, hs⟩ := store_json_ok.mp hj
    rw [hdict] at hj
    obtain ⟨js, hjs, rfl⟩ := except_map_ok.mp hj
    cases hr
    exact ⟨items, hm, PyVal.jsonItems_of_eq items hjs hs js ((PyVal.eq_mapping hm).mp he).2⟩
  · rintro ⟨items', hm', hjson⟩
    cases hm.symm.trans hm'
    obtain ⟨js, hjs, hs, hl, he⟩ :=
      PyVal.eqItems_decoded (fun _ h => h) (fun _ h => h) items hjson
    have hj : accepted.asDict.dumps = .ok (.obj js) := by
      rw [hdict, hjs]
      rfl
    exact ⟨.obj js, store_json_ok.mpr ⟨hj, hs⟩, _, rfl,
      (PyVal.eq_mapping hm).mpr ⟨hl, he _ (List.Subset.refl _)⟩⟩

/-- Nested metadata with an empty list, a member of an enum of strings and a negative zero. -/
def sampleMetadata : PyVal :=
  .dict [(.str "order", .dict [(.str "items", .list [.int 1, .none, .list []])]),
    (.str "currency", Currency.rub.toPy), (.str "delta", .float (2 ^ 63))]

theorem metadata_survives_sample : ∃ accepted, Metadata.new sampleMetadata = .ok accepted ∧
    accepted.Survives sampleMetadata := by
  refine ⟨_, rfl, (metadata_survives_iff (m := sampleMetadata) rfl).mpr ⟨_, rfl, ?_⟩⟩
  decide

/-- An integer of 4301 digits. -/
def longInt : Int := 10 ^ 4300

theorem longInt_text : ∃ message, intText longInt = .error (.valueError message) :=
  ⟨_, if_neg (by decide +kernel)⟩

/-- A decimal and a long integer are accepted and cannot be written, an infinity is written and
cannot be stored, and a tuple comes back as a list. -/
theorem metadata_lost :
    (∃ accepted, Metadata.new (.dict [(.str "rate", .decimal (.finite false 1 0))]) = .ok accepted ∧
      accepted.asDict.dumps =
        .error (.typeError "Object of type Decimal is not JSON serializable")) ∧
    (∃ accepted message, Metadata.new (.dict [(.str "n", .int longInt)]) = .ok accepted ∧
      accepted.asDict.dumps = .error (.valueError message)) ∧
    (∃ accepted, Metadata.new (.dict [(.str "limit", .float (0x7ff * 2 ^ 52))]) = .ok accepted ∧
      storeJson accepted.asDict = .error .dataError) ∧
    ∃ accepted, Metadata.new (.dict [(.str "pair", .tuple [.int 1, .int 2])]) = .ok accepted ∧
      ¬ accepted.Survives (.dict [(.str "pair", .tuple [.int 1, .int 2])]) := by
  refine ⟨⟨_, rfl, rfl⟩, ?_, ⟨_, rfl, rfl⟩, _, rfl, ?_⟩
  · obtain ⟨message, hlong⟩ := longInt_text
    refine ⟨_, message, rfl, ?_⟩
    simp [Metadata.asDict, PyVal.dumps, PyVal.dumpsItems, PyVal.jsonKey, hlong, Except.bind,
      Except.map]
  · rintro ⟨j, hj, rebuilt, hr, he⟩
    cases hj
    cases hr
    revert he
    decide

end Payments
