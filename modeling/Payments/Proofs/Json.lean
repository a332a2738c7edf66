import Payments.Lib.Program
import Payments.Python.Equality
import Payments.Infrastructure.Tables

namespace Payments

open Lib

theorem store_json_ok {v : PyVal} {j : Json} :
    storeJson v = .ok j ↔ v.dumps = .ok j ∧ j.isStorable = true := by
  unfold storeJson
  cases v.dumps with
  | error e => simp
  | ok j' =>
    by_cases hs : j'.isStorable = true
    · simp only [if_pos hs, Except.ok.injEq]
      exact ⟨fun h => ⟨h, h ▸ hs⟩, fun h => h.1⟩
    · simp only [if_neg hs, Except.ok.injEq, reduceCtorEq, false_iff]
      rintro ⟨rfl, h⟩
      exact hs h

namespace PyVal

/-- A string, or a member of an enum of strings. -/
def isText : PyVal → Bool
  | .str _ => true
  | .enum .str _ (.str _) => true
  | _ => false

mutual

/-- Made of JSON values alone. Which floats and which integers count is left open. -/
def isJson (float : Nat → Bool) (int : Int → Bool) : PyVal → Bool
  | .none => true
  | .bool _ => true
  | .int i => int i
  | .float bits => float bits
  | .str _ => true
  | .enum .str _ (.str _) => true
  | .enum .int _ (.int i) => int i
  | .list xs => isJsonList float int xs
  | .dict items => isJsonItems float int items
  | _ => false

def isJsonList (float : Nat → Bool) (int : Int → Bool) : List PyVal → Bool
  | [] => true
  | x :: xs => x.isJson float int && isJsonList float int xs

def isJsonItems (float : Nat → Bool) (int : Int → Bool) : List (PyVal × PyVal) → Bool
  | [] => true
  | (k, x) :: items => k.isText && (x.isJson float int && isJsonItems float int items)

end

theorem eq_str {k : PyVal} {s : String} : k.eq (.str s) = true ↔ k.string = some s := by
  cases k with
  | enum base _ value => cases base <;> cases value <;> simp [eq, eqAtom, number, string]
  | _ => simp [eq, eqAtom, number, string, mapping]

theorem string_of_text {k : PyVal} (h : k.isText = true) :
    ∃ s, k.string = some s ∧ k.jsonKey = .ok s := by
  cases k with
  | enum base _ value => cases base <;> cases value <;> simp_all [isText, string, jsonKey]
  | _ => simp_all [isText, string, jsonKey]

theorem text_of_string {k : PyVal} {s : String} (h : k.string = some s) : k.isText = true := by
  cases k with
  | enum base _ value => cases base <;> cases value <;> simp_all [isText, string]
  | _ => simp_all [isText, string]

/-- Only floats that are finite count as JSON values. -/
def OnlyFinite (float : Nat → Bool) : Prop := ∀ bits, float bits = true → isFinite bits = true

/-- Only integers that have a text count as JSON values. -/
def OnlyShort (int : Int → Bool) : Prop := ∀ i, int i = true → isShort i = true

theorem number_of_finite {bits : Nat} (h : isFinite bits = true) : Number.ofDouble bits ≠ .nan := by
  have he : ¬ bits / 2 ^ 52 % 2 ^ 11 = 2 ^ 11 - 1 := by simpa [isFinite] using h
  simp only [Number.ofDouble, if_neg he]
  split <;> simp

theorem intText_short {i : Int} (h : isShort i = true) : intText i = .ok (toString i) := by
  rw [intText, if_pos h]

theorem short_of_intText {i : Int} {s : String} (h : intText i = .ok s) : isShort i = true := by
  unfold intText at h
  split at h
  · assumption
  · cases h

variable {float : Nat → Bool} {int : Int → Bool}

mutual

/-- A JSON value can be written and stored, and equals what its text is decoded to. -/
theorem eq_decoded (hfloat : OnlyFinite float) (hint : OnlyShort int) : (v : PyVal) →
    v.isJson float int = true →
    ∃ j, v.dumps = .ok j ∧ j.isStorable = true ∧ v.eq j.toPy = true
  | .none, _ | .bool _, _ | .str _, _ | .enum .str _ (.str _), _ => by
    simp [dumps, Json.isStorable, Json.toPy, eq, eqAtom, number, string]
  | .int i, h | .enum .int _ (.int i), h => by
    have hi := intText_short (hint i h)
    simp [dumps, hi, Except.map, Json.isStorable, Json.toPy, eq, eqAtom, number]
  | .float bits, h => by
    have hf := hfloat bits h
    simp [dumps, Json.isStorable, hf, Json.toPy, eq, eqAtom, number, number_of_finite hf]
  | .list xs, h => by
    obtain ⟨js, hj, hs, he⟩ := eqList_decoded hfloat hint xs h
    exact ⟨.arr js, by rw [dumps, hj]; rfl, hs, he⟩
  | .dict items, h => by
    obtain ⟨js, hj, hs, hl, he⟩ := eqItems_decoded hfloat hint items h
    refine ⟨.obj js, by rw [dumps, hj]; rfl, hs, ?_⟩
    simp [Json.toPy, eq, mapping, hl, he _ (List.Subset.refl _)]

theorem eqList_decoded (hfloat : OnlyFinite float) (hint : OnlyShort int) : (xs : List PyVal) →
    isJsonList float int xs = true → ∃ js, dumpsList xs = .ok js ∧
      Json.isStorableList js = true ∧ eqList xs (Json.toPyList js) = true
  | [], _ => ⟨[], rfl, rfl, rfl⟩
  | x :: xs, h => by
    obtain ⟨hx, hxs⟩ := (Bool.and_eq_true _ _).mp h
    obtain ⟨j, hj, hs, he⟩ := eq_decoded hfloat hint x hx
    obtain ⟨js, hjs, hss, hes⟩ := eqList_decoded hfloat hint xs hxs
    exact ⟨j :: js, by rw [dumpsList, hj, hjs]; rfl, by simp [Json.isStorableList, hs, hss],
      by simp [Json.toPyList, eqList, he, hes]⟩

theorem eqItems_decoded (hfloat : OnlyFinite float) (hint : OnlyShort int) :
    (items : List (PyVal × PyVal)) → isJsonItems float int items = true →
    ∃ js, dumpsItems items = .ok js ∧ Json.isStorableItems js = true ∧
      items.length = (Json.toPyItems js).length ∧
      ∀ others, Json.toPyItems js ⊆ others → eqItems items others = true
  | [], _ => ⟨[], rfl, rfl, rfl, fun _ _ => rfl⟩
  | (k, x) :: items, h => by
    obtain ⟨hk, h⟩ := (Bool.and_eq_true _ _).mp h
    obtain ⟨hx, hxs⟩ := (Bool.and_eq_true _ _).mp h
    obtain ⟨s, hs, hkey⟩ := string_of_text hk
    obtain ⟨j, hj, hst, he⟩ := eq_decoded hfloat hint x hx
    obtain ⟨js, hjs, hsts, hl, hes⟩ := eqItems_decoded hfloat hint items hxs
    refine ⟨(s, j) :: js, by rw [dumpsItems, hkey, hj, hjs]; rfl,
      by simp [Json.isStorableItems, hst, hsts], by simp [Json.toPyItems, hl], ?_⟩
    intro others hsub
    rw [Json.toPyItems, List.cons_subset] at hsub
    rw [eqItems, hes others hsub.2, Bool.and_true, List.any_eq_true]
    exact ⟨_, hsub.1, by simp [eq_str.mpr hs, he]⟩

end

theorem mem_decoded {e : PyVal × PyVal} : {js : List (String × Json)} → e ∈ Json.toPyItems js →
    ∃ s j, e = (.str s, Json.toPy j)
  | [], h => by cases h
  | (s, j) :: js, h => by
    rcases List.mem_cons.mp h with rfl | h
    · exact ⟨s, j, rfl⟩
    · exact mem_decoded h

mutual

/-- What is written and stored and equals a decoded text is made of JSON values: finite floats and
integers that have a text. -/
theorem json_of_eq : (v : PyVal) → {stored : Json} → v.dumps = .ok stored →
    stored.isStorable = true → (j : Json) → v.eq j.toPy = true → v.isJson isFinite isShort = true
  | .none, _, _, _, _, _ | .bool _, _, _, _, _, _ | .str _, _, _, _, _, _
  | .enum .str _ (.str _), _, _, _, _, _ => rfl
  | .int _, _, hd, _, _, _ | .enum .int _ (.int _), _, hd, _, _, _ => by
    obtain ⟨s, hs, _⟩ := except_map_ok.mp hd
    exact short_of_intText hs
  | .float bits, _, hd, hs, _, _ => by
    cases hd
    exact hs
  | .list xs, _, hd, hs, j, he => by
    obtain ⟨js, hjs, rfl⟩ := except_map_ok.mp hd
    cases j with
    | arr js' => exact jsonList_of_eq xs hjs hs js' he
    | _ => simp [Json.toPy, eq, eqAtom, number, string] at he
  | .tuple xs, _, _, _, j, he => by
    cases j <;> simp [Json.toPy, eq, eqAtom, number, string] at he
  | .dict items, _, hd, hs, j, he => by
    obtain ⟨js, hjs, rfl⟩ := except_map_ok.mp hd
    cases j with
    | obj js' =>
      simp only [Json.toPy, eq, mapping, Option.any_some, Bool.and_eq_true] at he
      exact jsonItems_of_eq items hjs hs js' he.2
    | _ => simp [Json.toPy, eq, mapping] at he

theorem jsonList_of_eq : (xs : List PyVal) → {stored : List Json} → dumpsList xs = .ok stored →
    Json.isStorableList stored = true → (js : List Json) → eqList xs (Json.toPyList js) = true →
    isJsonList isFinite isShort xs = true
  | [], _, _, _, _, _ => rfl
  | x :: xs, _, hd, hs, js, he => by
    obtain ⟨j, hj, hd⟩ := except_bind_ok.mp hd
    obtain ⟨rest, hrest, rfl⟩ := except_map_ok.mp hd
    obtain ⟨hs, hss⟩ := (Bool.and_eq_true _ _).mp hs
    cases js with
    | nil => cases he
    | cons j' js' =>
      obtain ⟨hx, hxs⟩ := (Bool.and_eq_true _ _).mp he
      exact (Bool.and_eq_true _ _).mpr ⟨json_of_eq x hj hs j' hx,
        jsonList_of_eq xs hrest hss js' hxs⟩

theorem jsonItems_of_eq : (items : List (PyVal × PyVal)) → {stored : List (String × Json)} →
    dumpsItems items = .ok stored → Json.isStorableItems stored = true →
    (js : List (String × Json)) → eqItems items (Json.toPyItems js) = true →
    isJsonItems isFinite isShort items = true
  | [], _, _, _, _, _ => rfl
  | (k, x) :: items, _, hd, hs, js, he => by
    obtain ⟨_, _, hd⟩ := except_bind_ok.mp hd
    obtain ⟨j, hj, hd⟩ := except_bind_ok.mp hd
    obtain ⟨rest, hrest, rfl⟩ := except_map_ok.mp hd
    obtain ⟨hs, hss⟩ := (Bool.and_eq_true _ _).mp hs
    obtain ⟨hany, hothers⟩ := (Bool.and_eq_true _ _).mp he
    obtain ⟨e, hmem, he⟩ := List.any_eq_true.mp hany
    obtain ⟨hk, hx⟩ := (Bool.and_eq_true _ _).mp he
    -- the entry that is equal has a string for its key
    obtain ⟨s, j', rfl⟩ := mem_decoded hmem
    simp only [isJsonItems, Bool.and_eq_true]
    exact ⟨text_of_string (eq_str.mp hk), json_of_eq x hj hs j' hx,
      jsonItems_of_eq items hrest hss js hothers⟩

end

end PyVal

end Payments
