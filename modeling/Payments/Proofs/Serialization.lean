import Payments.Infrastructure.Serializer
import Payments.Proofs.Json

namespace Payments

namespace PyVal

mutual

/-- Whether the values that `_serialize_value` comes to and does not open pass one test, and
the keys of the dictionaries and proxies on its way another. -/
def walk (leaf key : PyVal → Bool) : PyVal → Bool
  | .list xs => walkList leaf key xs
  | .tuple xs => walkList leaf key xs
  | .dict items => walkItems leaf key items
  | .proxy items => walkItems leaf key items
  | .dataclass _ fields => walkFields leaf key fields
  | v => leaf v

def walkList (leaf key : PyVal → Bool) : List PyVal → Bool
  | [] => true
  | x :: xs => x.walk leaf key && walkList leaf key xs

def walkItems (leaf key : PyVal → Bool) : List (PyVal × PyVal) → Bool
  | [] => true
  | (k, x) :: items => key k && (x.walk leaf key && walkItems leaf key items)

def walkFields (leaf key : PyVal → Bool) : List (String × PyVal) → Bool
  | [] => true
  | (_, x) :: fields => x.walk leaf key && walkFields leaf key fields

end

/-- `isinstance(value, int)`. -/
def isInt : PyVal → Bool
  | .bool _ => true
  | .int _ => true
  | .enum .int _ _ => true
  | _ => false

/-- A member of a plain enum has a string or an integer for its value. -/
def hasSimpleMember : PyVal → Bool
  | .enum .plain _ value => value.isStr || value.isInt
  | _ => true

/-- A member of a plain enum has a JSON value. -/
def hasJsonMember : PyVal → Bool
  | .enum .plain _ value => value.isJson (fun _ => false) (fun _ => true)
  | _ => true

def isKnown : PyVal → Bool
  | .object _ _ => false
  | _ => true

/-- No float and nothing endless. The members of an enum of strings or of integers have such
values, and other objects have a text. -/
def isPlain : PyVal → Bool
  | .float _ | .endless _ => false
  | .enum .plain _ _ => true
  | .enum .str _ (.str _) => true
  | .enum .int _ (.int _) => true
  | .enum _ _ _ => false
  | .object _ api => api.str.isOk
  | _ => true

end PyVal

/-- Both computations return, or both raise the same exception. -/
def Agree {α : Type} : Except Exc α → Except Exc α → Prop
  | .ok _, .ok _ => True
  | .error e, .error e' => e = e'
  | _, _ => False

theorem Agree.refl {α : Type} (x : Except Exc α) : Agree x x := by
  cases x <;> simp [Agree]

theorem Agree.map {α β : Type} (f : α → β) {x y : Except Exc α} (h : Agree x y) :
    Agree (x.map f) (y.map f) := by
  cases x <;> cases y <;> simp_all [Agree, Except.map]

theorem Agree.cons {α β γ : Type} (f : α → β → γ) {x y : Except Exc α} {xs ys : Except Exc β}
    (h : Agree x y) (hs : Agree xs ys) :
    Agree (x.bind (fun a => xs.map (f a))) (y.bind (fun a => ys.map (f a))) := by
  cases x <;> cases y <;> cases xs <;> cases ys <;> simp_all [Agree, Except.map, Except.bind]

theorem Agree.ok {α : Type} {x y : Except Exc α} (h : Agree x y) {a : α} (hx : x = .ok a) :
    ∃ b, y = .ok b := by
  subst hx
  cases y with
  | ok b => exact ⟨b, rfl⟩
  | error e => exact h.elim

section

variable {a b : Bool}

mutual

/-- Whether the serialization returns, and what it raises, does not depend on the flag. -/
theorem serialize_agree : (v : PyVal) → Agree (serializeValue a v) (serializeValue b v)
  | .none | .bool _ | .int _ | .float _ | .str _ | .decimal _ | .uuid _ | .datetime _
  | .enum .plain _ _ | .enum .str _ _ | .enum .int _ _ | .endless _ => by
    simp [serializeValue, Agree]
  | .object _ _ => Agree.refl _
  | .list xs => (serializeList_agree xs).map _
  | .tuple xs => (serializeList_agree xs).map _
  | .dict items => (serializeItems_agree items).map _
  | .proxy items => (serializeItems_agree items).map _
  | .dataclass _ fields => (serializeFields_agree fields).map _

theorem serializeList_agree : (xs : List PyVal) → Agree (serializeList a xs) (serializeList b xs)
  | [] => Agree.refl _
  | x :: xs => (serialize_agree x).cons _ (serializeList_agree xs)

theorem serializeItems_agree : (items : List (PyVal × PyVal)) →
    Agree (serializeItems a items) (serializeItems b items)
  | [] => Agree.refl _
  | (k, x) :: items => (serialize_agree x).cons (fun y ys => (k, y) :: ys) (serializeItems_agree items)

theorem serializeFields_agree : (fields : List (String × PyVal)) →
    Agree (serializeFields a fields) (serializeFields b fields)
  | [] => Agree.refl _
  | (k, x) :: fields => (serialize_agree x).cons (fun y ys => (PyVal.str k, y) :: ys)
      (serializeFields_agree fields)

end

/-- A string or an integer is serialized already. -/
theorem serialize_simple {v : PyVal} (h : (v.isStr || v.isInt) = true) (iso : Bool) :
    serializeValue iso v = .ok v := by
  cases v with
  | enum base _ _ => cases base <;> simp_all [PyVal.isStr, PyVal.isInt, serializeValue]
  | _ => simp_all [PyVal.isStr, PyVal.isInt, serializeValue]

/-- Serializing the parts in two stages serializes what is built of them in two stages. -/
theorem staged_map {α β : Type} {f : α → β} {x z : Except Exc α} {r : α → Except Exc α}
    {s : β → Except Exc β} (hs : ∀ y, s (f y) = (r y).map f) (h : x.bind r = z) :
    (x.map f).bind s = z.map f := by
  subst h
  cases x with
  | error e => rfl
  | ok y => exact hs y

theorem staged_cons {α β γ : Type} {f : α → β → γ}
    {x z : Except Exc α} {xs zs : Except Exc β} {r : α → Except Exc α} {rs : β → Except Exc β}
    {s : γ → Except Exc γ} (hz : Agree x z)
    (hs : ∀ y ys, s (f y ys) = (r y).bind (fun y => (rs ys).map (f y)))
    (h : x.bind r = z) (hxs : xs.bind rs = zs) :
    (x.bind (fun y => xs.map (f y))).bind s = z.bind (fun y => zs.map (f y)) := by
  subst hxs
  cases x with
  | error e =>
    subst h
    rfl
  | ok y =>
    obtain ⟨w, rfl⟩ := hz.ok rfl
    have hy : r y = .ok w := h
    cases xs with
    | error e => rfl
    | ok ys => exact (hs y ys).trans (by rw [hy]; rfl)

mutual

/-- Two stages make the conversion that one of them makes. -/
theorem serialize_again : (v : PyVal) → v.walk PyVal.hasSimpleMember (fun _ => true) = true →
    (serializeValue a v).bind (serializeValue b) = serializeValue (a || b) v
  | .none, _ | .bool _, _ | .int _, _ | .float _, _ | .str _, _ | .decimal _, _ | .uuid _, _
  | .enum .str _ _, _ | .enum .int _ _, _ | .endless _, _ => by
    simp [serializeValue, Except.bind]
  | .object _ api, _ => by cases hs : api.str <;> simp [serializeValue, hs, Except.bind]
  | .datetime _, _ => by cases a <;> simp [serializeValue, Except.bind]
  | .enum .plain _ value, h => serialize_simple h b
  | .list xs, h => staged_map (fun _ => rfl) (serializeList_again xs h)
  | .tuple xs, h => staged_map (fun _ => rfl) (serializeList_again xs h)
  | .dict items, h => staged_map (fun _ => rfl) (serializeItems_again items h)
  | .proxy items, h => staged_map (fun _ => rfl) (serializeItems_again items h)
  | .dataclass _ fields, h => staged_map (fun _ => rfl) (serializeFields_again fields h)

theorem serializeList_again : (xs : List PyVal) →
    PyVal.walkList PyVal.hasSimpleMember (fun _ => true) xs = true →
    (serializeList a xs).bind (serializeList b) = serializeList (a || b) xs
  | [], _ => rfl
  | x :: xs, h => by
    obtain ⟨hx, hxs⟩ := (Bool.and_eq_true _ _).mp h
    exact staged_cons (serialize_agree x) (fun _ _ => rfl) (serialize_again x hx)
      (serializeList_again xs hxs)

theorem serializeItems_again : (items : List (PyVal × PyVal)) →
    PyVal.walkItems PyVal.hasSimpleMember (fun _ => true) items = true →
    (serializeItems a items).bind (serializeItems b) = serializeItems (a || b) items
  | [], _ => rfl
  | (k, x) :: items, h => by
    obtain ⟨_, h⟩ := (Bool.and_eq_true _ _).mp h
    obtain ⟨hx, hxs⟩ := (Bool.and_eq_true _ _).mp h
    exact staged_cons (f := fun y ys => (k, y) :: ys) (serialize_agree x) (fun _ _ => rfl)
      (serialize_again x hx) (serializeItems_again items hxs)

theorem serializeFields_again : (fields : List (String × PyVal)) →
    PyVal.walkFields PyVal.hasSimpleMember (fun _ => true) fields = true →
    (serializeFields a fields).bind (serializeItems b) = serializeFields (a || b) fields
  | [], _ => rfl
  | (k, x) :: fields, h => by
    obtain ⟨hx, hxs⟩ := (Bool.and_eq_true _ _).mp h
    exact staged_cons (f := fun y ys => (PyVal.str k, y) :: ys) (s := serializeItems b)
      (serialize_agree x) (fun _ _ => rfl) (serialize_again x hx)
      (serializeFields_again fields hxs)

end

/-- Serializing for the outbox and then for the wire is serializing for the wire, and neither
stage changes what it has made itself. -/
theorem serialize_in_stages {v : PyVal}
    (h : v.walk PyVal.hasSimpleMember (fun _ => true) = true) :
    ((∃ w, serializeValue false v = .ok w) ↔ ∃ w, serializeValue true v = .ok w) ∧
    (∀ iso w, serializeValue iso v = .ok w → serializeValue iso w = .ok w) ∧
    ∀ w, serializeValue false v = .ok w → serializeValue true w = serializeValue true v := by
  refine ⟨⟨fun ⟨_, hw⟩ => (serialize_agree v).ok hw, fun ⟨_, hw⟩ => (serialize_agree v).ok hw⟩,
    fun iso w hw => ?_, fun w hw => ?_⟩
  · have hagain := @serialize_again iso iso v h
    rwa [Bool.or_self, hw] at hagain
  · have hagain := @serialize_again false true v h
    rwa [hw] at hagain

def sampleInstant : DateTime := ⟨2026, 3, 4, 5, 6, 7, 0, by decide⟩

/-- A nested value of all shapes, with a member of a plain enum and one of an enum of strings. -/
def sampleNested : PyVal :=
  .dict [(.str "at", .datetime sampleInstant),
    (.uuid ⟨1⟩, .tuple [.decimal (.finite false 100 (-2)), PaymentStatus.failed.toPy]),
    (.int 1, .proxy [(.str "currency", Currency.rub.toPy)]),
    (.none, .dataclass "Event" [("items", .list [.none, .bool true, .float 0])])]

theorem serialize_in_stages_nested : ∃ w w', serializeValue false sampleNested = .ok w ∧
    serializeValue true sampleNested = .ok w' ∧ w ≠ w' ∧ serializeValue true w = .ok w' := by
  have h := serialize_in_stages (v := sampleNested) (by decide)
  have hne : ∀ (t : DateTime) s items items',
      PyVal.dict ((.str "at", .datetime t) :: items) ≠ .dict ((.str "at", .str s) :: items') := by
    intro t s items items' he
    cases he
  exact ⟨_, _, rfl, rfl, hne _ _ _ _, h.2.2 _ rfl⟩

/-- What the serialization for the wire tells of a value: it raises where it comes to an object
that no branch accepts, and makes JSON where the tests of the enums and of the keys pass. -/
def Judged {α β : Type} (known json : α → Bool) (isJson : β → Bool) (x : α)
    (r : Except Exc β) : Prop :=
  match r with
  | .ok y => known x = true ∧ isJson y = json x
  | .error e => known x = false ∧ ∃ message, e = .serialization message

theorem Judged.map {α β γ δ : Type} {known json : α → Bool} {known' json' : γ → Bool}
    {isJson : β → Bool} {isJson' : δ → Bool} {x : α} {x' : γ} {r : Except Exc β} {f : β → δ}
    (h : Judged known json isJson x r) (hk : known' x' = known x) (hj : json' x' = json x)
    (hf : ∀ y, isJson' (f y) = isJson y) : Judged known' json' isJson' x' (r.map f) := by
  cases r with
  | ok y => exact ⟨hk.trans h.1, by rw [hf, h.2, hj]⟩
  | error e => exact ⟨hk.trans h.1, h.2⟩

theorem Judged.cons {α β γ δ ε ζ : Type} {known json : α → Bool} {knowns jsons : γ → Bool}
    {known' json' : ε → Bool} {isJson : β → Bool} {isJsons : δ → Bool} {isJson' : ζ → Bool}
    {x : α} {xs : γ} {x' : ε} {r : Except Exc β} {rs : Except Exc δ} {f : β → δ → ζ} {c : Bool}
    (h : Judged known json isJson x r) (hs : Judged knowns jsons isJsons xs rs)
    (hk : known' x' = (known x && knowns xs)) (hj : json' x' = (c && (json x && jsons xs)))
    (hf : ∀ y ys, isJson' (f y ys) = (c && (isJson y && isJsons ys))) :
    Judged known' json' isJson' x' (r.bind (fun y => rs.map (f y))) := by
  cases r with
  | error e => exact ⟨by rw [hk, h.1]; rfl, h.2⟩
  | ok y =>
    cases rs with
    | error e => exact ⟨by rw [hk, hs.1, Bool.and_false], hs.2⟩
    | ok ys => exact ⟨by rw [hk, h.1, hs.1]; rfl, by rw [hf, h.2, hs.2, hj]⟩

open PyVal in
mutual

theorem serialize_judged : (v : PyVal) → v.walk isPlain (fun _ => true) = true →
    Judged (walk isKnown (fun _ => true)) (walk hasJsonMember isText)
      (isJson (fun _ => false) (fun _ => true)) v (serializeValue true v)
  | .none, _ | .bool _, _ | .int _, _ | .str _, _ | .decimal _, _ | .uuid _, _ | .datetime _, _
  | .enum .plain _ _, _ | .enum .str _ (.str _), _ | .enum .int _ (.int _), _ => by
    simp [Judged, serializeValue, walk, isKnown, hasJsonMember, isJson]
  | .object _ api, h => by
    have hok : api.str.isOk = true := h
    cases hs : api.str with
    | ok text => simp [Judged, serializeValue, hs, Except.bind, walk, isKnown]
    | error e =>
      rw [hs] at hok
      cases hok
  | .list xs, h => (serializeList_judged xs h).map rfl rfl (fun _ => rfl)
  | .tuple xs, h => (serializeList_judged xs h).map rfl rfl (fun _ => rfl)
  | .dict items, h => (serializeItems_judged items h).map rfl rfl (fun _ => rfl)
  | .proxy items, h => (serializeItems_judged items h).map rfl rfl (fun _ => rfl)
  | .dataclass _ fields, h => (serializeFields_judged fields h).map rfl rfl (fun _ => rfl)

theorem serializeList_judged : (xs : List PyVal) → walkList isPlain (fun _ => true) xs = true →
    Judged (walkList isKnown (fun _ => true)) (walkList hasJsonMember isText)
      (isJsonList (fun _ => false) (fun _ => true)) xs (serializeList true xs)
  | [], _ => ⟨rfl, rfl⟩
  | x :: xs, h => by
    obtain ⟨hx, hxs⟩ := (Bool.and_eq_true _ _).mp h
    exact (serialize_judged x hx).cons (c := true) (serializeList_judged xs hxs) rfl rfl
      (fun _ _ => rfl)

theorem serializeItems_judged : (items : List (PyVal × PyVal)) →
    walkItems isPlain (fun _ => true) items = true →
    Judged (walkItems isKnown (fun _ => true)) (walkItems hasJsonMember isText)
      (isJsonItems (fun _ => false) (fun _ => true)) items (serializeItems true items)
  | [], _ => ⟨rfl, rfl⟩
  | (k, x) :: items, h => by
    obtain ⟨_, h⟩ := (Bool.and_eq_true _ _).mp h
    obtain ⟨hx, hxs⟩ := (Bool.and_eq_true _ _).mp h
    exact (serialize_judged x hx).cons (serializeItems_judged items hxs) rfl rfl (fun _ _ => rfl)

theorem serializeFields_judged : (fields : List (String × PyVal)) →
    walkFields isPlain (fun _ => true) fields = true →
    Judged (walkFields isKnown (fun _ => true)) (walkFields hasJsonMember isText)
      (isJsonItems (fun _ => false) (fun _ => true)) fields (serializeFields true fields)
  | [], _ => ⟨rfl, rfl⟩
  | (k, x) :: fields, h => by
    obtain ⟨hx, hxs⟩ := (Bool.and_eq_true _ _).mp h
    exact (serialize_judged x hx).cons (serializeFields_judged fields hxs) rfl rfl (fun _ _ => rfl)

end

end

end Payments
