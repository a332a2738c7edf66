import Payments.Lib.Program
import Payments.Infrastructure.Serializer

namespace Payments

open Lib

namespace PyVal

/-- What a way through a value raises at what it comes to: at a mapping proxy, at a value that it
does not open, at the key of an entry and after the entry. The keys are gone through as well, or
they are not. -/
structure Tests where
  keys : Bool
  proxy : Option Exc
  leaf : PyVal → Option Exc
  key : PyVal → Option Exc
  entry : PyVal → Option Exc

mutual

/-- The first thing that is raised on the way through a value, which opens lists, tuples,
dictionaries, proxies and dataclasses. -/
def first (T : Tests) : PyVal → Option Exc
  | .list xs => firstList T xs
  | .tuple xs => firstList T xs
  | .dict items => firstItems T items
  | .proxy items => T.proxy.or (firstItems T items)
  | .dataclass _ fields => firstFields T fields
  | v => T.leaf v

def firstList (T : Tests) : List PyVal → Option Exc
  | [] => .none
  | x :: xs => (x.first T).or (firstList T xs)

def firstItems (T : Tests) : List (PyVal × PyVal) → Option Exc
  | [] => .none
  | (k, x) :: items => (if T.keys then k.first T else .none).or
      ((T.key k).or ((x.first T).or ((T.entry k).or (firstItems T items))))

def firstFields (T : Tests) : List (String × PyVal) → Option Exc
  | [] => .none
  | (_, x) :: fields => (x.first T).or (firstFields T fields)

end

/-- The class that `hash` names when the copy of a value cannot be the key of a dictionary. -/
def unkeyable : PyVal → Option String
  | .dataclass _ _ => some "dict"
  | .tuple xs => unkeyableList xs
  | v => v.unhashable
where
  unkeyableList : List PyVal → Option String
    | [] => .none
    | x :: xs => x.unkeyable.or (unkeyableList xs)

/-- What `asdict` raises: at a proxy, at an object that cannot be copied, where there is no end,
and at a key whose copy is none. -/
def copies : Tests where
  keys := true
  proxy := some (.typeError "cannot pickle 'mappingproxy' object")
  leaf
    | .object _ api => api.deepcopy
    | .endless _ => some .recursion
    | _ => .none
  key _ := .none
  entry k := k.unkeyable.map (fun cls => .typeError ("unhashable type: '" ++ cls ++ "'"))

/-- What `_serialize_value` raises: at an object, which no branch accepts, whose text its message
needs. -/
def refuses : Tests where
  keys := false
  proxy := .none
  leaf
    | .object cls api => match api.str with
      | .ok text => some (.serialization ("Cannot serialize " ++ cls ++ ": " ++ text))
      | .error e => some e
    | .endless _ => some .recursion
    | _ => .none
  key _ := .none
  entry _ := .none

/-- What `json.dumps` raises on what `_serialize_value` makes of a value: at a key, at a value that
is left as it is, and at the value of a plain member. -/
def writes : Tests where
  keys := false
  proxy := .none
  leaf
    | .decimal _ | .uuid _ | .datetime _ => .none
    | .enum .plain _ value => raised value.dumps
    | v => raised v.dumps
  key k := raised k.jsonKey
  entry _ := .none

theorem hash_raised (v : PyVal) : raised v.hash =
    v.unhashable.map (fun cls => .typeError ("unhashable type: '" ++ cls ++ "'")) := by
  unfold hash
  cases v.unhashable <;> rfl

mutual

theorem asdict_unhashable : (v : PyVal) → {y : PyVal} → asdictInner v = .ok y →
    y.unhashable = v.unkeyable
  | .none, _, h | .bool _, _, h | .int _, _, h | .float _, _, h | .str _, _, h | .decimal _, _, h
  | .uuid _, _, h | .datetime _, _, h | .enum _ _ _, _, h => by
    cases h
    rfl
  | .object _ api, _, h => by
    unfold asdictInner at h
    split at h <;> cases h
    rfl
  | .list _, _, h | .dict _, _, h | .dataclass _ _, _, h => by
    obtain ⟨_, _, rfl⟩ := except_map_ok.mp h
    rfl
  | .tuple xs, _, h => by
    obtain ⟨ys, hys, rfl⟩ := except_map_ok.mp h
    exact asdictList_unhashable xs hys

theorem asdictList_unhashable : (xs : List PyVal) → {ys : List PyVal} → asdictList xs = .ok ys →
    unhashable.unhashableList ys = unkeyable.unkeyableList xs
  | [], _, h => by
    cases h
    rfl
  | x :: xs, _, h => by
    obtain ⟨y, hy, h⟩ := except_bind_ok.mp h
    obtain ⟨ys, hys, rfl⟩ := except_map_ok.mp h
    rw [unhashable.unhashableList, unkeyable.unkeyableList, asdict_unhashable x hy,
      asdictList_unhashable xs hys]

end

mutual

/-- `asdict` goes this way, and raises the first thing on it. -/
theorem asdict_raised : (v : PyVal) → raised (asdictInner v) = v.first copies
  | .none | .bool _ | .int _ | .float _ | .str _ | .decimal _ | .uuid _ | .datetime _
  | .enum _ _ _ | .proxy _ | .endless _ | .object _ ⟨_, .none, _⟩ | .object _ ⟨_, some _, _⟩ => rfl
  | .list xs | .tuple xs => by rw [asdictInner, raised_map, first, asdictList_raised]
  | .dict items => by rw [asdictInner, raised_map, first, asdictItems_raised]
  | .dataclass _ fields => by rw [asdictInner, raised_map, first, asdictFields_raised]

theorem asdictList_raised : (xs : List PyVal) → raised (asdictList xs) = firstList copies xs
  | [] => rfl
  | x :: xs => by
    rw [asdictList, firstList, ← asdict_raised x, ← asdictList_raised xs]
    exact raised_bind (fun _ _ => raised_map _ _)

theorem asdictItems_raised : (items : List (PyVal × PyVal)) →
    raised (asdictItems items) = firstItems copies items
  | [] => rfl
  | (k, x) :: items => by
    have hentry : ∀ {key : PyVal}, asdictInner k = .ok key → ∀ y, raised (key.hash.bind (fun _ =>
        (asdictItems items).map (fun ys => (key, y) :: ys))) =
          (copies.entry k).or (raised (asdictItems items)) := by
      intro key hkey y
      have hhash : raised key.hash = copies.entry k := by
        rw [hash_raised, asdict_unhashable k hkey]
        rfl
      rw [raised_bind (fun _ _ => raised_map _ _), hhash]
    rw [asdictItems, raised_bind (fun _ hkey => raised_bind (fun y _ => hentry hkey y)), firstItems,
      asdict_raised k, asdict_raised x, asdictItems_raised items]
    rfl

theorem asdictFields_raised : (fields : List (String × PyVal)) →
    raised (asdictFields fields) = firstFields copies fields
  | [] => rfl
  | (_, x) :: fields => by
    rw [asdictFields, firstFields, ← asdict_raised x, ← asdictFields_raised fields]
    exact raised_bind (fun _ _ => raised_map _ _)

end

/-- A way that finds the same in a copy: it does not go through the keys, and raises at the copy of
a key what it raises at the key. -/
structure Tests.Steady (T : Tests) : Prop where
  keys : T.keys = false
  name : ∀ k, T.key (.str k) = .none
  key : ∀ {k key}, asdictInner k = .ok key → k.unkeyable = .none → T.key key = T.key k
  entry : ∀ k, T.entry k = .none

theorem refuses_steady : refuses.Steady :=
  ⟨rfl, fun _ => rfl, fun _ _ => rfl, fun _ => rfl⟩

theorem writes_steady : writes.Steady := by
  refine ⟨rfl, fun _ => rfl, fun {k key} hk hu => ?_, fun _ => rfl⟩
  cases k with
  | list _ | dict _ | dataclass _ _ => cases hu
  | proxy _ | endless _ => cases hk
  | tuple _ =>
    obtain ⟨_, _, rfl⟩ := except_map_ok.mp hk
    rfl
  | object _ api =>
    obtain ⟨_, copy, _⟩ := api
    cases copy <;> cases hk
    rfl
  | _ =>
    cases hk
    rfl

section

variable {T : Tests}

theorem first_item (h : T.Steady) (k x : PyVal) (items : List (PyVal × PyVal)) :
    firstItems T ((k, x) :: items) = (T.key k).or ((x.first T).or (firstItems T items)) := by
  rw [firstItems, h.keys, h.entry]
  rfl

mutual

/-- A copy has what its original has, but dictionaries for dataclasses. -/
theorem asdict_first (h : T.Steady) : (v : PyVal) → {y : PyVal} → asdictInner v = .ok y →
    y.first T = v.first T
  | .none, _, hy | .bool _, _, hy | .int _, _, hy | .float _, _, hy | .str _, _, hy
  | .decimal _, _, hy | .uuid _, _, hy | .datetime _, _, hy | .enum _ _ _, _, hy
  | .object _ ⟨_, .none, _⟩, _, hy => by
    cases hy
    rfl
  | .list xs, _, hy | .tuple xs, _, hy => by
    obtain ⟨ys, hys, rfl⟩ := except_map_ok.mp hy
    exact asdictList_first h xs hys
  | .dict items, _, hy => by
    obtain ⟨ys, hys, rfl⟩ := except_map_ok.mp hy
    exact asdictItems_first h items hys
  | .dataclass _ fields, _, hy => by
    obtain ⟨ys, hys, rfl⟩ := except_map_ok.mp hy
    exact asdictFields_first h fields hys

theorem asdictList_first (h : T.Steady) : (xs : List PyVal) → {ys : List PyVal} →
    asdictList xs = .ok ys → firstList T ys = firstList T xs
  | [], _, hy => by
    cases hy
    rfl
  | x :: xs, _, hy => by
    obtain ⟨y, hx, hy⟩ := except_bind_ok.mp hy
    obtain ⟨ys, hys, rfl⟩ := except_map_ok.mp hy
    rw [firstList, firstList, asdict_first h x hx, asdictList_first h xs hys]

theorem asdictItems_first (h : T.Steady) : (items : List (PyVal × PyVal)) →
    {ys : List (PyVal × PyVal)} → asdictItems items = .ok ys → firstItems T ys = firstItems T items
  | [], _, hy => by
    cases hy
    rfl
  | (k, x) :: items, _, hy => by
    obtain ⟨key, hk, hy⟩ := except_bind_ok.mp hy
    obtain ⟨y, hx, hy⟩ := except_bind_ok.mp hy
    obtain ⟨_, hh, hy⟩ := except_bind_ok.mp hy
    obtain ⟨ys, hys, rfl⟩ := except_map_ok.mp hy
    have hu : k.unkeyable = .none := by
      have hnone : raised key.hash = .none := congrArg raised hh
      rw [hash_raised, asdict_unhashable k hk] at hnone
      exact Option.map_eq_none_iff.mp hnone
    rw [first_item h, first_item h, h.key hk hu, asdict_first h x hx, asdictItems_first h items hys]

theorem asdictFields_first (h : T.Steady) : (fields : List (String × PyVal)) →
    {ys : List (PyVal × PyVal)} → asdictFields fields = .ok ys →
    firstItems T ys = firstFields T fields
  | [], _, hy => by
    cases hy
    rfl
  | (_, x) :: fields, _, hy => by
    obtain ⟨y, hx, hy⟩ := except_bind_ok.mp hy
    obtain ⟨ys, hys, rfl⟩ := except_map_ok.mp hy
    rw [first_item h, h.name, firstFields, asdict_first h x hx, asdictFields_first h fields hys]
    rfl

end

end

variable (iso : Bool)

mutual

/-- So does `_serialize_value`, whatever it does with a time. -/
theorem serialize_raised : (v : PyVal) → raised (serializeValue iso v) = v.first refuses
  | .none | .bool _ | .int _ | .float _ | .str _ | .decimal _ | .uuid _ | .datetime _
  | .enum .str _ _ | .enum .int _ _ | .enum .plain _ _ | .endless _
  | .object _ ⟨.ok _, _, _⟩ | .object _ ⟨.error _, _, _⟩ => rfl
  | .list xs | .tuple xs => by rw [serializeValue, raised_map, first, serializeList_raised xs]
  | .dict items => by rw [serializeValue, raised_map, first, serializeItems_raised items]
  | .proxy items => by
    rw [serializeValue, raised_map, first, serializeItems_raised items]
    rfl
  | .dataclass _ fields => by rw [serializeValue, raised_map, first, serializeFields_raised fields]

theorem serializeList_raised : (xs : List PyVal) →
    raised (serializeList iso xs) = firstList refuses xs
  | [] => rfl
  | x :: xs => by
    rw [serializeList, firstList, ← serialize_raised x, ← serializeList_raised xs]
    exact raised_bind (fun _ _ => raised_map _ _)

theorem serializeItems_raised : (items : List (PyVal × PyVal)) →
    raised (serializeItems iso items) = firstItems refuses items
  | [] => rfl
  | (_, x) :: items => by
    rw [serializeItems, first_item refuses_steady, ← serialize_raised x,
      ← serializeItems_raised items]
    exact raised_bind (fun _ _ => raised_map _ _)

theorem serializeFields_raised : (fields : List (String × PyVal)) →
    raised (serializeFields iso fields) = firstFields refuses fields
  | [] => rfl
  | (_, x) :: fields => by
    rw [serializeFields, firstFields, ← serialize_raised x, ← serializeFields_raised fields]
    exact raised_bind (fun _ _ => raised_map _ _)

end

mutual

/-- What `json.dumps` raises on a value that is serialized for it. -/
theorem serialize_dumps : (v : PyVal) → {z : PyVal} → serializeValue true v = .ok z →
    raised z.dumps = v.first writes
  | .none, _, hz | .bool _, _, hz | .int _, _, hz | .float _, _, hz | .str _, _, hz
  | .decimal _, _, hz | .uuid _, _, hz | .datetime _, _, hz | .enum .str _ _, _, hz
  | .enum .int _ _, _, hz | .enum .plain _ _, _, hz => by
    cases hz
    rfl
  | .object _ ⟨.ok _, _, _⟩, _, hz | .object _ ⟨.error _, _, _⟩, _, hz | .endless _, _, hz => by
    cases hz
  | .list xs, _, hz | .tuple xs, _, hz => by
    obtain ⟨zs, hzs, rfl⟩ := except_map_ok.mp hz
    rw [dumps, raised_map, first, serializeList_dumps xs hzs]
  | .dict items, _, hz | .proxy items, _, hz => by
    obtain ⟨zs, hzs, rfl⟩ := except_map_ok.mp hz
    rw [dumps, raised_map, serializeItems_dumps items hzs]
    rfl
  | .dataclass _ fields, _, hz => by
    obtain ⟨zs, hzs, rfl⟩ := except_map_ok.mp hz
    rw [dumps, raised_map, first, serializeFields_dumps fields hzs]

theorem serializeList_dumps : (xs : List PyVal) → {zs : List PyVal} →
    serializeList true xs = .ok zs → raised (dumpsList zs) = firstList writes xs
  | [], _, hz => by
    cases hz
    rfl
  | x :: xs, _, hz => by
    obtain ⟨z, hx, hz⟩ := except_bind_ok.mp hz
    obtain ⟨zs, hzs, rfl⟩ := except_map_ok.mp hz
    rw [firstList, ← serialize_dumps x hx, ← serializeList_dumps xs hzs]
    exact raised_bind (fun _ _ => raised_map _ _)

theorem serializeItems_dumps : (items : List (PyVal × PyVal)) → {zs : List (PyVal × PyVal)} →
    serializeItems true items = .ok zs → raised (dumpsItems zs) = firstItems writes items
  | [], _, hz => by
    cases hz
    rfl
  | (_, x) :: items, _, hz => by
    obtain ⟨z, hx, hz⟩ := except_bind_ok.mp hz
    obtain ⟨zs, hzs, rfl⟩ := except_map_ok.mp hz
    rw [first_item writes_steady, ← serialize_dumps x hx, ← serializeItems_dumps items hzs]
    exact raised_bind (fun _ _ => raised_bind (fun _ _ => raised_map _ _))

theorem serializeFields_dumps : (fields : List (String × PyVal)) → {zs : List (PyVal × PyVal)} →
    serializeFields true fields = .ok zs → raised (dumpsItems zs) = firstFields writes fields
  | [], _, hz => by
    cases hz
    rfl
  | (_, x) :: fields, _, hz => by
    obtain ⟨z, hx, hz⟩ := except_bind_ok.mp hz
    obtain ⟨zs, hzs, rfl⟩ := except_map_ok.mp hz
    rw [firstFields, ← serialize_dumps x hx, ← serializeFields_dumps fields hzs]
    exact raised_bind (x := z.dumps) (fun _ _ => raised_map _ _)

end

end PyVal

open PyVal

/-- The fields that the payload of a message is made of. -/
def PaymentEvent.payload (e : PaymentEvent) : List (String × PyVal) :=
  e.fields.filter (fun (k, _) => k ∉ METADATA_FIELDS)

section

variable {f : PyVal → Except Exc PyVal} {T : Tests} {fields ys : List (String × PyVal)}

end

end Payments
