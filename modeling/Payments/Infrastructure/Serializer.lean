import Payments.Domain.Payment

namespace Payments

mutual

/-- `_serialize_value`. Members of enums that inherit from `str` or `int` pass the first
test and stay members. -/
def serializeValue (iso : Bool) : PyVal → Except Exc PyVal
  | .none => .ok .none
  | .str s => .ok (.str s)
  | .int i => .ok (.int i)
  | .float bits => .ok (.float bits)
  | .bool b => .ok (.bool b)
  | .enum .str name value => .ok (.enum .str name value)
  | .enum .int name value => .ok (.enum .int name value)
  | .decimal d => .ok (.str d.str)
  | .uuid u => .ok (.str u.str)
  | .datetime t => .ok (if iso then .str t.isoformat else .datetime t)
  | .enum .plain _ value => .ok value
  | .dict items => (serializeItems iso items).map .dict
  | .list xs => (serializeList iso xs).map .list
  | .tuple xs => (serializeList iso xs).map .list
  | .proxy items => (serializeItems iso items).map .dict
  | .dataclass _ fields => (serializeFields iso fields).map .dict
  | .object cls api => api.str.bind (fun text =>
      .error (.serialization ("Cannot serialize " ++ cls ++ ": " ++ text)))
  | .endless _ => .error .recursion

def serializeList (iso : Bool) : List PyVal → Except Exc (List PyVal)
  | [] => .ok []
  | x :: xs => (serializeValue iso x).bind (fun y => (serializeList iso xs).map (fun ys => y :: ys))

def serializeItems (iso : Bool) : List (PyVal × PyVal) → Except Exc (List (PyVal × PyVal))
  | [] => .ok []
  | (k, x) :: items => (serializeValue iso x).bind (fun y =>
      (serializeItems iso items).map (fun ys => (k, y) :: ys))

def serializeFields (iso : Bool) : List (String × PyVal) → Except Exc (List (PyVal × PyVal))
  | [] => .ok []
  | (k, x) :: fields => (serializeValue iso x).bind (fun y =>
      (serializeFields iso fields).map (fun ys => (.str k, y) :: ys))

end

/-- The class that `hash` names when a value cannot be the key of a dictionary. -/
def PyVal.unhashable : PyVal → Option String
  | .list _ => some "list"
  | .dict _ => some "dict"
  | .proxy _ => some "mappingproxy"
  | .tuple xs => unhashableList xs
  | _ => .none
where
  unhashableList : List PyVal → Option String
    | [] => .none
    | x :: xs => x.unhashable.or (unhashableList xs)

/-- `hash(value)`, as far as it raises. -/
def PyVal.hash (v : PyVal) : Except Exc Unit :=
  match v.unhashable with
  | .none => .ok ()
  | some cls => .error (.typeError ("unhashable type: '" ++ cls ++ "'"))

mutual

/-- `dataclasses.asdict` on a field value: dataclasses become dictionaries at any depth, in the
keys of dictionaries too, and other objects are copied, which a mapping proxy refuses. -/
def asdictInner : PyVal → Except Exc PyVal
  | .dataclass _ fields => (asdictFields fields).map .dict
  | .list xs => (asdictList xs).map .list
  | .tuple xs => (asdictList xs).map .tuple
  | .dict items => (asdictItems items).map .dict
  | .proxy _ => .error (.typeError "cannot pickle 'mappingproxy' object")
  | .object cls api => match api.deepcopy with
    | none => .ok (.object cls api)
    | some e => .error e
  | .endless _ => .error .recursion
  | v => .ok v

def asdictList : List PyVal → Except Exc (List PyVal)
  | [] => .ok []
  | x :: xs => (asdictInner x).bind (fun y => (asdictList xs).map (fun ys => y :: ys))

/-- An entry is inserted when its key and its value are copied. -/
def asdictItems : List (PyVal × PyVal) → Except Exc (List (PyVal × PyVal))
  | [] => .ok []
  | (k, x) :: items => (asdictInner k).bind (fun key => (asdictInner x).bind (fun y =>
      key.hash.bind (fun _ => (asdictItems items).map (fun ys => (key, y) :: ys))))

def asdictFields : List (String × PyVal) → Except Exc (List (PyVal × PyVal))
  | [] => .ok []
  | (k, x) :: fields => (asdictInner x).bind (fun y =>
      (asdictFields fields).map (fun ys => (.str k, y) :: ys))

end

def METADATA_FIELDS : List String :=
  ["id", "occurred_at", "payload", "__version__", "__event_key__", "__event_group__"]

/-- What `serialize_event` returns. -/
structure SerializedEvent where
  id : String
  occurredAt : PyVal
  queue : String
  payload : List (String × PyVal)

/-- Map the values of a dictionary with string keys, up to the first exception. -/
def mapValues (f : PyVal → Except Exc PyVal) :
    List (String × PyVal) → Except Exc (List (String × PyVal))
  | [] => .ok []
  | (k, x) :: fields => (f x).bind (fun y => (mapValues f fields).map (fun ys => (k, y) :: ys))

/-- `value.isoformat()`. -/
def isoformatOf : PyVal → Except Exc PyVal
  | .datetime t => .ok (.str t.isoformat)
  | .object _ api => api.isoformat.map .str
  | v => .error (.attributeError ("'" ++ v.typeName ++ "' object has no attribute 'isoformat'"))

/-- `serialize_event`. -/
def serializeEvent (event : PaymentEvent) (convertToIso : Bool) : Except Exc SerializedEvent := do
  let _ ← asdictInner event.occurredAt
  let eventDict ← mapValues asdictInner event.fields
  let payload ← mapValues (serializeValue convertToIso)
    (eventDict.filter (fun (k, _) => k ∉ METADATA_FIELDS))
  let occurredAt ← if convertToIso then isoformatOf event.occurredAt else .ok event.occurredAt
  .ok ⟨event.id.str, occurredAt, event.cls.eventGroup ++ "." ++ event.cls.eventKey, payload⟩

/-- The dictionary that holds a serialized event. -/
def SerializedEvent.toPy (s : SerializedEvent) : PyVal :=
  .dict [(.str "id", .str s.id), (.str "occurred_at", s.occurredAt), (.str "queue", .str s.queue),
    (.str "payload", .dict (s.payload.map (fun (k, v) => (.str k, v))))]

/-- Put the keyword arguments of an event class in the order of its fields, with defaults.
A `TypeError` of the constructor is none. -/
def bindParams (kwargs : List (PyVal × PyVal)) :
    List (String × Option PyVal) → Option (List (String × PyVal))
  | [] => some []
  | (name, default) :: params =>
    let given := (kwargs.find? (fun (k, _) => k.jsonKey.toOption = some name)).map Prod.snd
    (given.or default).bind (fun v => (bindParams kwargs params).map (fun vs => (name, v) :: vs))

/-- `rebuild_event` on a row of the outbox. -/
def rebuildEvent (id : UUID) (occurredAt : DateTime) (queue : String) (payload : PyVal) :
    Except Exc PaymentEvent :=
  match eventRegistry queue with
  | none => .error (.valueError ("Unknown event type: " ++ queue ++
      ". Available: payments.*, payments.new, payments.processed"))
  | some cls =>
    match payload with
    | .dict kwargs =>
      if kwargs.all (fun (k, _) => (cls.params.map Prod.fst ++ ["payload"]).any
          (fun name => k.jsonKey.toOption = some name)) then
        match bindParams kwargs cls.params with
        | some fields => .ok ⟨cls, id, .datetime occurredAt, fields⟩
        | none => .error (.valueError ("Cannot reconstruct " ++ queue))
      else .error (.valueError ("Cannot reconstruct " ++ queue))
    | _ => .error (.valueError ("Cannot reconstruct " ++ queue))

/-- `_parse_event_to_message`: the JSON value that the body of the message spells. -/
def parseEventToMessage (event : PaymentEvent) : Except Exc Json := do
  let serialized ← serializeEvent event true
  serialized.toPy.dumps

end Payments
