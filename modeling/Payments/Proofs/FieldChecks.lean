import Payments.Domain.FieldChecks

namespace Payments

/-- A `DomainTypeError` is raised. -/
def Raises (r : Except Exc Unit) : Prop :=
  ∃ message context, r = .error (.domainType message context)

theorem not_raises_ok : ¬ Raises (.ok ()) := by
  rintro ⟨_, _, h⟩
  cases h

theorem raises_error (message : String) (context : List (String × String)) :
    Raises (.error (.domainType message context)) := ⟨message, context, rfl⟩

/-- A loop of checks that raise nothing else raises when one of them does. -/
theorem forM_raises {α : Type} {f : α → Except Exc Unit} {xs : List α}
    (h : ∀ x, f x = .ok () ∨ Raises (f x)) : Raises (xs.forM f) ↔ ∃ x ∈ xs, Raises (f x) := by
  induction xs with
  | nil =>
    have hnil : ([] : List α).forM f = .ok () := rfl
    simp [hnil, not_raises_ok]
  | cons x xs ih =>
    have hcons : (x :: xs).forM f = (f x).bind (fun _ => xs.forM f) := rfl
    rw [hcons, List.exists_mem_cons_iff, ← ih]
    rcases h x with hx | ⟨message, context, hx⟩
    · simp [hx, not_raises_ok, Except.bind]
    · simp [hx, raises_error, Except.bind]

namespace FieldValue

/-- What the checks are meant to accept of a field: a domain object or a member of an enum,
`None`, a boolean, or a list of domain objects. Which sequences count as lists is left open. -/
def isAllowed (domain lists : Kind → Bool) (v : FieldValue) : Bool :=
  domain v.kind || v.kind.isNone || v.kind.isBool || (lists v.kind && v.elements.all domain)

/-- A sequence that is not allowed, but holds domain objects only, or nothing at all, as the
empty string. -/
def slips (lists : Kind → Bool) (v : FieldValue) : Bool :=
  !v.isAllowed Kind.isAccepted lists && v.kind.isSequence && v.elements.all Kind.isAccepted

/-- A domain object that is also a sequence, of other things. -/
def isMisread (v : FieldValue) : Bool :=
  (v.kind.isValueObject || v.kind.isEntity || v.kind.isDomainEvent) &&
    !(v.kind.isEnum || v.kind.isNone || v.kind.isBool) &&
    v.kind.isSequence && !v.elements.all Kind.isAccepted

/-- What is rightly refused. -/
def isRefused (lists : Kind → Bool) (v : FieldValue) : Bool :=
  !v.isAllowed Kind.isAccepted lists && !v.slips lists

theorem refused_or_slips {lists : Kind → Bool} {v : FieldValue} :
    v.isAllowed Kind.isAccepted lists = false ↔ v.isRefused lists = true ∨ v.slips lists = true := by
  cases ha : v.isAllowed Kind.isAccepted lists with
  | true => simp [isRefused, slips, ha]
  | false => cases hs : v.slips lists <;> simp [isRefused, ha, hs]

end FieldValue

namespace Aggregate

variable {name : String} {v : FieldValue} {lists : Kind → Bool}

theorem checkField_cases (name : String) (v : FieldValue) :
    checkField name v = .ok () ∨ Raises (checkField name v) := by
  unfold checkField
  repeat' split
  all_goals first | exact .inl rfl | exact .inr (raises_error _ _)

/-- The loop over the elements of a sequence raises when one of them is no domain object. -/
theorem find_foreign {els : List Kind} :
    els.find? (fun el => !el.isAccepted) = none ↔ els.all Kind.isAccepted = true := by
  simp

theorem checkField_raises (hl : ∀ k, lists k = true → k.isSequence = true)
    (hn : name ≠ "id" ∧ name ≠ "_rebuilding") :
    Raises (checkField name v) ↔ (v.isRefused lists || v.isMisread) = true := by
  have hlist := hl v.kind
  unfold checkField
  rw [if_neg (by simp [hn])]
  simp only [FieldValue.isRefused, FieldValue.isMisread, FieldValue.slips, FieldValue.isAllowed]
  cases hf : v.elements.find? (fun el => !el.isAccepted) with
  | none =>
    rw [find_foreign.mp hf]
    simp only [Kind.isAccepted]
    grind [not_raises_ok, raises_error]
  | some el =>
    have hall : v.elements.all Kind.isAccepted = false := by
      cases h : v.elements.all Kind.isAccepted with
      | false => rfl
      | true => cases hf.symm.trans (find_foreign.mpr h)
    rw [hall]
    simp only [Kind.isAccepted]
    grind [not_raises_ok, raises_error]

theorem postInit_raises (hl : ∀ k, lists k = true → k.isSequence = true) {o : Instance}
    (hbase : o.isBase = false) : Raises (postInit true o) ↔
      ∃ f ∈ o.checked, (f.2.isRefused lists || f.2.isMisread) = true := by
  have hrun : postInit true o = validateFieldTypes o := by simp [postInit, hbase]
  have hid : ∀ v, ¬ Raises (checkField "id" v) := fun _ => not_raises_ok
  have hflag : ∀ v, ¬ Raises (checkField "_rebuilding" v) := fun _ => not_raises_ok
  have hevents : ∀ v, Raises (checkField "_events" v) ↔
      (v.isRefused lists || v.isMisread) = true :=
    fun v => checkField_raises hl (by decide)
  rw [hrun, validateFieldTypes, forM_raises (fun f => checkField_cases f.1 f.2)]
  simp only [Instance.fields, Instance.checked, List.exists_mem_cons_iff, hid, hflag, hevents,
    false_or]
  refine or_congr Iff.rfl (exists_congr fun f => and_congr_right fun hf => ?_)
  exact checkField_raises hl ⟨(o.declared_new f hf).1, (o.declared_new f hf).2.2⟩

end Aggregate

namespace Entity

theorem checkAttribute_cases (o : Instance) (attr : String) (field : FieldValue) :
    checkAttribute o attr field = .ok () ∨ Raises (checkAttribute o attr field) := by
  unfold checkAttribute
  repeat' split
  all_goals first | exact .inl rfl | exact .inr (raises_error _ _)

/-- The name of the module is a string of strings, so no entity passes. -/
theorem postInit_raises (o : Instance) (hnew : o.rebuilding = false) : Raises (postInit true o) := by
  unfold postInit
  rw [if_neg (by simp [hnew])]
  split
  · exact raises_error _ _
  · refine (forM_raises (fun f => checkAttribute_cases o f.1 f.2)).mpr
      ⟨("__module__", .ofStr o.moduleName), ?_, ?_⟩
    · rw [Instance.dir, List.mem_insertionSort]
      exact List.mem_append_right _ List.mem_cons_self
    · obtain ⟨c, cs, hcs⟩ := List.exists_cons_of_ne_nil
        (fun h => o.module_named (String.toList_eq_nil_iff.mp h))
      simp [checkAttribute, FieldValue.ofStr, hcs, Kind.str, Kind.isSequence, Kind.isAcceptedByEntity,
        raises_error]

end Entity

/-- A check raises exactly when a declared field other than the identifier holds something that
is not allowed. -/
def Judges (domain lists : Kind → Bool) (o : Instance) (r : Except Exc Unit) : Prop :=
  Raises r ↔ ∃ f ∈ o.checked, f.2.isAllowed domain lists = false

/-- The check of the entities is right where a field is wrong, since it refuses every entity.
That of the aggregates is right where a field is rightly refused, or where no field slips through
and none is misread. -/
theorem judges_iff {lists : Kind → Bool} (hl : ∀ k, lists k = true → k.isSequence = true)
    {o : Instance} (hbase : o.isBase = false) (hnew : o.rebuilding = false) :
    (Judges Kind.isAcceptedByEntity lists o (Entity.postInit true o) ↔
      ∃ f ∈ o.checked, f.2.isAllowed Kind.isAcceptedByEntity lists = false) ∧
    (Judges Kind.isAccepted lists o (Aggregate.postInit true o) ↔
      (∃ f ∈ o.checked, f.2.isRefused lists = true) ∨
        ((∃ f ∈ o.checked, f.2.slips lists = true) ↔ ∃ f ∈ o.checked, f.2.isMisread = true)) := by
  constructor
  · have hr := Entity.postInit_raises o hnew
    exact ⟨fun h => h.mp hr, fun h => ⟨fun _ => h, fun _ => hr⟩⟩
  · have hwrong : (∃ f ∈ o.checked, f.2.isAllowed Kind.isAccepted lists = false) ↔
        (∃ f ∈ o.checked, f.2.isRefused lists = true) ∨
          ∃ f ∈ o.checked, f.2.slips lists = true := by
      simp only [FieldValue.refused_or_slips, and_or_left, exists_or]
    have hraised : Raises (Aggregate.postInit true o) ↔
        (∃ f ∈ o.checked, f.2.isRefused lists = true) ∨
          ∃ f ∈ o.checked, f.2.isMisread = true := by
      simp only [Aggregate.postInit_raises hl hbase, Bool.or_eq_true, and_or_left, exists_or]
    rw [Judges, hwrong, hraised]
    by_cases hrefused : ∃ f ∈ o.checked, f.2.isRefused lists = true
    · simp only [hrefused, true_or]
    · simp only [hrefused, false_or]
      exact iff_comm

def sampleObject : FieldValue where
  kind := { name := "Name", isValueObject := true }

/-- A list with one event. -/
def sampleEvents : FieldValue where
  kind := { name := "list", sequence := .list }
  elements := [{ name := "OrderPlaced", isDomainEvent := true }]

/-- An object with one recorded event and two declared fields. -/
def sampleInstance (status : FieldValue) : Instance where
  cls := "<class 'orders.Order'>"
  kind := { name := "Order" }
  id := { kind := { name := "UUID" } }
  events := sampleEvents
  declared := [("name", sampleObject), ("status", status)]
  declared_new := by simp
  moduleName := "orders"

theorem judges_sample :
    Judges Kind.isAccepted Kind.isList (sampleInstance sampleObject)
        (Aggregate.postInit true (sampleInstance sampleObject)) ∧
      Aggregate.postInit true (sampleInstance sampleObject) = .ok () :=
  ⟨(judges_iff Kind.list_sequence rfl rfl).2.mpr (by decide), rfl⟩

/-- An entity of value objects is refused, and an aggregate with an empty string is accepted. -/
theorem checks_misjudge :
    ((∀ f ∈ (sampleInstance sampleObject).checked,
        f.2.isAllowed Kind.isAcceptedByEntity Kind.isList = true) ∧
      Raises (Entity.postInit true (sampleInstance sampleObject)) ∧
      ¬ Judges Kind.isAcceptedByEntity Kind.isList (sampleInstance sampleObject)
        (Entity.postInit true (sampleInstance sampleObject))) ∧
    Aggregate.postInit true (sampleInstance (.ofStr "")) = .ok () ∧
    ¬ Judges Kind.isAccepted Kind.isList (sampleInstance (.ofStr ""))
      (Aggregate.postInit true (sampleInstance (.ofStr ""))) := by
  have hr := Entity.postInit_raises (sampleInstance sampleObject) rfl
  have hok : Aggregate.postInit true (sampleInstance (.ofStr "")) = .ok () := rfl
  refine ⟨⟨by decide, hr, fun h => ?_⟩, hok, fun h => ?_⟩
  · exact absurd (h.mp hr) (by decide)
  · rw [Judges, hok] at h
    exact not_raises_ok (h.mpr (by decide))

end Payments
