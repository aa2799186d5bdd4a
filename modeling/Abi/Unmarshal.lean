import Abi.Overload

/-!
# The JSON descriptor

`ABI.UnmarshalJSON` reads the entries of a JSON array and dispatches on their `type`: a
constructor is set once, a function (`function` or no type) is added to the methods and
an event to the events, under the name the overload rule gives (`overloadedMethodName`,
`overloadedEventName`), and errors, fallbacks and receive functions are skipped.

The overload rule always gives a name not taken yet (`overloadedName_not_mem`), so every
entry is added under a key of its own: the maps end up with one entry per function and
per event, in the order of the document, none dropped or overwritten
(`unmarshalJSON_spec`). The keys number the repeats of each name, `n`, `n0`, `n1`, …, when
no name is another one followed by a number (`unmarshalJSON_keys`).
-/

namespace Abi

/-- An entry of the JSON array, as `json.Unmarshal` fills the struct of `UnmarshalJSON`. -/
structure Field where
  type : String
  name : String
  constant : Bool
  anonymous : Bool
  stateMutability : String
  inputs : List Argument
  outputs : List Argument

namespace Field

/-- The method of a function entry, constant when `constant` is set or its state
    mutability is `view` or `pure`. -/
def method (field : Field) : Method where
  name := field.name
  const := field.constant || field.stateMutability = "view" || field.stateMutability = "pure"
  inputs := argumentsType field.inputs
  outputs := argumentsType field.outputs
  id := []

/-- The event of an event entry. -/
def event (field : Field) : Event where
  name := field.name
  anonymous := field.anonymous
  inputs := argumentsType field.inputs
  id := Hash.zero

/-- A function entry, of type `function` or of no type. -/
def isFunction (field : Field) : Bool := field.type = "function" || field.type = ""

/-- An event entry. -/
def isEvent (field : Field) : Bool := field.type = "event"

/-- A constructor entry. -/
def isConstructor (field : Field) : Bool := field.type = "constructor"

/-- An entry of one of the types `UnmarshalJSON` knows. -/
def isKnown (field : Field) : Bool :=
  field.type ∈ ["constructor", "function", "", "event", "error", "fallback", "receive"]

end Field

/-- The constructor of a constructor entry: only its inputs are set. -/
def Field.constructor (field : Field) : Method := ⟨"", false, argumentsType field.inputs, .nil, []⟩

/-- One pass of the loop of `UnmarshalJSON`: the entry `field` added to `a`. -/
def ABI.addField (a : ABI) (field : Field) : Result ABI :=
  match field.type with
  | "constructor" =>
    if a.constructor.isSome then fail "multiple constructor declaration"
    else pure { a with constructor := some field.constructor }
  | "function" | "" =>
    pure { a with methods := a.methods.insert (a.overloadedMethodName field.name) field.method }
  | "event" =>
    pure { a with events := a.events.insert (a.overloadedEventName field.name) field.event }
  | "error" | "fallback" | "receive" => pure a
  | t => fail s!"unknown field type '{t}'"

/-- `UnmarshalJSON(data)`, from the entries `json.Unmarshal` read: the methods and the
    events start as new maps, the constructor is kept. -/
def ABI.unmarshalJSON (a : ABI) (fields : List Field) : Result ABI :=
  fields.foldlM ABI.addField { a with methods := [], events := [] }

/-- `NewABIFromReader`: the entries unmarshalled into a new `ABI`. -/
def newABIFromFields (fields : List Field) : Result ABI := ABI.unmarshalJSON ⟨none, [], []⟩ fields

/-! ## One entry -/

/-- What one pass of the loop does: an unknown type and a second constructor are errors;
    otherwise the entry is added to the map of its kind under its overloaded name. -/
theorem addField_eq (a : ABI) (field : Field) :
    a.addField field =
      if !field.isKnown then fail s!"unknown field type '{field.type}'"
      else if field.isConstructor && a.constructor.isSome then fail "multiple constructor declaration"
      else .ok
        { constructor := if field.isConstructor then some field.constructor else a.constructor
          methods := if field.isFunction then
            a.methods.insert (a.overloadedMethodName field.name) field.method else a.methods
          events := if field.isEvent then
            a.events.insert (a.overloadedEventName field.name) field.event else a.events } := by
  unfold ABI.addField
  split <;> rename_i h <;>
    simp_all [Field.isKnown, Field.isConstructor, Field.isFunction, Field.isEvent]

/-- A known entry that is not a second constructor is added: the constructor is set by a
    constructor entry, and the entry goes to the map of its kind. -/
theorem addField_ok {a : ABI} {field : Field} (hk : field.isKnown)
    (hc : (field.isConstructor && a.constructor.isSome) = false) :
    ∃ a₁, a.addField field = .ok a₁ ∧
      a₁.constructor.isSome = (field.isConstructor || a.constructor.isSome) ∧
      a₁.methods = (if field.isFunction then
        a.methods.insert (a.overloadedMethodName field.name) field.method else a.methods) ∧
      a₁.events = (if field.isEvent then
        a.events.insert (a.overloadedEventName field.name) field.event else a.events) := by
  rw [addField_eq]
  cases hf : field.isConstructor <;> simp_all

/-- One pass moves a constructor entry from the entries still to come to the `ABI`. -/
theorem constructorCount_addField {a a₁ : ABI} {field : Field} (fields : List Field)
    (hc : (field.isConstructor && a.constructor.isSome) = false)
    (hc₁ : a₁.constructor.isSome = (field.isConstructor || a.constructor.isSome)) :
    ((field :: fields).filter Field.isConstructor).length + a.constructor.isSome.toNat =
      (fields.filter Field.isConstructor).length + a₁.constructor.isSome.toNat := by
  rw [hc₁, List.filter_cons]
  cases hb : field.isConstructor <;> cases ha : a.constructor.isSome <;> simp_all

/-! ## The maps -/

/-- Every key of a map is the name of its entry, possibly followed by a number, and no two
    entries have one key. -/
def KeyedByName {V : Type} (nameOf : V → String) (m : GoMap V) : Prop :=
  m.keys.Nodup ∧ ∀ p ∈ m, p.1 = nameOf p.2 ∨ ∃ k : Nat, p.1 = nameOf p.2 ++ toString k

theorem KeyedByName.nil {V : Type} (nameOf : V → String) : KeyedByName nameOf [] :=
  ⟨List.nodup_nil, fun _ h => absurd h (List.not_mem_nil _)⟩

/-- Adding an entry, or not, under the name the overload rule gives: no entry is
    overwritten, and the map stays keyed by name. -/
theorem KeyedByName.insert {V : Type} {nameOf : V → String} {m : GoMap V} (h : KeyedByName nameOf m)
    (add : Bool) (v : V) :
    let m' := if add then m.insert (overloadedName m.keys (nameOf v)) v else m
    m'.map Prod.snd = m.map Prod.snd ++ (if add then [v] else []) ∧ KeyedByName nameOf m' := by
  cases add with
  | false => simpa using h
  | true =>
    have hfree := overloadedName_not_mem m.keys (nameOf v)
    simp only [if_true, GoMap.insert_of_not_mem v hfree, List.map_append, List.map_cons,
      List.map_nil, true_and]
    refine ⟨?_, fun p hp => ?_⟩
    · simpa [GoMap.keys, List.nodup_append] using ⟨h.1, fun _ hp => hfree (List.mem_map_of_mem _ hp)⟩
    · rcases List.mem_append.1 hp with hp | hp
      · exact h.2 p hp
      · rw [List.mem_singleton.1 hp]
        exact overloadedName_eq m.keys (nameOf v)

/-! ## The loop -/

/-- The loop of `UnmarshalJSON` over known entries, with at most one constructor counting
    the one already set, adds every function and every event under a key of its own. -/
theorem foldlM_addField (fields : List Field) :
    ∀ a : ABI, (∀ f ∈ fields, f.isKnown) →
      (fields.filter Field.isConstructor).length + a.constructor.isSome.toNat ≤ 1 →
      KeyedByName Method.name a.methods → KeyedByName Event.name a.events →
      ∃ a', fields.foldlM ABI.addField a = .ok a' ∧
        a'.methods.map Prod.snd = a.methods.map Prod.snd ++
          (fields.filter Field.isFunction).map Field.method ∧
        KeyedByName Method.name a'.methods ∧
        a'.events.map Prod.snd = a.events.map Prod.snd ++
          (fields.filter Field.isEvent).map Field.event ∧
        KeyedByName Event.name a'.events := by
  induction fields with
  | nil => exact fun a _ _ hm he => ⟨a, rfl, by simp, hm, by simp, he⟩
  | cons field fields ih =>
    intro a hknown hcons hm he
    have hk : field.isKnown := hknown field (List.mem_cons_self _ _)
    -- a constructor entry comes with none set before it and none after it
    have hc : (field.isConstructor && a.constructor.isSome) = false := by
      cases hf : field.isConstructor <;> cases ha : a.constructor.isSome <;> try rfl
      simp [List.filter_cons, hf, ha] at hcons
    obtain ⟨a₁, hstep, hc₁, hm₁, he₁⟩ := addField_ok hk hc
    obtain ⟨hmv, hm'⟩ := hm.insert field.isFunction field.method
    obtain ⟨hev, he'⟩ := he.insert field.isEvent field.event
    obtain ⟨a', hrun, hms, hkm, hes, hke⟩ := ih a₁ (fun f hf => hknown f (List.mem_cons_of_mem _ hf))
      (by rwa [← constructorCount_addField fields hc hc₁]) (hm₁ ▸ hm') (he₁ ▸ he')
    refine ⟨a', by rw [List.foldlM_cons, hstep]; exact hrun, ?_, hkm, ?_, hke⟩
    · rw [hms, hm₁]; erw [hmv]
      cases hf : field.isFunction <;> simp [List.filter_cons, hf]
    · rw [hes, he₁]; erw [hev]
      cases hf : field.isEvent <;> simp [List.filter_cons, hf]

/-- Parsing a JSON array of entries whose types are all known, with at most one
    constructor, into an `ABI` with no constructor yet succeeds; the methods are the
    function entries and the events the event entries, each under a key of its own that is
    its name, possibly followed by a number. -/
theorem unmarshalJSON_spec (a : ABI) (fields : List Field) (hnone : a.constructor = none)
    (hknown : ∀ f ∈ fields, f.isKnown) (hcons : (fields.filter Field.isConstructor).length ≤ 1) :
    ∃ a', a.unmarshalJSON fields = .ok a' ∧
      a'.methods.map Prod.snd = (fields.filter Field.isFunction).map Field.method ∧
      KeyedByName Method.name a'.methods ∧
      a'.events.map Prod.snd = (fields.filter Field.isEvent).map Field.event ∧
      KeyedByName Event.name a'.events := by
  simpa using foldlM_addField fields { a with methods := [], events := [] } hknown
    (by simpa [hnone] using hcons) (.nil _) (.nil _)

/-- An entry of the given type and name, with no arguments. -/
def Field.ofType (type name : String) : Field := ⟨type, name, false, false, "", [], []⟩

/-- A document with two functions `send`, a function `send0` between them, an event and an
    error: the second `send` gets the key `send1`. -/
def sendEntries : List Field :=
  [.ofType "function" "send", .ofType "" "send0", .ofType "function" "send",
    .ofType "event" "Sent", .ofType "error" "Failed"]

theorem unmarshalJSON_spec_sendEntries :
    (∀ f ∈ sendEntries, f.isKnown) ∧ (sendEntries.filter Field.isConstructor).length ≤ 1 ∧
      ∃ a', (⟨none, [], []⟩ : ABI).unmarshalJSON sendEntries = .ok a' ∧
        a'.methods.map Prod.snd = (sendEntries.filter Field.isFunction).map Field.method ∧
        KeyedByName Method.name a'.methods ∧
        a'.events.map Prod.snd = (sendEntries.filter Field.isEvent).map Field.event ∧
        KeyedByName Event.name a'.events :=
  ⟨by decide, by decide, unmarshalJSON_spec _ _ rfl (by decide) (by decide)⟩

example : (ABI.unmarshalJSON ⟨none, [], []⟩ sendEntries).map (·.methods.keys) =
    .ok ["send", "send0", "send1"] := by decide

/-- The loop stops at the first entry of an unknown type and at a second constructor. -/
theorem foldlM_addField_ok (fields : List Field) :
    ∀ (a a' : ABI), fields.foldlM ABI.addField a = .ok a' →
      (∀ f ∈ fields, f.isKnown) ∧
        (fields.filter Field.isConstructor).length + a.constructor.isSome.toNat ≤ 1 := by
  induction fields with
  | nil => exact fun a _ _ => ⟨by simp, by simpa using Bool.toNat_le _⟩
  | cons field fields ih =>
    intro a a' h
    obtain ⟨a₁, hstep, hrun⟩ := bind_eq_ok.1 h
    by_cases hk : field.isKnown
    · by_cases hc : (field.isConstructor && a.constructor.isSome) = false
      · obtain ⟨a₂, hstep', hc₂, -⟩ := addField_ok hk hc
        obtain rfl : a₂ = a₁ := Except.ok.inj (hstep'.symm.trans hstep)
        obtain ⟨hknown, hcons⟩ := ih a₂ a' hrun
        refine ⟨List.forall_mem_cons.2 ⟨hk, hknown⟩, ?_⟩
        rwa [constructorCount_addField fields hc hc₂]
      · simp [addField_eq, hk, hc] at hstep
    · simp [addField_eq, hk] at hstep

/-- `UnmarshalJSON` succeeds exactly when every entry is of a known type and there is at
    most one constructor, counting the one the `ABI` had before. -/
theorem unmarshalJSON_isOk (a : ABI) (fields : List Field) :
    (∃ a', a.unmarshalJSON fields = .ok a') ↔
      (∀ f ∈ fields, f.isKnown) ∧
        (fields.filter Field.isConstructor).length + a.constructor.isSome.toNat ≤ 1 := by
  refine ⟨fun ⟨a', h⟩ => foldlM_addField_ok fields { a with methods := [], events := [] } a' h,
    fun ⟨hknown, hcons⟩ => ?_⟩
  obtain ⟨a', h, -⟩ := foldlM_addField fields { a with methods := [], events := [] } hknown hcons
    (.nil _) (.nil _)
  exact ⟨a', h⟩

/-! ## The keys -/

/-- One pass adds the overloaded name of a function entry to the keys of the methods, and
    that of an event entry to the keys of the events. -/
theorem addField_keys {a a₁ : ABI} {field : Field} (h : a.addField field = .ok a₁) :
    a₁.methods.keys = a.methods.keys ++
        (if field.isFunction then [overloadedName a.methods.keys field.name] else []) ∧
      a₁.events.keys = a.events.keys ++
        (if field.isEvent then [overloadedName a.events.keys field.name] else []) := by
  rw [addField_eq] at h
  split at h
  · exact absurd h (fail_ne_ok _ _)
  split at h
  · exact absurd h (fail_ne_ok _ _)
  cases h
  constructor <;> split_ifs <;>
    simp only [ABI.overloadedMethodName, ABI.overloadedEventName, GoMap.keys_insert_overloaded,
      List.append_nil]

/-- The loop of `UnmarshalJSON` gives the entries it picks the keys `overloadKeys` of their
    names, as long as no name is another one followed by a number; `keysOf` is the keys of
    the methods or of the events. -/
theorem foldlM_addField_keys (keysOf : ABI → List String) (pick : Field → Bool)
    (hstep : ∀ {a a₁ : ABI} {field : Field}, a.addField field = .ok a₁ →
      keysOf a₁ = keysOf a ++ if pick field then [overloadedName (keysOf a) field.name] else [])
    (fields : List Field) :
    ∀ (a a' : ABI) (p : List String), fields.foldlM ABI.addField a = .ok a' →
      keysOf a = overloadKeys p → SuffixFree (p ++ (fields.filter pick).map Field.name) →
      keysOf a' = overloadKeys (p ++ (fields.filter pick).map Field.name) := by
  induction fields with
  | nil =>
    intro a a' p h hk _
    cases h
    simpa using hk
  | cons field fields ih =>
    intro a a' p h hk hsf
    obtain ⟨a₁, hs, hrun⟩ := bind_eq_ok.1 h
    cases hpk : pick field
    · -- the entry is of the other kind: the keys stay
      have hk₁ : keysOf a₁ = overloadKeys p := by simpa [hpk, hk] using hstep hs
      simpa [List.filter_cons, hpk] using ih a₁ a' p hrun hk₁ (by simpa [List.filter_cons, hpk] using hsf)
    · -- the entry is added under the key that numbers its name
      have hsf' : SuffixFree ((p ++ [field.name]) ++ (fields.filter pick).map Field.name) := by
        simpa [List.filter_cons, hpk] using hsf
      have hk₁ : keysOf a₁ = overloadKeys (p ++ [field.name]) := by
        rw [hstep hs, hpk, if_pos rfl, hk, overloadKeys_step hsf'.of_append]
      simpa [List.filter_cons, hpk] using ih a₁ a' _ hrun hk₁ hsf'

/-- After `UnmarshalJSON`, the keys of the methods are the names of the function entries,
    a repeated name numbered `0`, `1`, … from its second occurrence on, and so are the keys
    of the events, as long as no name of the kind is another one followed by a number. -/
theorem unmarshalJSON_keys {a a' : ABI} {fields : List Field} (h : a.unmarshalJSON fields = .ok a') :
    (SuffixFree ((fields.filter Field.isFunction).map Field.name) →
      a'.methods.keys = overloadKeys ((fields.filter Field.isFunction).map Field.name)) ∧
    (SuffixFree ((fields.filter Field.isEvent).map Field.name) →
      a'.events.keys = overloadKeys ((fields.filter Field.isEvent).map Field.name)) :=
  ⟨fun hsf => foldlM_addField_keys (·.methods.keys) Field.isFunction (fun hs => (addField_keys hs).1)
      fields _ a' [] h rfl hsf,
    fun hsf => foldlM_addField_keys (·.events.keys) Field.isEvent (fun hs => (addField_keys hs).2)
      fields _ a' [] h rfl hsf⟩

/-- A document with three functions `f`, a function `g` and two events `E`. -/
def overloadEntries : List Field :=
  [.ofType "function" "f", .ofType "" "g", .ofType "event" "E", .ofType "function" "f",
    .ofType "function" "f", .ofType "event" "E"]

theorem unmarshalJSON_keys_overloadEntries :
    ∃ a', (⟨none, [], []⟩ : ABI).unmarshalJSON overloadEntries = .ok a' ∧
      SuffixFree ((overloadEntries.filter Field.isFunction).map Field.name) ∧
      SuffixFree ((overloadEntries.filter Field.isEvent).map Field.name) ∧
      a'.methods.keys = overloadKeys ((overloadEntries.filter Field.isFunction).map Field.name) ∧
      a'.events.keys = overloadKeys ((overloadEntries.filter Field.isEvent).map Field.name) :=
  have ⟨a', h⟩ := (unmarshalJSON_isOk ⟨none, [], []⟩ overloadEntries).2 ⟨by decide, by decide⟩
  have hm : SuffixFree ((overloadEntries.filter Field.isFunction).map Field.name) :=
    .of_endsInDigit (by decide)
  have he : SuffixFree ((overloadEntries.filter Field.isEvent).map Field.name) :=
    .of_endsInDigit (by decide)
  ⟨a', h, hm, he, (unmarshalJSON_keys h).1 hm, (unmarshalJSON_keys h).2 he⟩

/-- The rule needs its condition: next to a function `send0`, the second `send` is keyed
    `send1`, not `send0`. -/
example : (ABI.unmarshalJSON ⟨none, [], []⟩ sendEntries).map (·.methods.keys) ≠
    .ok (overloadKeys ((sendEntries.filter Field.isFunction).map Field.name)) := by decide

end Abi
