import Abi.Type

/-!
# Methods, events and signatures

The `Method` and `Event` of a contract, as the JSON parser builds them, and their
signatures (`abi.go`):

* `buildSignature name typ`: `name(raw₁,raw₂,…)`, the canonical type of each element of
  the tuple `typ`; `Sig` of a method or an event;
* `buildFunctionSignature`: the same with `indexed` and the element names, for display
  (`displayType`); `MethodSig` adds the outputs after `returns `. It is the canonical
  signature exactly when no element is indexed or named (`buildFunctionSignature_eq_iff`);
* `argumentsType`: `arguments.Type()`, the tuple type of the inputs or outputs of an
  entry.

A nil `*Type` where a signature reads one panics, so signatures are `Result`s.
-/

namespace Abi

/-- A `web3.Hash`: 32 bytes. -/
structure Hash where
  bytes : Bytes
  length_eq : bytes.length = 32
  deriving DecidableEq

/-- The zero hash. -/
def Hash.zero : Hash := ⟨List.replicate 32 0, rfl⟩

/-- A `Method` of a contract: `Name`, `Const`, `Inputs`, `Outputs` and the cached
    selector `id`. -/
structure Method where
  name : String
  const : Bool
  inputs : Typ
  outputs : Typ
  id : Bytes

/-- An `Event` of a contract: `Name`, `Anonymous`, `Inputs` and the cached `id`. -/
structure Event where
  name : String
  anonymous : Bool
  inputs : Typ
  id : Hash

/-- The bytes of a string, `[]byte(s)`. -/
def bytesOf (s : String) : Bytes := s.toUTF8.data.toList

namespace Typ

/-- The field `raw` of a `*Type`. -/
def rawOf : Typ → Result String
  | nil => nilDereference
  | mk _ _ _ _ raw _ => pure raw

/-- The field `tuple` of a `*Type`, a nil slice as none. -/
def tupleOf : Typ → Result (List TupleElem)
  | nil => nilDereference
  | mk _ _ _ tuple _ _ => pure (tuple.getD [])

end Typ

/-- `buildSignature(name, typ)`: `name(raw₁,raw₂,…)`, with the canonical type of each
    element of the tuple `typ`. -/
def buildSignature (name : String) (typ : Typ) : Result String := do
  let types ← (← typ.tupleOf).mapM fun input => input.elem.rawOf
  pure (name ++ "(" ++ ",".intercalate types ++ ")")

/-- The type of an element as `buildFunctionSignature` writes it: its canonical type
    `raw`, followed by ` indexed` when the element is indexed and by its name when it has
    one. -/
def displayType (input : TupleElem) (raw : String) : String :=
  let ty := if input.indexed then raw ++ " " ++ "indexed" else raw
  if input.name ≠ "" then ty ++ " " ++ input.name else ty

/-- `buildFunctionSignature(name, typ)`: as `buildSignature`, with the type of each element
    as `displayType` writes it. -/
def buildFunctionSignature (name : String) (typ : Typ) : Result String := do
  let types ← (← typ.tupleOf).mapM fun input => displayType input <$> input.elem.rawOf
  pure (name ++ "(" ++ ",".intercalate types ++ ")")

namespace Method

/-- `Sig()`: the signature of the method. -/
def Sig (m : Method) : Result String := buildSignature m.name m.inputs

/-- `MethodSig()`: the display signature, with the outputs after `returns ` if there are
    any. -/
def MethodSig (m : Method) : Result String :=
  match m.outputs with
  | .mk _ _ _ (some (_ :: _)) _ _ => do
    pure ((← buildFunctionSignature m.name m.inputs) ++ " " ++
      (← buildFunctionSignature "returns " m.outputs))
  | _ => buildFunctionSignature m.name m.inputs

end Method

namespace Event

/-- `Sig()`: the signature of the event. -/
def Sig (e : Event) : Result String := buildSignature e.name e.inputs

/-- `MethodSig()`: the display signature of the event. -/
def MethodSig (e : Event) : Result String := buildFunctionSignature e.name e.inputs

end Event

/-- An `argument` of an entry of the JSON document: its name, type and `indexed` flag. -/
structure Argument where
  name : String
  type : Typ
  indexed : Bool

/-- `arguments.Type()`: the tuple type of the arguments of an entry, whose `raw` is
    `tuple` and whose reflect type is nil. -/
def argumentsType (a : List Argument) : Typ :=
  .mk .tuple 0 .nil (some (a.map fun i => .mk i.name i.type i.indexed)) "tuple" .nil

/-! ## Display and canonical signatures

`buildFunctionSignature` writes each element type as `buildSignature` does, followed by
what `displayType` adds, so it is longer by the sum of those additions: the two signatures
fail together, and agree exactly when no element is indexed or named
(`buildFunctionSignature_eq_iff`). -/

/-- How many characters `displayType` adds to the type of an element. -/
def displayExtra (input : TupleElem) : Nat :=
  (if input.indexed then 8 else 0) + (if input.name ≠ "" then 1 + input.name.length else 0)

theorem length_displayType (input : TupleElem) (raw : String) :
    (displayType input raw).length = raw.length + displayExtra input := by
  unfold displayType displayExtra
  split_ifs <;>
    simp only [String.length_append, show " ".length = 1 from rfl, show "indexed".length = 7 from rfl] <;>
    omega

theorem displayExtra_eq_zero {input : TupleElem} :
    displayExtra input = 0 ↔ input.indexed = false ∧ input.name = "" := by
  unfold displayExtra
  split_ifs <;> simp_all

/-- How many characters `displayType` adds to the types of the elements. -/
def displayExtras : List TupleElem → Nat
  | [] => 0
  | e :: es => displayExtra e + displayExtras es

theorem displayExtras_eq_zero {elems : List TupleElem} :
    displayExtras elems = 0 ↔ ∀ e ∈ elems, e.indexed = false ∧ e.name = "" := by
  induction elems with
  | nil => simp [displayExtras]
  | cons e es ih =>
    rw [displayExtras, Nat.add_eq_zero_iff, ih, displayExtra_eq_zero, List.forall_mem_cons]

theorem displayType_of_plain {input : TupleElem} (h : input.indexed = false ∧ input.name = "")
    (raw : String) : displayType input raw = raw := by
  simp [displayType, h.1, h.2]

/-- The display types of the elements are their canonical types with what `displayType`
    adds, and they fail at the same element. -/
theorem mapM_displayType : ∀ elems : List TupleElem,
    (elems.mapM fun input => displayType input <$> input.elem.rawOf) =
      List.zipWith displayType elems <$> elems.mapM fun input => input.elem.rawOf
  | [] => rfl
  | e :: es => by
    simp only [List.mapM_cons, mapM_displayType es]
    cases e.elem.rawOf <;> cases es.mapM fun input => input.elem.rawOf <;> rfl

/-- The canonical types are read from the elements one for one, none of them nil. -/
theorem mapM_rawOf_eq_ok : ∀ {elems : List TupleElem} {raws : List String},
    (elems.mapM fun input => input.elem.rawOf) = .ok raws →
      raws.length = elems.length ∧ ∀ e ∈ elems, e.elem ≠ .nil
  | [], _, h => by cases h; exact ⟨rfl, fun _ h => absurd h (List.not_mem_nil _)⟩
  | e :: es, raws, h => by
    simp only [List.mapM_cons] at h
    obtain ⟨r, hr, h⟩ := bind_eq_ok.1 h
    obtain ⟨rs, hrs, h⟩ := bind_eq_ok.1 h
    cases h
    obtain ⟨hlen, hnil⟩ := mapM_rawOf_eq_ok hrs
    refine ⟨by simp [hlen], List.forall_mem_cons.2 ⟨fun he => ?_, hnil⟩⟩
    rw [he] at hr
    cases hr

/-- Tuple elements none of which is nil have their canonical types read. -/
theorem mapM_rawOf_of_ne_nil : ∀ {elems : List TupleElem}, (∀ e ∈ elems, e.elem ≠ .nil) →
    ∃ raws, (elems.mapM fun input => input.elem.rawOf) = .ok raws
  | [], _ => ⟨[], rfl⟩
  | e :: es, h => by
    obtain ⟨rs, hrs⟩ := mapM_rawOf_of_ne_nil fun x hx => h x (List.mem_cons_of_mem _ hx)
    cases he : e.elem with
    | nil => exact absurd he (h e (List.mem_cons_self _ _))
    | mk kind size elem tuple raw t => exact ⟨raw :: rs, by rw [List.mapM_cons, he, hrs]; rfl⟩

theorem zipWith_displayType_of_plain : ∀ {elems : List TupleElem} {raws : List String},
    (∀ e ∈ elems, e.indexed = false ∧ e.name = "") → raws.length = elems.length →
      List.zipWith displayType elems raws = raws
  | [], [], _, _ => rfl
  | e :: es, r :: rs, h, hl => by
    rw [List.zipWith_cons_cons, displayType_of_plain (h e (List.mem_cons_self _ _)),
      zipWith_displayType_of_plain (fun x hx => h x (List.mem_cons_of_mem _ hx)) (Nat.succ.inj hl)]
  | [], _ :: _, _, h | _ :: _, [], _, h => absurd h (by simp)

/-- Joining the display types from `acc'` on, against the canonical types from `acc` on,
    adds what `displayType` adds. -/
theorem length_intercalate_go_zipWith : ∀ (acc acc' : String) {elems : List TupleElem}
    {raws : List String}, raws.length = elems.length →
      (String.intercalate.go acc' "," (List.zipWith displayType elems raws)).length + acc.length =
        (String.intercalate.go acc "," raws).length + acc'.length + displayExtras elems
  | _, _, [], [], _ => by simp [String.intercalate.go, displayExtras, Nat.add_comm]
  | acc, acc', e :: es, r :: rs, h => by
    have := length_intercalate_go_zipWith (acc ++ "," ++ r) (acc' ++ "," ++ displayType e r)
      (Nat.succ.inj h)
    simp only [String.length_append, length_displayType] at this
    simp only [List.zipWith_cons_cons, String.intercalate.go, displayExtras]
    omega
  | _, _, [], _ :: _, h | _, _, _ :: _, [], h => absurd h (by simp)

theorem length_intercalate_zipWith : ∀ {elems : List TupleElem} {raws : List String},
    raws.length = elems.length →
      (",".intercalate (List.zipWith displayType elems raws)).length =
        (",".intercalate raws).length + displayExtras elems
  | [], [], _ => rfl
  | e :: es, r :: rs, h => by
    have := length_intercalate_go_zipWith r (displayType e r) (Nat.succ.inj h)
    rw [length_displayType] at this
    simp only [List.zipWith_cons_cons, String.intercalate, displayExtras]
    omega
  | [], _ :: _, h | _ :: _, [], h => absurd h (by simp)

/-- The display signature of a tuple is its canonical signature exactly when, if the
    tuple and its elements are set, no element is indexed or named; otherwise the two fail
    together. -/
theorem buildFunctionSignature_eq_iff (name : String) (typ : Typ) :
    buildFunctionSignature name typ = buildSignature name typ ↔
      ∀ elems, typ.tupleOf = .ok elems → (∀ e ∈ elems, e.elem ≠ .nil) →
        ∀ e ∈ elems, e.indexed = false ∧ e.name = "" := by
  unfold buildFunctionSignature buildSignature
  cases ht : typ.tupleOf with
  | error f => exact ⟨fun _ _ h => (nomatch h), fun _ => rfl⟩
  | ok elems =>
    simp only [bind_ok, mapM_displayType elems, Except.ok.injEq, forall_eq']
    cases hr : elems.mapM fun input => input.elem.rawOf with
    | error f =>
      -- some element is nil: both fail at it
      refine ⟨fun _ hnil => ?_, fun _ => rfl⟩
      obtain ⟨raws, hraws⟩ := mapM_rawOf_of_ne_nil hnil
      rw [hr] at hraws
      cases hraws
    | ok raws =>
      simp only [map_ok, bind_ok, pure_eq, Except.ok.injEq]
      obtain ⟨hlen, hnil⟩ := mapM_rawOf_eq_ok hr
      refine ⟨fun h _ e he => ?_, fun h => ?_⟩
      · -- the display signature is longer by the additions, which are then all zero
        have hl := congrArg String.length h
        simp only [String.length_append, length_intercalate_zipWith hlen] at hl
        exact displayExtras_eq_zero.1 (by omega) e he
      · rw [zipWith_displayType_of_plain (h hnil) hlen]

example : buildFunctionSignature "Sent" (argumentsType [⟨"ok", boolType, true⟩, ⟨"", stringType, false⟩]) =
    .ok "Sent(bool indexed ok,string)" := rfl

end Abi
