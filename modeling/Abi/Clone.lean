import Abi.Decode.ArrayTuple
import Abi.Method

/-!
# Clones

`Type.Clone` copies a type tree node by node, but the line that would copy the `Name` of a
tuple element is commented out: the clone of a tree is the tree with every element name
emptied. `Method.Clone` and `Event.Clone` keep the name, the flags and the `id` of the
method or event and clone its types.

* `clone_eq_self_iff`: a tree is its own clone exactly when none of its elements has a
  name;
* `all_clone`, `isDynamicType_clone`, `words_clone`: what a node check, the layout and
  the head size see of a clone is what they see of the tree;
* `buildSignature_clone`: signatures read only the canonical types, so `Sig` is kept;
* `buildFunctionSignature_clone_eq_iff`: the display signature, which writes the names, is
  kept exactly when no element has one;
* `decode_clone`: `decode` reads the clone as the tree, and puts every tuple element of
  the value under its index, since its name is gone.
-/

namespace Abi

mutual
/-- `t.Clone()`: the copy of the tree, its elements without their names. -/
def Typ.clone : Typ → Typ
  | .nil => .nil
  | .mk kind size elem none raw t => .mk kind size elem.clone none raw t
  | .mk kind size elem (some elems) raw t => .mk kind size elem.clone (some (cloneElems elems)) raw t

/-- The loop of `Clone` over the elements of a tuple: `Elem` and `Indexed` are copied. -/
def cloneElems : List TupleElem → List TupleElem
  | [] => []
  | .mk _ elem indexed :: elems => .mk "" elem.clone indexed :: cloneElems elems
end

/-- `m.Clone()`. -/
def Method.clone (m : Method) : Method := ⟨m.name, m.const, m.inputs.clone, m.outputs.clone, m.id⟩

/-- `e.Clone()`. -/
def Event.clone (e : Event) : Event := ⟨e.name, e.anonymous, e.inputs.clone, e.id⟩

theorem clone_mk (kind : Kind) (size : Int) (elem : Typ) (tuple : Option (List TupleElem))
    (raw : String) (t : RType) :
    (Typ.mk kind size elem tuple raw t).clone = .mk kind size elem.clone (tuple.map cloneElems) raw t := by
  cases tuple <;> rfl

/-! ## The shape of a clone -/

mutual
theorem clone_clone : ∀ t : Typ, t.clone.clone = t.clone
  | .nil => rfl
  | .mk _ _ elem none _ _ => by simp only [Typ.clone, clone_clone elem]
  | .mk _ _ elem (some elems) _ _ => by simp only [Typ.clone, clone_clone elem, cloneElems_cloneElems elems]

theorem cloneElems_cloneElems : ∀ elems, cloneElems (cloneElems elems) = cloneElems elems
  | [] => rfl
  | .mk _ elem _ :: elems => by simp only [cloneElems, clone_clone elem, cloneElems_cloneElems elems]
end

/-- A node none of whose tuple elements has a name. -/
def Typ.unnamedNode : Typ → Bool
  | .mk _ _ _ (some elems) _ _ => elems.all (·.name = "")
  | _ => true

/-- A tree none of whose tuple elements has a name. -/
def Typ.unnamed (t : Typ) : Bool := t.all Typ.unnamedNode

mutual
/-- A tree is its own clone exactly when none of its elements has a name. -/
theorem clone_eq_self_iff : ∀ t : Typ, t.clone = t ↔ t.all Typ.unnamedNode
  | .nil => by simp [Typ.clone, Typ.all, Typ.unnamedNode]
  | .mk kind size elem none raw t => by
    simp [Typ.clone, Typ.all, Typ.unnamedNode, clone_eq_self_iff elem]
  | .mk kind size elem (some elems) raw t => by
    simp [Typ.clone, Typ.all, Typ.unnamedNode, clone_eq_self_iff elem, cloneElems_eq_self_iff elems,
      and_assoc, and_left_comm]

theorem cloneElems_eq_self_iff : ∀ elems : List TupleElem,
    cloneElems elems = elems ↔ elems.all (·.name = "") ∧ Typ.allOf Typ.unnamedNode elems
  | [] => by simp [cloneElems, Typ.allOf]
  | .mk name elem indexed :: elems => by
    simp [cloneElems, Typ.allOf, clone_eq_self_iff elem, cloneElems_eq_self_iff elems,
      @eq_comm _ "", and_assoc, and_left_comm]
end

theorem unnamed_clone (t : Typ) : t.clone.unnamed := (clone_eq_self_iff t.clone).1 (clone_clone t)

mutual
/-- A check of every node sees in the clone the clones of the nodes of the tree. -/
theorem all_clone (p : Typ → Bool) : ∀ t : Typ, t.clone.all p = t.all (fun n => p n.clone)
  | .nil => rfl
  | .mk kind size elem none raw t => by
    simp only [Typ.clone, Typ.all, all_clone p elem]
  | .mk kind size elem (some elems) raw t => by
    simp only [Typ.clone, Typ.all, all_clone p elem, allOf_cloneElems p elems]

theorem allOf_cloneElems (p : Typ → Bool) :
    ∀ elems : List TupleElem, Typ.allOf p (cloneElems elems) = Typ.allOf (fun n => p n.clone) elems
  | [] => rfl
  | .mk _ elem _ :: elems => by
    simp only [cloneElems, Typ.allOf, all_clone p elem, allOf_cloneElems p elems]
end

mutual
theorem isDynamicType_clone : ∀ t : Typ, t.clone.isDynamicType = t.isDynamicType
  | .nil => rfl
  | .mk kind size elem none raw t => by
    cases kind <;> simp only [Typ.clone, Typ.isDynamicType, isDynamicType_clone elem]
  | .mk kind size elem (some elems) raw t => by
    cases kind <;> simp only [Typ.clone, Typ.isDynamicType, isDynamicType_clone elem,
      anyDynamic_cloneElems elems]

theorem anyDynamic_cloneElems : ∀ elems, Typ.anyDynamic (cloneElems elems) = Typ.anyDynamic elems
  | [] => rfl
  | .mk _ elem _ :: elems => by
    simp only [cloneElems, Typ.anyDynamic, isDynamicType_clone elem, anyDynamic_cloneElems elems]
end

mutual
theorem words_clone : ∀ t : Typ, t.clone.words = t.words
  | .nil => rfl
  | .mk kind size elem none raw t => by
    cases kind <;> simp only [Typ.clone, Typ.words, words_clone elem]
  | .mk kind size elem (some elems) raw t => by
    cases kind <;> simp only [Typ.clone, Typ.words, words_clone elem, wordsOf_cloneElems elems]

theorem wordsOf_cloneElems : ∀ elems, Typ.wordsOf (cloneElems elems) = Typ.wordsOf elems
  | [] => rfl
  | .mk _ elem _ :: elems => by
    simp only [cloneElems, Typ.wordsOf, words_clone elem, wordsOf_cloneElems elems]
end

@[simp] theorem isNil_clone (t : Typ) : t.clone.isNil = t.isNil := by
  cases t with
  | nil => rfl
  | mk kind size elem tuple raw rt => rw [clone_mk]; rfl

theorem all_cloneElems_elem (elems : List TupleElem) :
    (cloneElems elems).all (fun e => !e.elem.isNil) = elems.all (fun e => !e.elem.isNil) := by
  induction elems with
  | nil => rfl
  | cons e elems ih => cases e; simp [cloneElems, ih]

theorem wellFormedNode_clone (t : Typ) : t.clone.wellFormedNode = t.wellFormedNode := by
  cases t with
  | nil => rfl
  | mk kind size elem tuple raw rt =>
    cases tuple <;> cases kind <;> simp [clone_mk, Typ.wellFormedNode, all_cloneElems_elem]

theorem wellFormed_clone (t : Typ) : t.clone.WellFormed ↔ t.WellFormed := by
  simp only [Typ.WellFormed, all_clone, wellFormedNode_clone]

/-! ## Signatures -/

theorem rawOf_clone (t : Typ) : t.clone.rawOf = t.rawOf := by
  cases t with
  | nil => rfl
  | mk kind size elem tuple raw rt => cases tuple <;> rfl

theorem mapM_rawOf_cloneElems : ∀ elems : List TupleElem,
    (cloneElems elems).mapM (fun input => input.elem.rawOf) = elems.mapM (fun input => input.elem.rawOf)
  | [] => rfl
  | .mk _ elem _ :: elems => by
    simp only [cloneElems, List.mapM_cons, TupleElem.elem_mk, rawOf_clone, mapM_rawOf_cloneElems elems]

/-- A signature reads the canonical types of the elements, which a clone keeps. -/
theorem buildSignature_clone (name : String) (t : Typ) :
    buildSignature name t.clone = buildSignature name t := by
  cases t with
  | nil => rfl
  | mk kind size elem tuple raw rt =>
    cases tuple with
    | none => rfl
    | some elems => simp only [buildSignature, Typ.clone, Typ.tupleOf, Option.getD_some, pure_eq,
        bind_ok, mapM_rawOf_cloneElems]

@[simp] theorem Method.Sig_clone (m : Method) : m.clone.Sig = m.Sig := buildSignature_clone _ _

@[simp] theorem Event.Sig_clone (e : Event) : e.clone.Sig = e.Sig := buildSignature_clone _ _

/-- A clone writes the types of the elements for display without their names, so it adds
    no more than the original, and as much exactly when no element is named. -/
theorem displayExtras_cloneElems : ∀ elems : List TupleElem,
    displayExtras (cloneElems elems) ≤ displayExtras elems ∧
      (displayExtras (cloneElems elems) = displayExtras elems ↔ ∀ e ∈ elems, e.name = "")
  | [] => ⟨le_rfl, by simp [cloneElems]⟩
  | .mk name elem indexed :: elems => by
    obtain ⟨hle, heq⟩ := displayExtras_cloneElems elems
    simp only [cloneElems, displayExtras, displayExtra, TupleElem.indexed_mk, TupleElem.name_mk,
      List.forall_mem_cons, ← heq]
    split_ifs <;> simp_all <;> omega

theorem zipWith_displayType_cloneElems : ∀ {elems : List TupleElem} (raws : List String),
    (∀ e ∈ elems, e.name = "") →
      List.zipWith displayType (cloneElems elems) raws = List.zipWith displayType elems raws
  | [], _, _ => rfl
  | _, [], _ => by simp only [List.zipWith_nil_right]
  | .mk name elem indexed :: elems, r :: rs, h => by
    obtain ⟨rfl, hs⟩ := List.forall_mem_cons.1 h
    simp only [cloneElems, List.zipWith_cons_cons, zipWith_displayType_cloneElems rs hs]
    rfl

/-- A clone keeps the canonical signature of a tuple (`buildSignature_clone`), and its
    display signature exactly when, if the tuple and its elements are set, no element is
    named: the clone drops the names. -/
theorem buildFunctionSignature_clone_eq_iff (name : String) (t : Typ) :
    buildFunctionSignature name t.clone = buildFunctionSignature name t ↔
      ∀ elems, t.tupleOf = .ok elems → (∀ e ∈ elems, e.elem ≠ .nil) → ∀ e ∈ elems, e.name = "" := by
  cases t with
  | nil => exact ⟨fun _ _ h => (nomatch h), fun _ => rfl⟩
  | mk kind size elem tuple raw rt =>
    cases tuple with
    | none =>
      refine ⟨fun _ elems h _ e he => ?_, fun _ => rfl⟩
      cases h
      exact absurd he (List.not_mem_nil _)
    | some elems =>
      simp only [buildFunctionSignature, Typ.clone, Typ.tupleOf, Option.getD_some, pure_eq, bind_ok,
        mapM_displayType, mapM_rawOf_cloneElems, Except.ok.injEq, forall_eq']
      cases hr : elems.mapM fun input => input.elem.rawOf with
      | error f =>
        -- some element is nil: both fail at it
        refine ⟨fun _ hnil => ?_, fun _ => rfl⟩
        obtain ⟨raws, hraws⟩ := mapM_rawOf_of_ne_nil hnil
        rw [hr] at hraws
        cases hraws
      | ok raws =>
        simp only [map_ok, bind_ok, pure_eq, Except.ok.injEq]
        obtain ⟨hlen, hnil⟩ := mapM_rawOf_eq_ok hr
        have hlen' := (mapM_rawOf_eq_ok ((mapM_rawOf_cloneElems elems).trans hr)).1
        refine ⟨fun h _ => ?_, fun h => by rw [zipWith_displayType_cloneElems raws (h hnil)]⟩
        -- the original display signature is longer by the names, which are then empty
        have hl := congrArg String.length h
        simp only [String.length_append, length_intercalate_zipWith hlen,
          length_intercalate_zipWith hlen'] at hl
        exact (displayExtras_cloneElems elems).2.1 (by omega)

example : buildFunctionSignature "Sent" (argumentsType [⟨"a", boolType, false⟩]).clone = .ok "Sent(bool)" ∧
    buildFunctionSignature "Sent" (argumentsType [⟨"a", boolType, false⟩]) = .ok "Sent(bool a)" :=
  ⟨rfl, rfl⟩

/-! ## Decoding a clone -/

mutual
/-- The value with every tuple element under its index, as `decode` puts the elements of a
    tuple without names. -/
def Value.indexKeys : Value → Value
  | .array vs => .array (indexKeysList vs)
  | .tuple entries => .tuple (keyedFrom 0 (indexKeysEntries entries))
  | v => v

/-- The elements of an array, each with its tuples under indices. -/
def indexKeysList : List Value → List Value
  | [] => []
  | v :: vs => v.indexKeys :: indexKeysList vs

/-- The values of the entries of a tuple, each with its tuples under indices. -/
def indexKeysEntries : List (String × Value) → List Value
  | [] => []
  | (_, v) :: entries => v.indexKeys :: indexKeysEntries entries
end

@[simp] theorem indexKeysList_eq_map (vs : List Value) : indexKeysList vs = vs.map Value.indexKeys := by
  induction vs <;> simp [indexKeysList, *]

@[simp] theorem indexKeysEntries_eq_map (entries : List (String × Value)) :
    indexKeysEntries entries = entries.map (·.2.indexKeys) := by
  induction entries <;> simp [indexKeysEntries, *]

/-- A value read from one word has no tuple in it. -/
theorem indexKeys_of_decodeWord {α : Type} {f : α → Value} (hf : ∀ x, (f x).indexKeys = f x)
    {read : Bytes → Result α} {input r : Bytes} {v : Value}
    (h : decodeWord (fun data => f <$> read data) input = .ok (v, r)) : v.indexKeys = v := by
  obtain ⟨-, hv, -⟩ := decodeWord_eq_ok.1 h
  obtain ⟨x, -, rfl⟩ := map_eq_ok.1 hv
  exact hf x

/-- A string or a byte string has no tuple in it. -/
theorem indexKeys_of_decodePayload {mk : Bytes → Value} (hmk : ∀ x, (mk x).indexKeys = mk x)
    {input r : Bytes} {v : Value} (h : (do
      let length ← readLength input
      decodePayload mk input length) = .ok (v, r)) : v.indexKeys = v := by
  obtain ⟨_, -, h⟩ := bind_eq_ok.1 h
  obtain ⟨x, -, h⟩ := bind_eq_ok.1 h
  obtain ⟨_, -, h⟩ := bind_eq_ok.1 h
  cases h
  exact hmk x

section

variable {dec dec' : Bytes → Result (Value × Bytes)} {d : Bool} {orig : Bytes}

/-- The loop of `decodeArraySlice` with an element decoder that puts the tuples of the
    values of `dec` under indices does the same to the array. -/
theorem decodeArrayLoop_indexKeys (hdec : ∀ x w s, dec x = .ok (w, s) → dec' x = .ok (w.indexKeys, s)) :
    ∀ n res data v r, decodeArrayLoop dec d orig n res data = .ok (v, r) →
      decodeArrayLoop dec' d orig n (res.map Value.indexKeys) data = .ok (v.indexKeys, r)
  | 0, res, data, v, r, h => by cases h; simp [decodeArrayLoop, Value.indexKeys]
  | n + 1, res, data, v, r, h => by
    obtain ⟨entry, val, tail, data', he, hd, ha, hl⟩ := decodeArrayLoop_succ_eq_ok.1 h
    have ih := decodeArrayLoop_indexKeys hdec n _ _ _ _ hl
    rw [List.map_append, List.map_singleton] at ih
    exact decodeArrayLoop_succ_eq_ok.2 ⟨entry, _, tail, data', he, hdec _ _ _ hd, ha, ih⟩

theorem decodeArraySlice_indexKeys (hdec : ∀ x w s, dec x = .ok (w, s) → dec' x = .ok (w.indexKeys, s))
    {data : Bytes} {size : Int} {v : Value} {r : Bytes} (h : decodeArraySlice dec d data size = .ok (v, r)) :
    decodeArraySlice dec' d data size = .ok (v.indexKeys, r) := by
  unfold decodeArraySlice at h ⊢
  split_ifs at h ⊢ <;> first | simp at h | exact decodeArrayLoop_indexKeys hdec _ [] data v r h

end

mutual
/-- `decode` reads the clone of a tree as the tree, with the elements of every tuple under
    their indices. -/
theorem decode_clone : ∀ (t : Typ) (b : Bytes) (v : Value) (r : Bytes),
    decode t b = .ok (v, r) → decode t.clone b = .ok (v.indexKeys, r)
  | .nil, _, _, _, h => by cases h
  | .mk kind size elem tuple raw rt, b, v, r, h => by
    rw [clone_mk]
    cases kind
    case tuple =>
      cases tuple with
      | none => cases h; rfl
      | some elems =>
        simpa using decodeTuple_clone elems b 0 [] b v r rfl h
    case array =>
      rw [decode_array] at h ⊢
      rw [isDynamicType_clone]
      exact decodeArraySlice_indexKeys (decode_clone elem) h
    case slice =>
      rw [decode_slice] at h ⊢
      obtain ⟨length, hl, h⟩ := bind_eq_ok.1 h
      obtain ⟨data, hd, h⟩ := bind_eq_ok.1 h
      rw [hl, bind_ok, hd, bind_ok, isDynamicType_clone]
      exact decodeArraySlice_indexKeys (decode_clone elem) h
    case string | bytes => rw [indexKeys_of_decodePayload (fun _ => rfl) h]; exact h
    -- a leaf reads the same bytes in the clone, and its value has no tuple in it
    all_goals
      simp only [decode_bool, decode_int, decode_uInt, decode_address, decode_fixedBytes,
        decode_function] at h ⊢
      rw [indexKeys_of_decodeWord (fun _ => rfl) h]
      exact h

/-- The loop of `decodeTuple` over the cloned elements: every element is put under its
    index, which no earlier element has. -/
theorem decodeTuple_clone : ∀ (elems : List TupleElem) (orig : Bytes) (indx : Nat)
    (res : List (String × Value)) (data : Bytes) (v : Value) (r : Bytes), res.length = indx →
    decodeTuple orig elems indx res data = .ok (v, r) →
      decodeTuple orig (cloneElems elems) indx (keyedFrom 0 (res.map (·.2.indexKeys))) data =
        .ok (v.indexKeys, r)
  | [], _, _, res, _, _, _, _, h => by cases h; simp [decodeTuple, Value.indexKeys]
  | .mk name e i :: args, orig, indx, res, data, v, r, hlen, h => by
    obtain ⟨entry, val, tail, data', he, hd, ha, -, hl⟩ := decodeTuple_cons_eq_ok.1 h
    have ih := decodeTuple_clone args orig (indx + 1) _ data' v r (by simp [hlen]) hl
    have hfresh := (any_keyedFrom 0 indx (res.map (·.2.indexKeys))).not.2 (by simp [hlen])
    rw [List.map_append, List.map_singleton, keyedFrom_append] at ih
    refine decodeTuple_cons_eq_ok.2 ⟨entry, _, tail, data', ?_, decode_clone e entry val tail hd, ?_,
      ?_, ?_⟩
    · rwa [isDynamicType_clone]
    · rwa [isDynamicType_clone]
    all_goals rw [show entryName "" indx = toString indx by simp [entryName]]
    · exact Bool.eq_false_iff.2 hfresh
    · simpa [hlen] using ih
end

/-! ## What `Clone` keeps -/

/-- `Clone` copies a tree but empties the names of its tuple elements: the clone is the
    tree exactly when it has no names, and has none itself; it is well formed, dynamic and
    as wide as the tree, has its signatures, and decodes to the tree's values with every
    tuple element under its index. `Method.Clone` and `Event.Clone` keep the name, the
    flags, the `id` and the signature. -/
theorem clone_spec (t : Typ) (m : Method) (e : Event) :
    (t.clone = t ↔ t.unnamed) ∧ t.clone.unnamed ∧
    (t.clone.WellFormed ↔ t.WellFormed) ∧ t.clone.isDynamicType = t.isDynamicType ∧
    t.clone.words = t.words ∧
    (∀ name, buildSignature name t.clone = buildSignature name t) ∧
    (∀ b v r, decode t b = .ok (v, r) → decode t.clone b = .ok (v.indexKeys, r)) ∧
    (m.clone.name = m.name ∧ m.clone.const = m.const ∧ m.clone.id = m.id ∧ m.clone.Sig = m.Sig) ∧
    (e.clone.name = e.name ∧ e.clone.anonymous = e.anonymous ∧ e.clone.id = e.id ∧
      e.clone.Sig = e.Sig) :=
  ⟨clone_eq_self_iff t, unnamed_clone t, wellFormed_clone t, isDynamicType_clone t, words_clone t,
    fun name => buildSignature_clone name t, decode_clone t,
    ⟨rfl, rfl, rfl, m.Sig_clone⟩, ⟨rfl, rfl, rfl, e.Sig_clone⟩⟩

/-- The inputs of a method `f(bool a)`. -/
def namedBoolInput : Typ := argumentsType [⟨"a", boolType, false⟩]

/-- The clone of `(bool a)` is not the type, against the deep copy of §3 of the spec
    (invariant 4) and unlike `Method.Clone` and `Event.Clone`, which copy their names:
    `Decode` puts the element under `0`, not under `a`, and `MethodSig` no longer shows the
    name. -/
theorem clone_namedBoolInput :
    namedBoolInput.clone ≠ namedBoolInput ∧
      Decode namedBoolInput (word 0) = .ok (.tuple [("a", .bool false)]) ∧
      Decode namedBoolInput.clone (word 0) = .ok (.tuple [("0", .bool false)]) ∧
      Method.MethodSig ⟨"f", false, namedBoolInput, .nil, []⟩ = .ok "f(bool a)" ∧
      Method.MethodSig (Method.clone ⟨"f", false, namedBoolInput, .nil, []⟩) = .ok "f(bool)" :=
  ⟨(clone_eq_self_iff _).not.2 (by decide), rfl, rfl, rfl, rfl⟩

end Abi
