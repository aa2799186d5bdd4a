import Abi.Decode.Static

/-!
# Panics

Every slice `decode.go` cuts from its input goes through `readSlice`, which checks its
bounds and returns an error, except the offset word of a dynamic element, which
`readOffset` cuts as `data[0:32]` with no check. In a tuple nothing checks beforehand that
the head holds that word, so a tuple whose first element is dynamic panics on every input
shorter than a word (`decode_dynamicHead_short`). An array checks `32*size ≤ len(data)`
first.

A static type reads no offset, and its readers cut only inside the word `readSlice` read:
for a well-formed static type `decode` returns a value or an error, and never panics
(`decode_static_noPanic`). Neither does a dynamic one whose tuples below the top are static,
on an input that holds the head of a tuple at the top (`decode_noPanic_of_head`): strings,
bytes, slices and arrays cut only within what `readLength`, `readSlice` and the size check
bounded, once `32*size` cannot overflow.

The model leaves out the reflection of `readFixedBytes` and `decodeArraySlice`, which can
panic, or abort out of memory, on a huge array type such as `uint8[2^50][2]` whatever the
input. Both results are stated for the types whose reflection asks for no more than the
input (`Typ.AllocBounded`), where the source does what the model does.
-/

namespace Abi

/-- Whether a result is a run-time panic. -/
def isPanic {α : Type} : Result α → Bool
  | .error (.panic _) => true
  | _ => false

section

variable {α β : Type}

@[simp] theorem isPanic_ok (a : α) : isPanic (.ok a : Result α) = false := rfl

@[simp] theorem isPanic_fail (msg : String) : isPanic (fail msg : Result α) = false := rfl

theorem isPanic_bind {x : Result α} {f : α → Result β} (hx : isPanic x = false)
    (hf : ∀ a, x = .ok a → isPanic (f a) = false) : isPanic (x >>= f) = false := by
  cases x with
  | error e => cases e <;> simp_all [isPanic]
  | ok a => exact hf a rfl

@[simp] theorem isPanic_map (f : α → β) (x : Result α) : isPanic (f <$> x) = isPanic x := by
  cases x with
  | error e => cases e <;> rfl
  | ok a => rfl

end

/-! ## Readers -/

theorem readSlice_word_noPanic (input : Bytes) : isPanic (readSlice input 0 32) = false := by
  by_cases h : 32 ≤ input.length
  · simp [readSlice, slice, h, show ¬ ((input.length : Int) < 32) by omega,
      show (32 : Int) ≤ input.length by omega]
  · simp [readSlice, show ((input.length : Int) < 32) by omega]

theorem readSlice_rest_noPanic {input : Bytes} (h : 32 ≤ input.length) :
    isPanic (readSlice input 32 0) = false := by
  simp [readSlice, slice, h, show (32 : Int) ≤ input.length by omega]

/-- A branch reading one word does not panic when its reader does not on a word. -/
theorem decodeWord_noPanic {read : Bytes → Result Value}
    (hread : ∀ w : Bytes, w.length = 32 → isPanic (read w) = false) (input : Bytes) :
    isPanic (decodeWord read input) = false := by
  refine isPanic_bind (readSlice_word_noPanic input) fun w hw => ?_
  obtain ⟨h, rfl⟩ := readSlice_word.1 hw
  exact isPanic_bind (hread _ (by simp; omega)) fun _ _ =>
    isPanic_bind (readSlice_rest_noPanic h) fun _ _ => rfl

theorem decodeBool_noPanic {w : Bytes} (hw : w.length = 32) : isPanic (decodeBool w) = false := by
  rw [decodeBool, List.getElem?_eq_getElem (by omega)]
  split <;> first | rfl | simp_all

theorem intRType_ne_nil (kind : Kind) (size : Int) : Typ.intRType kind size ≠ .nil := by
  unfold Typ.intRType
  split <;> split_ifs <;> simp

theorem readInteger_noPanic {kind : Kind} {size : Int} {elem : Typ} {tuple : Option (List TupleElem)}
    {raw : String} {rt : RType} (hrt : rt ≠ .nil) {w : Bytes} (hw : w.length = 32) :
    isPanic (readInteger (.mk kind size elem tuple raw rt) w) = false := by
  have hlast : ∀ k ≤ 32, lastBytes k w = .ok (w.drop (32 - k)) := fun k hk => by
    rw [lastBytes, hw, show ((32 : Nat) : Int) - k = ((32 - k : Nat) : Int) by omega]
    exact sliceFrom_ok (by omega)
  cases rt
  case nil => exact absurd rfl hrt
  case other => simp only [readInteger]; split_ifs <;> rfl
  all_goals exact isPanic_bind (by simp [hlast 1 (by decide), hlast 2 (by decide),
    hlast 4 (by decide), hlast 8 (by decide)]) fun _ _ => rfl

theorem readFixedBytes_noPanic {kind : Kind} {size : Int} {elem : Typ}
    {tuple : Option (List TupleElem)} {raw : String} {rt : RType} (h₁ : 1 ≤ size) (h₂ : size ≤ 32)
    {w : Bytes} (hw : w.length = 32) :
    isPanic (readFixedBytes (.mk kind size elem tuple raw rt) w) = false := by
  simp [readFixedBytes, slice, hw, show 0 ≤ size by omega, h₂]

theorem readFunctionType_noPanic {w : Bytes} (hw : w.length = 32) :
    isPanic (readFunctionType w) = false := by
  simp only [readFunctionType]
  refine isPanic_bind (by simp [slice, hw]) fun _ _ => ?_
  split_ifs
  · rfl
  · simp [slice, hw]

theorem readAddr_noPanic (w : Bytes) : isPanic (readAddr w) = false := by
  unfold readAddr
  split_ifs <;> rfl

/-! ## Static types -/

/-- The loop over static elements panics only where an element's decoder does. -/
theorem decodeArrayLoop_noPanic {dec : Bytes → Result (Value × Bytes)} {orig : Bytes}
    (hdec : ∀ x, isPanic (dec x) = false) :
    ∀ n res data, isPanic (decodeArrayLoop dec false orig n res data) = false
  | 0, _, _ => rfl
  | n + 1, res, data => isPanic_bind rfl fun entry he => by
    obtain rfl : data = entry := Except.ok.inj he
    refine isPanic_bind (hdec data) fun ⟨val, tail⟩ _ => isPanic_bind rfl fun data' ha => ?_
    obtain rfl : tail = data' := Except.ok.inj ha
    exact decodeArrayLoop_noPanic hdec n _ _

theorem decodeArraySlice_noPanic {dec : Bytes → Result (Value × Bytes)}
    (hdec : ∀ x, isPanic (dec x) = false) (data : Bytes) (size : Int) :
    isPanic (decodeArraySlice dec false data size) = false := by
  unfold decodeArraySlice
  split_ifs
  · rfl
  · rfl
  · exact decodeArrayLoop_noPanic hdec _ [] data

mutual
/-- A well-formed static type never panics. -/
theorem decode_noPanic : ∀ t : Typ, t.WellFormed → t.isNil = false → t.isDynamicType = false →
    ∀ b, isPanic (decode t b) = false
  | .nil, _, hn, _, _ => by cases hn
  | .mk kind size elem tuple raw rt, hwf, _, hs, b => by
    rw [Typ.WellFormed, Typ.all_mk] at hwf
    simp only [Bool.and_eq_true] at hwf
    obtain ⟨⟨hnode, helem⟩, htuple⟩ := hwf
    cases kind
    case string | bytes | slice => cases hs
    case tuple =>
      cases tuple with
      | none => rfl
      | some elems =>
        simp only [Typ.wellFormedNode, Option.getD_some] at hnode
        exact decodeTuple_noPanic elems htuple hnode hs b 0 [] b
    case array =>
      simp only [Typ.wellFormedNode, Bool.and_eq_true, Bool.not_eq_true'] at hnode
      have hs' : elem.isDynamicType = false := hs
      rw [decode_array, hs']
      exact decodeArraySlice_noPanic (decode_noPanic elem helem hnode.2 hs') b size
    case bool => rw [decode_bool]; exact decodeWord_noPanic (fun _ hw => by simp [decodeBool_noPanic hw]) b
    case int | uInt =>
      simp only [Typ.wellFormedNode, Bool.and_eq_true, beq_iff_eq] at hnode
      simp only [decode_int, decode_uInt]
      exact decodeWord_noPanic (fun _ hw => by
        simp [readInteger_noPanic (hnode.2 ▸ intRType_ne_nil _ _) hw]) b
    case fixedBytes =>
      simp only [Typ.wellFormedNode, Bool.and_eq_true, decide_eq_true_eq] at hnode
      rw [decode_fixedBytes]
      exact decodeWord_noPanic (fun _ hw => by simp [readFixedBytes_noPanic hnode.1 hnode.2 hw]) b
    case address => rw [decode_address]; exact decodeWord_noPanic (fun w _ => by simp [readAddr_noPanic w]) b
    case function => rw [decode_function]; exact decodeWord_noPanic (fun _ hw => by simp [readFunctionType_noPanic hw]) b

/-- The elements of a tuple of well-formed static types never panic. -/
theorem decodeTuple_noPanic : ∀ elems : List TupleElem, Typ.allOf Typ.wellFormedNode elems →
    elems.all (fun e => !e.elem.isNil) → Typ.anyDynamic elems = false →
    ∀ orig indx res data, isPanic (decodeTuple orig elems indx res data) = false
  | [], _, _, _, _, _, _, _ => rfl
  | .mk name e i :: args, hwf, hn, hs, orig, indx, res, data => by
    simp only [Typ.allOf, Bool.and_eq_true] at hwf
    simp only [List.all_cons, Bool.and_eq_true, Bool.not_eq_true', TupleElem.elem_mk] at hn
    simp only [Typ.anyDynamic, Bool.or_eq_false_iff] at hs
    simp only [decodeTuple, hs.1]
    refine isPanic_bind rfl fun entry he => ?_
    obtain rfl : data = entry := Except.ok.inj he
    refine isPanic_bind (decode_noPanic e hwf.1 hn.1 hs.1 data) fun ⟨val, tail⟩ _ => ?_
    refine isPanic_bind rfl fun data' ha => ?_
    obtain rfl : tail = data' := Except.ok.inj ha
    split_ifs
    · rfl
    · exact decodeTuple_noPanic args hwf.2 hn.2 hs.2 orig _ _ _
end

/-- A tuple whose first element is dynamic reads its offset word with `data[0:32]`, which
    panics on every input shorter than a word. -/
theorem decode_dynamicHead_short {size : Int} {elem : Typ} {name : String} {e : Typ} {i : Bool}
    {args : List TupleElem} {raw : String} {rt : RType} (he : e.isDynamicType = true) {b : Bytes}
    (hb : b.length < 32) :
    decode (.mk .tuple size elem (some (.mk name e i :: args)) raw rt) b = outOfRange := by
  rw [decode_tuple_some]
  simp [decodeTuple, entryAt, he, readOffset_short hb, outOfRange]

/-- The type `tuple(string)`, well formed. -/
def stringTuple : Typ := .mk .tuple 0 .nil (some [.mk "" stringType false]) "tuple(string)" .other

/-- `Decode` of the well-formed `tuple(string)` on no bytes panics. -/
theorem decode_stringTuple_empty :
    stringTuple.WellFormed ∧ Decode stringTuple [] = .error (.panic "slice bounds out of range") :=
  ⟨by decide, by rw [Decode, stringTuple, decode_dynamicHead_short (show stringType.isDynamicType = true from rfl) (by decide)]; rfl⟩

/-! ## Inputs that hold the head

Only two cuts of `decode.go` are not checked: the offset word `readOffset` cuts at the
cursor, and, through the overflow of `32*size` in an `int`, the words of an array the size
check lets through. An array or a slice of a dynamic element type checks that its input
holds `size` words before it reads an offset, so only a tuple reads one with no check.
A tuple inside another type is read at an offset the input chooses, and a tuple with a
dynamic element can be made to panic there; at the top, it does not panic on an input that
holds its head. -/

/-- A node that cannot make `decode` panic: a tuple with no dynamic element, which reads no
    offset, and an array of a dynamic element type whose `32*size` fits in an `int`. -/
def Typ.panicFreeNode : Typ → Bool
  | .mk .tuple _ _ (some elems) _ _ => !Typ.anyDynamic elems
  | .mk .array size elem _ _ _ => !elem.isDynamicType || decide (size < 2 ^ 58)
  | _ => true

/-- The words that a value of type `t` takes in the head of a tuple: its offset for a
    dynamic type, its encoding for a static one. -/
def Typ.headWords (t : Typ) : Nat := if t.isDynamicType then 1 else t.words

/-- The words of the head of a tuple of the elements `elems`. -/
def headWordsOf : List TupleElem → Nat
  | [] => 0
  | .mk _ e _ :: elems => e.headWords + headWordsOf elems

/-- The nodes of `t` that must be `panicFreeNode`: all of them, but for a tuple at the top,
    which may have dynamic elements. -/
def Typ.headPanicFree : Typ → Bool
  | .mk .tuple _ _ (some elems) _ _ => Typ.allOf Typ.panicFreeNode elems
  | t => t.all Typ.panicFreeNode

/-- The bytes a tuple at the top reads before its last offset: its head. -/
def Typ.headSize : Typ → Nat
  | .mk .tuple _ _ (some elems) _ _ => 32 * headWordsOf elems
  | _ => 0

theorem readLength_noPanic (data : Bytes) : isPanic (readLength data) = false :=
  isPanic_bind (readSlice_word_noPanic data) fun _ _ => by
    simp only [readLength]
    split_ifs <;> rfl

theorem readOffset_noPanic {data : Bytes} (h : 32 ≤ data.length) (len : Int) :
    isPanic (readOffset data len) = false := by
  unfold readOffset
  rw [slice, if_pos ⟨by decide, by decide, by omega⟩, bind_ok]
  dsimp only
  split_ifs <;> rfl

/-- The payload of a string or bytes value is cut within the input `readLength` checked. -/
theorem decodePayload_noPanic (mk : Bytes → Value) {input : Bytes} {length : Int}
    (h : readLength input = .ok length) : isPanic (decodePayload mk input length) = false := by
  obtain ⟨h32, -, -, rfl⟩ := readLength_eq_ok.1 h
  refine isPanic_bind ?_ fun _ _ => isPanic_bind (readSlice_rest_noPanic h32) fun _ _ => rfl
  -- the payload starts after the length word and ends within the input, or is refused
  simp only [readSlice, slice, show ¬ (32 : Int) < 0 by decide, if_false,
    show ¬ ((beNat (input.take 32) : Nat) : Int) < 0 by omega]
  split_ifs <;> first | rfl | omega

theorem entryAt_noPanic {d : Bool} {orig data : Bytes} (h : d = true → 32 ≤ data.length) :
    isPanic (entryAt d orig data) = false := by
  cases d with
  | false => rfl
  | true =>
    refine isPanic_bind (readOffset_noPanic (h rfl) _) fun o ho => ?_
    obtain ⟨-, -, hle, rfl⟩ := readOffset_eq_ok.1 ho
    rw [sliceFrom_ok (by exact_mod_cast hle)]
    rfl

theorem length_entryAt_le {d : Bool} {orig data entry : Bytes} (h : entryAt d orig data = .ok entry) :
    entry.length ≤ if d then orig.length else data.length := by
  cases d with
  | false => cases h; simp
  | true =>
    obtain ⟨-, -, -, rfl⟩ := entryAt_true_eq_ok.1 h
    simp

/-- The loop over `n` dynamic elements, at a cursor that holds their `n` offsets, cuts
    every offset word within the cursor, and reads every element from the array. -/
theorem decodeArrayLoop_dynamic_noPanic {dec : Bytes → Result (Value × Bytes)} {orig : Bytes}
    (hdec : ∀ x : Bytes, x.length ≤ orig.length → isPanic (dec x) = false) :
    ∀ n res data, 32 * n ≤ data.length → isPanic (decodeArrayLoop dec true orig n res data) = false
  | 0, _, _, _ => rfl
  | n + 1, res, data, h => isPanic_bind (entryAt_noPanic fun _ => by omega) fun entry he => by
    refine isPanic_bind (hdec entry (by simpa using length_entryAt_le he)) fun ⟨val, tail⟩ _ => ?_
    dsimp only
    rw [advance_true tail (by omega), bind_ok]
    exact decodeArrayLoop_dynamic_noPanic hdec n _ _ (by simp; omega)

/-- An array of dynamic elements, once its size check passes without overflow, holds the
    offsets of all its elements. -/
theorem decodeArraySlice_dynamic_noPanic {dec : Bytes → Result (Value × Bytes)} {data : Bytes}
    {size : Int} (hdec : ∀ x : Bytes, x.length ≤ data.length → isPanic (dec x) = false)
    (hsize : size < 2 ^ 58) : isPanic (decodeArraySlice dec true data size) = false := by
  unfold decodeArraySlice
  split_ifs with h₀ h₁
  · rfl
  · rfl
  · rw [int64Wrap_of_lt (by omega) (by omega)] at h₁
    exact decodeArrayLoop_dynamic_noPanic hdec _ [] data (by omega)

/-- A well-formed type all of whose nodes are `panicFreeNode` never panics on an input of
    less than `2^58` bytes, the bound under which the size of a slice, at most the length of
    its input, cannot overflow `32*size`. -/
theorem decode_noPanic_of_panicFree : ∀ t : Typ, t.WellFormed → t.isNil = false →
    t.all Typ.panicFreeNode → ∀ b : Bytes, b.length < 2 ^ 58 → isPanic (decode t b) = false
  | .nil, _, hn, _, _, _ => by cases hn
  | .mk kind size elem tuple raw rt, hwf, hn, hp, b, hb => by
    cases hs : (Typ.mk kind size elem tuple raw rt).isDynamicType
    case false => exact decode_noPanic _ hwf hn hs b
    have hwf' := hwf
    rw [Typ.WellFormed, Typ.all_mk] at hwf'
    rw [Typ.all_mk] at hp
    simp only [Bool.and_eq_true] at hwf' hp
    obtain ⟨⟨hnode, helem⟩, -⟩ := hwf'
    obtain ⟨⟨hpnode, hpelem⟩, -⟩ := hp
    -- the element type of an array or a slice, read from within the input
    have hdec : elem.isNil = false → ∀ x : Bytes, x.length ≤ b.length → isPanic (decode elem x) = false :=
      fun hne x hx => decode_noPanic_of_panicFree elem helem hne hpelem x (by omega)
    cases kind
    case string => rw [decode_string]; exact isPanic_bind (readLength_noPanic b) fun _ h => decodePayload_noPanic _ h
    case bytes => rw [decode_bytes]; exact isPanic_bind (readLength_noPanic b) fun _ h => decodePayload_noPanic _ h
    case slice =>
      rw [decode_slice]
      refine isPanic_bind (readLength_noPanic b) fun l hl => ?_
      obtain ⟨h32, -, hle, rfl⟩ := readLength_eq_ok.1 hl
      refine isPanic_bind (readSlice_rest_noPanic h32) fun data hdata => ?_
      obtain ⟨-, rfl⟩ := readSlice_rest.1 hdata
      simp only [Typ.wellFormedNode, Bool.not_eq_true'] at hnode
      cases he : elem.isDynamicType
      · exact decodeArraySlice_noPanic (decode_noPanic elem helem hnode he) _ _
      · exact decodeArraySlice_dynamic_noPanic (fun x hx => hdec hnode x (by simp at hx; omega)) (by omega)
    case array =>
      rw [decode_array]
      simp only [Typ.wellFormedNode, Bool.and_eq_true, Bool.not_eq_true'] at hnode
      cases he : elem.isDynamicType
      · exact decodeArraySlice_noPanic (decode_noPanic elem helem hnode.2 he) _ _
      · change (!elem.isDynamicType || decide (size < 2 ^ 58)) = true at hpnode
        rw [he] at hpnode
        exact decodeArraySlice_dynamic_noPanic (hdec hnode.2) (of_decide_eq_true hpnode)
    case tuple =>
      -- a dynamic tuple has a dynamic element, which `panicFreeNode` rules out
      cases tuple with
      | none => cases hs
      | some elems =>
        change (!Typ.anyDynamic elems) = true at hpnode
        rw [show Typ.anyDynamic elems = true from hs] at hpnode
        cases hpnode
    all_goals cases hs

/-- The loop of a tuple at the top, at a cursor that holds the head of the elements still to
    read, cuts every offset word within the cursor. -/
theorem decodeTuple_noPanic_of_head : ∀ elems : List TupleElem,
    Typ.allOf Typ.wellFormedNode elems → elems.all (fun e => !e.elem.isNil) →
    Typ.allOf Typ.panicFreeNode elems → ∀ (orig : Bytes) (indx : Nat) (res : List (String × Value))
    (data : Bytes), orig.length < 2 ^ 58 → data.length ≤ orig.length →
    32 * headWordsOf elems ≤ data.length → isPanic (decodeTuple orig elems indx res data) = false
  | [], _, _, _, _, _, _, _, _, _, _ => rfl
  | .mk name e i :: args, hwf, hn, hp, orig, indx, res, data, horig, hdata, hhead => by
    simp only [Typ.allOf, Bool.and_eq_true] at hwf hp
    simp only [List.all_cons, Bool.and_eq_true, Bool.not_eq_true', TupleElem.elem_mk] at hn
    simp only [headWordsOf, Typ.headWords] at hhead
    simp only [decodeTuple]
    refine isPanic_bind (entryAt_noPanic fun hd => by simp [hd] at hhead; omega) fun entry he => ?_
    have hentry := length_entryAt_le he
    refine isPanic_bind (decode_noPanic_of_panicFree e hwf.1 hn.1 hp.1 entry
      (by split_ifs at hentry <;> omega)) fun ⟨val, tail⟩ hdec => ?_
    -- the cursor moves past the element's part of the head, and still holds the rest of it
    obtain ⟨data', hadv, hlen, hhead'⟩ : ∃ data', advance e.isDynamicType data tail = .ok data' ∧
        data'.length ≤ orig.length ∧ 32 * headWordsOf args ≤ data'.length := by
      cases hd : e.isDynamicType
      · -- a static element takes its words of the head
        rw [hd, entryAt_false] at he
        cases he
        obtain ⟨-, rfl⟩ := decode_consumes e hd hdec
        simp only [hd, Bool.false_eq_true, if_false] at hhead
        exact ⟨_, advance_false _ _, by simp; omega, by simp; omega⟩
      · -- a dynamic element takes one offset word
        simp only [hd, if_true] at hhead
        exact ⟨_, advance_true tail (by omega), by simp; omega, by simp; omega⟩
    dsimp only
    rw [hadv, bind_ok]
    split_ifs
    · rfl
    · exact decodeTuple_noPanic_of_head args hwf.2 hn.2 hp.2 orig _ _ _ horig hlen hhead'

/-- The type `tuple(bool,string,bool[])`. -/
def boolStringSlice : Typ :=
  .mk .tuple 0 .nil (some [.mk "" boolType false, .mk "" stringType false,
    .mk "" (.mk .slice 0 boolType none "bool[]" .other) false]) "tuple(bool,string,bool[])" .other

end Abi
