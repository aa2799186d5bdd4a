import Abi.Type

/-!
# The decoder

`decode.go`, function by function. `decode t input` reads a value of the type `t` at the
start of `input` and returns it with what the decoder takes to be the rest of the input:

* a primitive type reads one 32-byte word, through `readSlice`, and leaves the input
  after it; a string or bytes value reads the length in its first word (`readLength`)
  and then that many bytes, but leaves the input after the length word;
* a tuple (`decodeTuple`) and an array (`decodeArraySlice`) read their elements in
  order: an element of a static type at the cursor, which then moves past it, and one of
  a dynamic type at the offset read at the cursor, from the start of the tuple or array,
  the cursor then moving one word; a slice is an array whose size is the length in its
  first word.

Every byte slice is cut by `slice` or `sliceFrom`, which panic out of range, so the model
tells a panic from an error; `readSlice` checks its bounds before it cuts, `readOffset`
does not.
-/

namespace Abi

/-- The run-time panic of an index out of range. -/
def indexOutOfRange {α : Type} : Result α := .error (.panic "index out of range")

@[simp] theorem indexOutOfRange_ne_ok {α : Type} (a : α) : indexOutOfRange ≠ .ok a := nofun

/-- `readSlice(input, start, length)`: `input[start:end]`, where a negative `start` counts
    from the end of `input`, and `end` is `start + length`, or for a negative `length`
    that many bytes before the end, or for a `length` of zero the end of `input`; an
    `end` past the end of `input` is an error. -/
def readSlice (input : Bytes) (start length : Int) : Result Bytes :=
  let n := input.length
  let start := if start < 0 then n + start else start
  let stop := if length < 0 then n + length else if length > 0 then start + length else n
  if n < stop then fail s!"input {n} read [{start}:{length}] error" else slice input start stop

/-- `readLength(data)`: the number in the first word of `data`, which must fit an `int64`
    and be no more than `len(data)`. -/
def readLength (data : Bytes) : Result Int := do
  let input ← readSlice data 0 32
  let lengthBig := beNat input
  let n := data.length
  if 2 ^ 63 ≤ lengthBig then fail s!"length larger than int64: {int64Wrap lengthBig}"
  else if n < lengthBig then fail s!"length insufficient {n} require {lengthBig}"
  else pure lengthBig

/-- `readOffset(data, len)`: the number in the first word of `data`, cut with no check,
    which must fit an `int64` and be no more than `len`. -/
def readOffset (data : Bytes) (len : Int) : Result Int := do
  let offsetBig := beNat (← slice data 0 32)
  if 2 ^ 63 ≤ offsetBig then fail s!"offset larger than int64: {int64Wrap offsetBig}"
  else if len < offsetBig then fail s!"offset insufficient {len} require {offsetBig}"
  else pure offsetBig

/-- `readAddr(b)`: the last 20 bytes of a 32-byte word. -/
def readAddr (b : Bytes) : Result Bytes :=
  if b.length ≠ 32 then fail "len is not correct" else .ok (b.drop 12)

/-- The value of the `bits`-bit two's-complement number `n`: a Go conversion such as
    `int8(b)`. -/
def toSigned (bits n : Nat) : Int := if n < 2 ^ (bits - 1) then n else n - 2 ^ bits

/-- The last `k` bytes of `b`: `b[len(b)-k:]`. -/
def lastBytes (k : Nat) (b : Bytes) : Result Bytes := sliceFrom b (b.length - k)

/-- `readInteger(t, b)`: by the reflect type of `t`, the last 1, 2, 4 or 8 bytes of `b`,
    unsigned or signed, or else all of `b`, as an unsigned number for an unsigned type
    and in two's complement (over `maxInt256`) for a signed one. -/
def readInteger : Typ → Bytes → Result Int
  | .nil, _ => nilDereference
  | .mk kind _ _ _ _ t, b =>
    match t with
    | .nil => nilDereference
    | .uint8 => return beNat (← lastBytes 1 b)
    | .uint16 => return beNat (← lastBytes 2 b)
    | .uint32 => return beNat (← lastBytes 4 b)
    | .uint64 => return beNat (← lastBytes 8 b)
    | .int8 => return toSigned 8 (beNat (← lastBytes 1 b))
    | .int16 => return toSigned 16 (beNat (← lastBytes 2 b))
    | .int32 => return toSigned 32 (beNat (← lastBytes 4 b))
    | .int64 => return toSigned 64 (beNat (← lastBytes 8 b))
    | .other =>
      let ret : Int := beNat b
      if kind = .uInt then pure ret
      else if ret > 2 ^ 255 - 1 then pure (-((2 ^ 256 - 1) - ret + 1)) else pure ret

/-- `allZeros(b)`. -/
def allZeros (b : Bytes) : Bool := b.all (· = 0)

/-- A byte slice as `fmt` prints it with the verb `%b`. -/
def formatBinary (b : Bytes) : String :=
  "[" ++ " ".intercalate (b.map fun x => String.mk (Nat.toDigits 2 x.toNat)) ++ "]"

/-- `readFunctionType(t, word)`: the first 24 bytes of the word, whose last 8 bytes must be
    zero. -/
def readFunctionType (word : Bytes) : Result Bytes := do
  let pad ← slice word 24 32
  if !allZeros pad then
    fail ("function type expects the last 8 bytes to be empty but found: " ++ formatBinary pad)
  else slice word 0 24

/-- `readFixedBytes(t, word)`: the first `t.size` bytes of the word. The source copies them
    into the array `reflect.New(t.t)` makes, which the model leaves out; that panics on a
    nil reflect type, which `Typ.allocNode` rules out. -/
def readFixedBytes : Typ → Bytes → Result Bytes
  | .nil, _ => nilDereference
  | .mk _ size _ _ _ _, word => slice word 0 size

/-- `decodeBool(data)`: the last byte of the word, which must be 0 or 1. -/
def decodeBool (data : Bytes) : Result Bool :=
  match (data[31]? : Option UInt8) with
  | some 0 => pure false
  | some 1 => pure true
  | some _ => fail "bad boolean"
  | none => indexOutOfRange

/-- Where an element of a tuple or an array is read: at the cursor `data`, or, for an
    element of a dynamic type, at the offset read at the cursor, from the start `orig` of
    the tuple or array. -/
def entryAt (isDynamic : Bool) (orig data : Bytes) : Result Bytes :=
  if isDynamic then do sliceFrom orig (← readOffset data orig.length) else pure data

/-- Where the cursor goes after an element: past its head, to the rest `tail` its decoding
    left, for a static type, and one word on for a dynamic type. -/
def advance (isDynamic : Bool) (data tail : Bytes) : Result Bytes :=
  if !isDynamic then pure tail else sliceFrom data 32

/-- The loop of `decodeArraySlice`: `n` more elements after the values `res`, read with
    `decodeElem` from the cursor `data` in the array that starts at `orig`. -/
def decodeArrayLoop (decodeElem : Bytes → Result (Value × Bytes)) (isDynamic : Bool)
    (orig : Bytes) : Nat → List Value → Bytes → Result (Value × Bytes)
  | 0, res, data => pure (.array res, data)
  | n + 1, res, data => do
    let entry ← entryAt isDynamic orig data
    let (val, tail) ← decodeElem entry
    let data ← advance isDynamic data tail
    decodeArrayLoop decodeElem isDynamic orig n (res ++ [val]) data

/-- `decodeArraySlice(t, data, size)`, given the decoder of the element type `t.elem` and
    whether that type is dynamic: `size` elements from the start of `data`, once `size`
    words, counted in an `int`, fit in `data`. After the size check the source makes the
    value with `reflect.MakeSlice(t.t, size, size)` or `reflect.New(t.t)`, which the model
    leaves out: they panic on a nil reflect type, and past the allocator's limit they
    panic or abort. `Typ.allocNode` is what they need. -/
def decodeArraySlice (decodeElem : Bytes → Result (Value × Bytes)) (isDynamic : Bool)
    (data : Bytes) (size : Int) : Result (Value × Bytes) :=
  if size < 0 then fail "size is lower than zero"
  else if int64Wrap (32 * size) > data.length then fail "size is too big"
  else decodeArrayLoop decodeElem isDynamic data size.toNat [] data

/-- What the reflection the model leaves out of `readFixedBytes` and `decodeArraySlice`
    needs of a node: the reflect type `NewType` gives it, and for an array or a slice,
    elements whose Go values take at most a word. The value `reflect.New` or
    `reflect.MakeSlice` makes after the size check `32*size ≤ len(data)` then takes at most
    the bytes of `data`, as §5 of the spec designs ("allocation-bounded by input size"). -/
def Typ.allocNode : Typ → Bool
  | .mk .fixedBytes _ _ _ _ t => t == .other
  | .mk .array _ elem _ _ t | .mk .slice _ elem _ _ t => t == .other && decide (elem.goSize ≤ 32)
  | _ => true

/-- Every node of the tree has what reflection needs, so that every allocation `decode`
    makes is at most the length of its input. Assumption: the runtime grants an allocation
    that size; the results that say a decoding returns assume `AllocBounded` where the
    source's reflection, left out of the model, could fail. -/
def Typ.AllocBounded (t : Typ) : Prop := t.all Typ.allocNode

instance (t : Typ) : Decidable t.AllocBounded := inferInstanceAs (Decidable (_ = true))

/-- The name under which `decodeTuple` puts the element `indx`: its name, or its index. -/
def entryName (name : String) (indx : Nat) : String :=
  if name = "" then toString indx else name

/-- A branch of `decode` for a type read from one word: the value `read` makes of the
    first word of `input`, and the input after that word. A reader's error comes after
    that cut in the source, which cannot fail once the word was read. -/
def decodeWord (read : Bytes → Result Value) (input : Bytes) : Result (Value × Bytes) := do
  let val ← read (← readSlice input 0 32)
  return (val, ← readSlice input 32 0)

/-- The branch of `decode` for a string or bytes value: the `length` bytes after the first
    word of `input`, and the input after that word. -/
def decodePayload (mk : Bytes → Value) (input : Bytes) (length : Int) :
    Result (Value × Bytes) := do
  let val ← readSlice input 32 length
  return (mk val, ← readSlice input 32 0)

mutual
/-- `decode(t, input)`: the value of type `t` at the start of `input`, and the rest. -/
def decode : Typ → Bytes → Result (Value × Bytes)
  | .nil, _ => nilDereference
  | t@(.mk kind size elem tuple _ _), input => do
    let length ← if t.isVariableInput then readLength input else pure 0
    match kind, tuple with
    | .tuple, some elems => decodeTuple input elems 0 [] input
    | .tuple, none => pure (.tuple [], input)
    | .slice, _ => decodeArraySlice (decode elem) elem.isDynamicType (← readSlice input 32 0) length
    | .array, _ => decodeArraySlice (decode elem) elem.isDynamicType input size
    | .bool, _ => decodeWord (fun data => .bool <$> decodeBool data) input
    | .int, _ | .uInt, _ => decodeWord (fun data => .int <$> readInteger t data) input
    | .string, _ => decodePayload .string input length
    | .bytes, _ => decodePayload .bytes input length
    | .address, _ => decodeWord (fun data => .address <$> readAddr data) input
    | .fixedBytes, _ => decodeWord (fun data => .fixedBytes <$> readFixedBytes t data) input
    | .function, _ => decodeWord (fun data => .function <$> readFunctionType data) input

/-- `decodeTuple(t, data)`, from the element `indx` of `t.tuple` on: `orig` is the data
    the tuple starts at, `res` the map built so far and `data` the cursor; a name already
    in the map is an error. -/
def decodeTuple (orig : Bytes) :
    List TupleElem → Nat → List (String × Value) → Bytes → Result (Value × Bytes)
  | [], _, res, data => pure (.tuple res, data)
  | .mk argName argElem _ :: args, indx, res, data => do
    let entry ← entryAt argElem.isDynamicType orig data
    let (val, tail) ← decode argElem entry
    let data ← advance argElem.isDynamicType data tail
    let name := entryName argName indx
    if res.any (·.1 = name) then fail "tuple with repeated values"
    else decodeTuple orig args (indx + 1) (res ++ [(name, val)]) data
end

/-- `Decode(t, input)`: the value `decode` reads. -/
def Decode (t : Typ) (input : Bytes) : Result Value := (decode t input).map Prod.fst

/-! ## The readers -/

theorem readSlice_word {input w : Bytes} :
    readSlice input 0 32 = .ok w ↔ 32 ≤ input.length ∧ w = input.take 32 := by
  by_cases h : 32 ≤ input.length
  · simp [readSlice, show ¬ ((input.length : Int) < 32) by omega, slice, h,
      show (32 : Int) ≤ input.length by omega, eq_comm]
  · simp [readSlice, show ((input.length : Int) < 32) by omega, fail, h]

theorem readSlice_rest {input r : Bytes} :
    readSlice input 32 0 = .ok r ↔ 32 ≤ input.length ∧ r = input.drop 32 := by
  by_cases h : 32 ≤ input.length
  · simp [readSlice, slice, h, show (32 : Int) ≤ input.length by omega, eq_comm]
  · simp [readSlice, slice, h, outOfRange, show ¬ (32 : Int) ≤ input.length by omega]

theorem readSlice_payload {input r : Bytes} {length : Int} (hl : 0 < length) :
    readSlice input 32 length = .ok r ↔
      32 + length ≤ input.length ∧ r = (input.drop 32).take length.toNat := by
  by_cases h : 32 + length ≤ input.length
  · simp [readSlice, slice, h, show ¬ length < 0 by omega, hl,
      show ¬ (input.length : Int) < 32 + length by omega, show (0 : Int) ≤ 32 + length by omega,
      show (32 : Int) ≤ 32 + length by omega, eq_comm, List.drop_take,
      show (32 + length).toNat - 32 = length.toNat by omega]
  · simp [readSlice, h, show ¬ length < 0 by omega, hl,
      show (input.length : Int) < 32 + length by omega, fail]

theorem slice_word {data w : Bytes} : slice data 0 32 = .ok w ↔ 32 ≤ data.length ∧ w = data.take 32 := by
  by_cases h : 32 ≤ data.length
  · simp [slice, h, show (32 : Int) ≤ data.length by omega, eq_comm]
  · simp [slice, h, outOfRange, show ¬ (32 : Int) ≤ data.length by omega]

theorem readLength_eq_ok {data : Bytes} {n : Int} :
    readLength data = .ok n ↔ 32 ≤ data.length ∧ beNat (data.take 32) < 2 ^ 63 ∧
      beNat (data.take 32) ≤ data.length ∧ n = beNat (data.take 32) := by
  rw [readLength]
  cases hx : readSlice data 0 32 with
  | error e =>
    simp only [bind_error, reduceCtorEq, false_iff]
    rintro ⟨h, -⟩
    rw [readSlice_word.2 ⟨h, rfl⟩] at hx
    cases hx
  | ok w =>
    obtain ⟨h, rfl⟩ := readSlice_word.1 hx
    simp only [bind_ok, h, true_and]
    split_ifs <;> simp [fail] <;> omega

theorem readOffset_eq_ok {data : Bytes} {len o : Int} :
    readOffset data len = .ok o ↔ 32 ≤ data.length ∧ beNat (data.take 32) < 2 ^ 63 ∧
      beNat (data.take 32) ≤ len ∧ o = beNat (data.take 32) := by
  rw [readOffset]
  cases hx : slice data 0 32 with
  | error e =>
    simp only [bind_error, reduceCtorEq, false_iff]
    rintro ⟨h, -⟩
    rw [slice_word.2 ⟨h, rfl⟩] at hx
    cases hx
  | ok w =>
    obtain ⟨h, rfl⟩ := slice_word.1 hx
    simp only [bind_ok, h, true_and]
    split_ifs <;> simp [fail] <;> omega

theorem readOffset_short {data : Bytes} {len : Int} (h : data.length < 32) :
    readOffset data len = outOfRange := by
  simp [readOffset, slice, show ¬ (32 : Int) ≤ data.length by omega, outOfRange]

theorem decodeWord_eq_ok {read : Bytes → Result Value} {input r : Bytes} {v : Value} :
    decodeWord read input = .ok (v, r) ↔
      32 ≤ input.length ∧ read (input.take 32) = .ok v ∧ r = input.drop 32 := by
  simp only [decodeWord, bind_eq_ok, readSlice_word, readSlice_rest, pure_eq, Except.ok.injEq, Prod.mk.injEq]
  constructor
  · rintro ⟨w, ⟨h, rfl⟩, val, hv, r', ⟨-, rfl⟩, rfl, rfl⟩
    exact ⟨h, hv, rfl⟩
  · rintro ⟨h, hv, rfl⟩
    exact ⟨_, ⟨h, rfl⟩, v, hv, _, ⟨h, rfl⟩, rfl, rfl⟩

/-! ## The loops -/

theorem entryAt_false (orig data : Bytes) : entryAt false orig data = .ok data := rfl

theorem entryAt_true_eq_ok {orig data e : Bytes} :
    entryAt true orig data = .ok e ↔ 32 ≤ data.length ∧ beNat (data.take 32) < 2 ^ 63 ∧
      beNat (data.take 32) ≤ orig.length ∧ e = orig.drop (beNat (data.take 32)) := by
  simp only [entryAt, if_true, bind_eq_ok, readOffset_eq_ok]
  constructor
  · rintro ⟨o, ⟨h, hlt, hle, rfl⟩, he⟩
    rw [sliceFrom_ok (by exact_mod_cast hle)] at he
    cases he
    exact ⟨h, hlt, by exact_mod_cast hle, rfl⟩
  · rintro ⟨h, hlt, hle, rfl⟩
    exact ⟨_, ⟨h, hlt, by exact_mod_cast hle, rfl⟩, sliceFrom_ok hle⟩

theorem advance_false (data tail : Bytes) : advance false data tail = .ok tail := rfl

theorem advance_true {data : Bytes} (tail : Bytes) (h : 32 ≤ data.length) :
    advance true data tail = .ok (data.drop 32) := sliceFrom_ok h

/-! ## `decode`, kind by kind -/

section

variable {s : Int} {e : Typ} {tu : Option (List TupleElem)} {raw : String} {t : RType} (input : Bytes)

theorem decode_bool :
    decode (.mk .bool s e tu raw t) input = decodeWord (fun data => .bool <$> decodeBool data) input := rfl

theorem decode_int : decode (.mk .int s e tu raw t) input =
    decodeWord (fun data => .int <$> readInteger (.mk .int s e tu raw t) data) input := rfl

theorem decode_uInt : decode (.mk .uInt s e tu raw t) input =
    decodeWord (fun data => .int <$> readInteger (.mk .uInt s e tu raw t) data) input := rfl

theorem decode_address :
    decode (.mk .address s e tu raw t) input = decodeWord (fun data => .address <$> readAddr data) input := rfl

theorem decode_fixedBytes : decode (.mk .fixedBytes s e tu raw t) input =
    decodeWord (fun data => .fixedBytes <$> readFixedBytes (.mk .fixedBytes s e tu raw t) data) input := rfl

theorem decode_function : decode (.mk .function s e tu raw t) input =
    decodeWord (fun data => .function <$> readFunctionType data) input := rfl

theorem decode_bytes : decode (.mk .bytes s e tu raw t) input = (do
    let length ← readLength input
    decodePayload .bytes input length) := rfl

end

theorem decode_tuple_some {s : Int} {e : Typ} {elems : List TupleElem} {raw : String} {t : RType} (input : Bytes) :
    decode (.mk .tuple s e (some elems) raw t) input = decodeTuple input elems 0 [] input := rfl

theorem decode_array {s : Int} {e : Typ} {tu : Option (List TupleElem)} {raw : String} {t : RType} (input : Bytes) :
    decode (.mk .array s e tu raw t) input = decodeArraySlice (decode e) e.isDynamicType input s := rfl

theorem decode_slice {s : Int} {e : Typ} {tu : Option (List TupleElem)} {raw : String} {t : RType} (input : Bytes) :
    decode (.mk .slice s e tu raw t) input = (do
      let length ← readLength input
      decodeArraySlice (decode e) e.isDynamicType (← readSlice input 32 0) length) := rfl

theorem decode_string {s : Int} {e : Typ} {tu : Option (List TupleElem)} {raw : String} {t : RType} (input : Bytes) :
    decode (.mk .string s e tu raw t) input = (do
      let length ← readLength input
      decodePayload .string input length) := rfl

theorem decodeArrayLoop_succ_eq_ok {dec : Bytes → Result (Value × Bytes)} {d : Bool} {orig : Bytes} {n : Nat} {res : List Value} {data r : Bytes} {v : Value} :
    decodeArrayLoop dec d orig (n + 1) res data = .ok (v, r) ↔
      ∃ entry val tail data', entryAt d orig data = .ok entry ∧ dec entry = .ok (val, tail) ∧
        advance d data tail = .ok data' ∧ decodeArrayLoop dec d orig n (res ++ [val]) data' = .ok (v, r) := by
  simp only [decodeArrayLoop, bind_eq_ok, Prod.exists]
  constructor
  · rintro ⟨entry, he, val, tail, hd, data', ha, hl⟩
    exact ⟨entry, val, tail, data', he, hd, ha, hl⟩
  · rintro ⟨entry, val, tail, data', he, hd, ha, hl⟩
    exact ⟨entry, he, val, tail, hd, data', ha, hl⟩

theorem decodeTuple_cons_eq_ok {orig : Bytes} {name : String} {e : Typ} {i : Bool} {args : List TupleElem} {indx : Nat} {res : List (String × Value)} {data r : Bytes} {v : Value} :
    decodeTuple orig (.mk name e i :: args) indx res data = .ok (v, r) ↔
      ∃ entry val tail data', entryAt e.isDynamicType orig data = .ok entry ∧ decode e entry = .ok (val, tail) ∧
        advance e.isDynamicType data tail = .ok data' ∧ (res.any (·.1 = entryName name indx)) = false ∧
        decodeTuple orig args (indx + 1) (res ++ [(entryName name indx, val)]) data' = .ok (v, r) := by
  simp only [decodeTuple, bind_eq_ok, Prod.exists]
  constructor
  · rintro ⟨entry, he, val, tail, hd, data', ha, hl⟩
    split_ifs at hl with hany
    · cases hl
    · exact ⟨entry, val, tail, data', he, hd, ha, Bool.eq_false_iff.2 hany, hl⟩
  · rintro ⟨entry, val, tail, data', he, hd, ha, hany, hl⟩
    refine ⟨entry, he, val, tail, hd, data', ha, ?_⟩
    rw [if_neg (Bool.eq_false_iff.1 hany)]
    exact hl

end Abi
