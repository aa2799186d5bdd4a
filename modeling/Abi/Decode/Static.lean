import Abi.Decode

/-!
# Static types

The head of a value of a static type is the whole of its encoding, `32 * t.words` bytes:
a tuple or an array of static elements reads their heads one after the other, and so does
`decode`, which leaves the input after the head (`decode_static_rest`). This is the cursor
move `decodeTuple` and `decodeArraySlice` make past a static element.

* `Consumes dec m`: whenever `dec` succeeds, it read exactly the first `m` bytes;
* `decodeArrayLoop_consumes`: a loop over `n` static elements reads `n` heads;
* `decode_consumes`: a static type reads its head.
-/

namespace Abi

/-- `dec` reads the first `m` bytes of its input: whenever it succeeds, the input holds
    `m` bytes, and it leaves the input after them. -/
def Consumes (dec : Bytes → Result (Value × Bytes)) (m : Nat) : Prop :=
  ∀ ⦃d : Bytes⦄ ⦃v : Value⦄ ⦃r : Bytes⦄, dec d = .ok (v, r) → m ≤ d.length ∧ r = d.drop m

/-- A decoder that reads a fixed number of bytes read `x` whole when it leaves `c`. -/
theorem length_of_consumes {dec : Bytes → Result (Value × Bytes)} {m : Nat} (hc : Consumes dec m)
    {x c : Bytes} {v : Value} (h : dec (x ++ c) = .ok (v, c)) : x.length = m := by
  obtain ⟨hle, hr⟩ := hc h
  have hlen := congrArg List.length hr
  simp only [List.length_drop, List.length_append] at hle hlen
  omega

theorem decodeWord_consumes (read : Bytes → Result Value) : Consumes (decodeWord read) 32 :=
  fun _ _ _ h => let ⟨hl, _, hr⟩ := decodeWord_eq_ok.1 h; ⟨hl, hr⟩

theorem decodeArrayLoop_consumes {dec : Bytes → Result (Value × Bytes)} {m : Nat}
    (h : Consumes dec m) (orig : Bytes) :
    ∀ n res, Consumes (decodeArrayLoop dec false orig n res) (n * m)
  | 0, _ => fun d v r hd => by
    cases hd
    simp
  | n + 1, res => fun d v r hd => by
    obtain ⟨_, _, _, _, he, hdec, ha, hl⟩ := decodeArrayLoop_succ_eq_ok.1 hd
    cases he
    cases ha
    obtain ⟨h₁, rfl⟩ := h hdec
    obtain ⟨h₂, rfl⟩ := decodeArrayLoop_consumes h orig n _ hl
    rw [List.length_drop] at h₂
    rw [List.drop_drop, Nat.succ_mul]
    exact ⟨by omega, by rw [Nat.add_comm]⟩

theorem decodeArraySlice_consumes {dec : Bytes → Result (Value × Bytes)} {m : Nat}
    (h : Consumes dec m) (size : Int) :
    Consumes (fun d => decodeArraySlice dec false d size) (size.toNat * m) := fun d v r hd => by
  simp only [decodeArraySlice] at hd
  split_ifs at hd
  · simp at hd
  · simp at hd
  · exact decodeArrayLoop_consumes h d _ _ hd

mutual
/-- A static type reads its head, `32 * t.words` bytes. -/
theorem decode_consumes : ∀ t : Typ, t.isDynamicType = false → Consumes (decode t) (32 * t.words)
  | .nil, _ => fun _ _ _ h => by cases h
  | .mk kind size elem tuple raw rt, hs => by
    cases kind
    case string | bytes | slice => cases hs
    case array =>
      have hs' : elem.isDynamicType = false := hs
      intro d v r hd
      rw [decode_array, hs'] at hd
      rw [Typ.words, Nat.mul_left_comm]
      exact decodeArraySlice_consumes (decode_consumes elem hs') size hd
    case tuple =>
      cases tuple with
      | none => exact fun d v r hd => by cases hd; simp [Typ.words]
      | some elems =>
        exact fun d v r hd => decodeTuple_consumes elems hs d 0 [] hd
    all_goals
      intro d v r hd
      simp only [decode_bool, decode_int, decode_uInt, decode_address, decode_fixedBytes,
        decode_function] at hd
      exact decodeWord_consumes _ hd

/-- The elements of a tuple of static types read their heads one after the other. -/
theorem decodeTuple_consumes : ∀ elems : List TupleElem, Typ.anyDynamic elems = false →
    ∀ orig indx res, Consumes (decodeTuple orig elems indx res) (32 * Typ.wordsOf elems)
  | [], _, _, _, _ => fun d v r hd => by cases hd; simp [Typ.wordsOf]
  | .mk name e i :: args, hs, orig, indx, res => fun d v r hd => by
    simp only [Typ.anyDynamic, Bool.or_eq_false_iff] at hs
    obtain ⟨_, _, _, _, he, hdec, ha, -, hl⟩ := decodeTuple_cons_eq_ok.1 hd
    rw [hs.1] at he ha
    cases he
    cases ha
    obtain ⟨h₁, rfl⟩ := decode_consumes e hs.1 hdec
    obtain ⟨h₂, rfl⟩ := decodeTuple_consumes args hs.2 orig _ _ hl
    rw [List.length_drop] at h₂
    rw [List.drop_drop, Typ.wordsOf, Nat.mul_add]
    exact ⟨by omega, by rw [Nat.add_comm]⟩
end

/-- After a value of a static type, `decode` leaves the input past its head, the first
    `32 * t.words` bytes. -/
theorem decode_static_rest (t : Typ) (b : Bytes) (v : Value) (r : Bytes)
    (hs : t.isDynamicType = false) (h : decode t b = .ok (v, r)) :
    r = b.drop (32 * t.words) :=
  (decode_consumes t hs h).2

/-- The pair of a `bool` and a `uint8[2]`, a static type of three words. -/
def boolBytePair : Typ :=
  .mk .tuple 0 .nil (some [.mk "flag" (.mk .bool 0 .nil none "bool" .other) false,
    .mk "" (.mk .array 2 (.mk .uInt 8 .nil none "uint8" .uint8) none "uint8[2]" .other) false])
    "tuple(bool,uint8[2])" .other

theorem decode_static_rest_boolBytePair :
    boolBytePair.isDynamicType = false ∧
      decode boolBytePair (word 1 ++ word 7 ++ word 9 ++ [5]) =
        .ok (.tuple [("flag", .bool true), ("1", .array [.int 7, .int 9])], [5]) ∧
      [5] = (word 1 ++ word 7 ++ word 9 ++ [5]).drop (32 * boolBytePair.words) :=
  ⟨rfl, rfl, decode_static_rest _ _ _ _ rfl rfl⟩

end Abi
