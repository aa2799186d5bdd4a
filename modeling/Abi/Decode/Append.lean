import Abi.Decode.Panic

/-!
# Trailing bytes

A dynamic element is decoded from `orig[offset:]`, which runs to the end of the tuple or
array it is in, so bytes after the value are the normal case. Every reader of `decode.go`
ignores them, with one exception: `readSlice(input, 32, length)` takes a `length` of zero
to mean "to the end", so a string or bytes value of length zero reads everything after
its length word (`decode_emptyString_append`).

Without strings and bytes, appending bytes to an input that `decode` accepts changes only
the rest it returns (`decode_append_noPayload`):

* `AppendStable dec`: `dec` reads `x ++ c` as it reads `x`, and leaves `c` after the rest;
* `entryAt_append`, `advance_append`: the cursor moves in `data ++ c` as in `data`;
* `decodeArrayLoop_append`, `decodeTuple_append`: the loops, element by element.
-/

namespace Abi

/-- `dec` reads `x ++ c` as it reads `x`, and leaves `c` after the rest. -/
def AppendStable (dec : Bytes → Result (Value × Bytes)) : Prop :=
  ∀ ⦃x : Bytes⦄ ⦃v : Value⦄ ⦃r : Bytes⦄ (c : Bytes), dec x = .ok (v, r) → dec (x ++ c) = .ok (v, r ++ c)

/-- A string or bytes node, whose reader takes a length of zero to mean "to the end". -/
def Typ.hasPayload : Typ → Bool
  | .mk .string .. | .mk .bytes .. => true
  | _ => false

/-! ## The readers and the cursor -/

section

variable {c : Bytes}

theorem take_append_word {x : Bytes} (h : 32 ≤ x.length) : (x ++ c).take 32 = x.take 32 :=
  List.take_append_of_le_length h

theorem decodeWord_append (read : Bytes → Result Value) : AppendStable (decodeWord read) := by
  intro x v r c h
  obtain ⟨hl, hv, rfl⟩ := decodeWord_eq_ok.1 h
  exact decodeWord_eq_ok.2 ⟨by simp; omega, by rwa [take_append_word hl],
    (List.drop_append_of_le_length hl).symm⟩

theorem readLength_append {x : Bytes} {n : Int} (h : readLength x = .ok n) :
    readLength (x ++ c) = .ok n := by
  obtain ⟨hl, hlt, hle, rfl⟩ := readLength_eq_ok.1 h
  rw [readLength_eq_ok, take_append_word hl, List.length_append]
  exact ⟨by omega, hlt, by omega, rfl⟩

theorem entryAt_append {d : Bool} {orig data e : Bytes} (h : entryAt d orig data = .ok e) :
    entryAt d (orig ++ c) (data ++ c) = .ok (e ++ c) := by
  cases d with
  | false => cases h; rfl
  | true =>
    obtain ⟨hl, hlt, hle, rfl⟩ := entryAt_true_eq_ok.1 h
    rw [entryAt_true_eq_ok, take_append_word hl, List.length_append, List.length_append]
    exact ⟨by omega, hlt, by omega, (List.drop_append_of_le_length hle).symm⟩

theorem advance_append {d : Bool} {data tail data' : Bytes} (hd : d = true → 32 ≤ data.length)
    (h : advance d data tail = .ok data') : advance d (data ++ c) (tail ++ c) = .ok (data' ++ c) := by
  cases d with
  | false => cases h; rfl
  | true =>
    have hl := hd rfl
    rw [advance_true _ hl] at h
    cases h
    rw [advance_true _ (by simp; omega), List.drop_append_of_le_length hl]

end

/-! ## The loops -/

section

variable {dec : Bytes → Result (Value × Bytes)} {d : Bool}

/-- One element at the cursor: where it is read, its value and where the cursor goes. -/
theorem element_append {orig data entry tail data' : Bytes} {val : Value}
    (hdec : AppendStable dec) (he : entryAt d orig data = .ok entry)
    (hv : dec entry = .ok (val, tail)) (ha : advance d data tail = .ok data') (c : Bytes) :
    entryAt d (orig ++ c) (data ++ c) = .ok (entry ++ c) ∧ dec (entry ++ c) = .ok (val, tail ++ c) ∧
      advance d (data ++ c) (tail ++ c) = .ok (data' ++ c) :=
  ⟨entryAt_append he, hdec c hv,
    advance_append (fun hd => (entryAt_true_eq_ok.1 (hd ▸ he)).1) ha⟩

theorem decodeArrayLoop_append (hdec : AppendStable dec) (c : Bytes) {orig : Bytes} :
    ∀ n res data v r, decodeArrayLoop dec d orig n res data = .ok (v, r) →
      decodeArrayLoop dec d (orig ++ c) n res (data ++ c) = .ok (v, r ++ c)
  | 0, _, _, _, _, h => by cases h; rfl
  | n + 1, res, data, v, r, h => by
    obtain ⟨entry, val, tail, data', he, hv, ha, hl⟩ := decodeArrayLoop_succ_eq_ok.1 h
    obtain ⟨he', hv', ha'⟩ := element_append hdec he hv ha c
    exact decodeArrayLoop_succ_eq_ok.2
      ⟨_, _, _, _, he', hv', ha', decodeArrayLoop_append hdec c n _ _ _ _ hl⟩

theorem decodeArraySlice_append (hdec : AppendStable dec) (size : Int) :
    AppendStable fun data => decodeArraySlice dec d data size := by
  intro data v r c h
  change decodeArraySlice dec d data size = _ at h
  by_cases h₁ : size < 0
  · simp [decodeArraySlice, h₁] at h
  by_cases h₂ : int64Wrap (32 * size) > data.length
  · simp [decodeArraySlice, h₁, h₂] at h
  rw [decodeArraySlice, if_neg h₁, if_neg h₂] at h
  show decodeArraySlice dec d (data ++ c) size = _
  rw [decodeArraySlice, if_neg h₁, if_neg (by simp at h₂ ⊢; omega)]
  exact decodeArrayLoop_append hdec c _ [] data v r h

end

mutual
/-- Without strings and bytes, `decode` reads `b ++ c` as `b`, and leaves `c` after the
    rest. -/
theorem decode_append : ∀ t : Typ, t.all (fun n => !n.hasPayload) → AppendStable (decode t)
  | .nil, _ => fun _ _ _ _ h => by cases h
  | .mk kind size elem tuple raw rt, hp => by
    rw [Typ.all_mk] at hp
    simp only [Bool.and_eq_true] at hp
    obtain ⟨⟨hnode, helem⟩, htuple⟩ := hp
    intro input v r c h
    cases kind
    case string | bytes => cases hnode
    case tuple =>
      cases tuple with
      | none => cases h; rfl
      | some elems => exact decodeTuple_append elems htuple c input 0 [] input v r h
    case array =>
      rw [decode_array] at h ⊢
      exact decodeArraySlice_append (decode_append elem helem) size c h
    case slice =>
      rw [decode_slice] at h ⊢
      obtain ⟨length, hl, h⟩ := bind_eq_ok.1 h
      obtain ⟨data, hd, h⟩ := bind_eq_ok.1 h
      obtain ⟨hlen, rfl⟩ := readSlice_rest.1 hd
      rw [readLength_append hl, bind_ok,
        readSlice_rest.2 ⟨by simp; omega, (List.drop_append_of_le_length hlen).symm⟩, bind_ok]
      exact decodeArraySlice_append (decode_append elem helem) length c h
    all_goals
      simp only [decode_bool, decode_int, decode_uInt, decode_address, decode_fixedBytes,
        decode_function] at h ⊢
      exact decodeWord_append _ c h

/-- The loop of `decodeTuple` over elements without strings and bytes. -/
theorem decodeTuple_append : ∀ elems : List TupleElem, Typ.allOf (fun n => !n.hasPayload) elems →
    ∀ (c orig : Bytes) indx res data v r, decodeTuple orig elems indx res data = .ok (v, r) →
      decodeTuple (orig ++ c) elems indx res (data ++ c) = .ok (v, r ++ c)
  | [], _, _, _, _, _, _, _, _, h => by cases h; rfl
  | .mk name e i :: args, hp, c, orig, indx, res, data, v, r, h => by
    simp only [Typ.allOf, Bool.and_eq_true] at hp
    obtain ⟨entry, val, tail, data', he, hv, ha, hany, hl⟩ := decodeTuple_cons_eq_ok.1 h
    obtain ⟨he', hv', ha'⟩ := element_append (decode_append e hp.1) he hv ha c
    exact decodeTuple_cons_eq_ok.2
      ⟨_, _, _, _, he', hv', ha', hany, decodeTuple_append args hp.2 c orig _ _ _ v r hl⟩
end

/-- For a type with no string or bytes in it, appending bytes to an input `decode`
    accepts leaves the value, and the bytes end up after the rest. -/
theorem decode_append_noPayload (t : Typ) (hp : t.all (fun n => !n.hasPayload)) (b c : Bytes)
    (v : Value) (r : Bytes) (h : decode t b = .ok (v, r)) : decode t (b ++ c) = .ok (v, r ++ c) :=
  decode_append t hp c h

theorem decode_append_noPayload_boolBytePair :
    boolBytePair.all (fun n => !n.hasPayload) ∧
      decode boolBytePair (word 1 ++ word 7 ++ word 9) =
        .ok (.tuple [("flag", .bool true), ("1", .array [.int 7, .int 9])], []) ∧
      decode boolBytePair (word 1 ++ word 7 ++ word 9 ++ [5]) =
        .ok (.tuple [("flag", .bool true), ("1", .array [.int 7, .int 9])], [] ++ [5]) :=
  ⟨rfl, rfl, decode_append_noPayload boolBytePair rfl _ _ _ _ rfl⟩

/-- A string of length zero reads the bytes after its length word: appended bytes become
    its value. -/
theorem decode_emptyString_append :
    decode stringType (word 0) = .ok (.string [], []) ∧
      decode stringType (word 0 ++ [0x61]) = .ok (.string [0x61], [0x61]) :=
  ⟨rfl, rfl⟩

end Abi
