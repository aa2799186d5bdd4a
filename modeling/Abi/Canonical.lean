import Abi.Encode
import Abi.Decode.Panic

/-!
# Canonical heads

`decode.go` reads a static type word by word, and most of its readers look at a part of
the word only: `decodeBool` its last byte, `readAddr` its last 20 bytes, `readFixedBytes`
its first `size`, and `readInteger` the last 1, 2, 4 or 8 bytes for a Go integer type, or
else the whole word, with no range check. So an input the decoder accepts need not be the
encoding of the value it reads, two inputs can be read as the same value, and an integer
of a width that is not a Go integer's is read out of its range
(`decode_nonCanonical`).

What does hold is that the encoder undoes the decoder on its image: the encoding of a
value `decode` read, followed by bytes no shorter than the rest it left, is read back as
that value (`decode_reencode`), and for the widths `readInteger` reads natively the
value is in the domain of the encoder (`decode_inDomain`).

* `Reencodes dec encE`: `dec` reads back the encoding `encE v` of each value `v` it reads;
* `decode_leaf`: the types read from one word;
* `decodeArrayLoop_reencode`, `decodeTuple_reencode`: the loops, element by element;
* `decode_canonical`: on an input of exactly its head size, a well-formed static type.
-/

namespace Abi

/-- `dec` reads back the encoding `encE v` of each value `v` it reads, followed by any
    bytes no shorter than the rest it left. -/
def Reencodes (dec : Bytes → Result (Value × Bytes)) (encE : Value → Bytes) : Prop :=
  ∀ ⦃b : Bytes⦄ ⦃v : Value⦄ ⦃r : Bytes⦄, dec b = .ok (v, r) →
    ∀ c : Bytes, r.length ≤ c.length → dec (encE v ++ c) = .ok (v, c)

/-- An integer node of a width `readInteger` reads at exactly: 8, 16, 32, 64 or 256
    bits. -/
def Typ.nativeWidth : Typ → Bool
  | .mk .int size .. | .mk .uInt size .. => decide (size ∈ [8, 16, 32, 64, 256])
  | _ => true

/-! ## Readers -/

theorem readAddr_eq_ok {w a : Bytes} (h : readAddr w = .ok a) : w.length = 32 ∧ a = w.drop 12 := by
  unfold readAddr at h
  split_ifs at h with hw
  · cases h
  · cases h
    exact ⟨not_not.1 hw, rfl⟩

theorem readFunctionType_eq_ok {w f : Bytes} (hw : w.length = 32) (h : readFunctionType w = .ok f) :
    f.length = 24 := by
  obtain ⟨pad, -, h⟩ := bind_eq_ok.1 h
  split_ifs at h
  · cases h
  · obtain ⟨-, rfl⟩ := slice_eq_ok.1 h
    simp [hw]

theorem intRType_bits_native {kind : Kind} {size : Int} (hk : kind = .int ∨ kind = .uInt)
    (hs : size ∈ [8, 16, 32, 64, 256]) : (Typ.intRType kind size).bits = size.toNat := by
  simp only [List.mem_cons, List.mem_singleton, List.not_mem_nil, or_false] at hs
  rcases hk with rfl | rfl <;> rcases hs with rfl | rfl | rfl | rfl | rfl <;> rfl

section

variable {size : Int} {e : Typ} {tu : Option (List TupleElem)} {raw : String} {rt : RType}

/-- What a type read from one word reads is read back from its encoding, and, at a
    native width, is in the domain of the encoder. -/
theorem decode_leaf {kind : Kind}
    (hk : kind = .bool ∨ kind = .int ∨ kind = .uInt ∨ kind = .address ∨ kind = .fixedBytes ∨
      kind = .function) {b : Bytes} {v : Value} {r : Bytes}
    (h : decode (.mk kind size e tu raw rt) b = .ok (v, r)) :
    (∀ c, decode (.mk kind size e tu raw rt) (enc (.mk kind size e tu raw rt) v ++ c) = .ok (v, c)) ∧
      ((Typ.mk kind size e tu raw rt).wellFormedNode → (Typ.mk kind size e tu raw rt).nativeWidth →
        inDomain (.mk kind size e tu raw rt) v) := by
  have hleaf : kind ≠ .slice ∧ kind ≠ .array ∧ kind ≠ .tuple := by
    rcases hk with rfl | rfl | rfl | rfl | rfl | rfl <;> simp
  rw [inDomain_leaf hleaf]
  -- each of them reads the first word of its input
  rcases hk with rfl | rfl | rfl | rfl | rfl | rfl <;>
    simp only [decode_bool, decode_int, decode_uInt, decode_address, decode_fixedBytes,
      decode_function] at h <;>
    obtain ⟨hl, h, -⟩ := decodeWord_eq_ok.1 h <;>
    have hw : (b.take 32).length = 32 := List.length_take_of_le hl <;>
    generalize b.take 32 = w at hw h
  case inl =>
    obtain ⟨x, -, rfl⟩ := map_eq_ok.1 h
    exact ⟨decode_enc_bool x, fun _ _ => rfl⟩
  case inr.inl | inr.inr.inl =>
    obtain ⟨i, hi, rfl⟩ := map_eq_ok.1 h
    have hrt : rt ≠ .nil := by rintro rfl; cases hi
    refine ⟨decode_enc_int (by simp) hrt (readInteger_range hw hi), fun hnode hnat => ?_⟩
    simp only [Typ.wellFormedNode, Bool.and_eq_true, beq_iff_eq] at hnode
    have hrange := readInteger_range hw hi
    rw [hnode.2, (intRType_native (by simp)).1, intRType_bits_native (by simp) (of_decide_eq_true hnat)]
      at hrange
    exact decide_eq_true hrange
  case inr.inr.inr.inl =>
    obtain ⟨a, ha, rfl⟩ := map_eq_ok.1 h
    obtain ⟨-, rfl⟩ := readAddr_eq_ok ha
    have hlen : (w.drop 12).length = 20 := by simp [hw]
    exact ⟨decode_enc_address hlen, fun _ _ => decide_eq_true hlen⟩
  case inr.inr.inr.inr.inl =>
    obtain ⟨x, hx, rfl⟩ := map_eq_ok.1 h
    obtain ⟨⟨-, h₁, h₂⟩, rfl⟩ := slice_eq_ok.1 hx
    have hsize : ((w.take size.toNat).drop (0 : Int).toNat).length = size := by
      rw [Int.toNat_zero, List.drop_zero, List.length_take, hw]
      omega
    generalize (w.take size.toNat).drop (0 : Int).toNat = x at hsize ⊢
    subst hsize
    exact ⟨decode_enc_fixedBytes (by omega), fun _ _ => decide_eq_true rfl⟩
  case inr.inr.inr.inr.inr =>
    obtain ⟨f, hf, rfl⟩ := map_eq_ok.1 h
    have hlen := readFunctionType_eq_ok hw hf
    exact ⟨decode_enc_function hlen, fun _ _ => decide_eq_true hlen⟩

end

/-! ## Re-encoding a static value -/

/-- The loop over static elements reads back the encodings of the values it read, one
    after the other. -/
theorem decodeArrayLoop_reencode {dec : Bytes → Result (Value × Bytes)} {m : Nat}
    {encE : Value → Bytes} (hc : Consumes dec m) (hre : Reencodes dec encE) {orig : Bytes} :
    ∀ n res data v r, decodeArrayLoop dec false orig n res data = .ok (v, r) →
      ∃ vs : List Value, v = .array (res ++ vs) ∧ ∀ orig' c, r.length ≤ c.length →
        decodeArrayLoop dec false orig' n res ((vs.map encE).flatten ++ c) = .ok (v, c)
  | 0, res, data, v, r, h => by
    cases h
    exact ⟨[], by simp, fun _ _ _ => rfl⟩
  | n + 1, res, data, v, r, h => by
    obtain ⟨entry, val, tail, data', he, hv, ha, hl⟩ := decodeArrayLoop_succ_eq_ok.1 h
    cases he
    cases ha
    obtain ⟨vs, rfl, hrest⟩ := decodeArrayLoop_reencode hc hre n _ _ _ _ hl
    refine ⟨val :: vs, by simp, fun orig' c hrc => ?_⟩
    have hnext := hrest orig' c hrc
    -- the element read before the rest reads as many bytes in both inputs
    have htail : tail.length ≤ ((vs.map encE).flatten ++ c).length := by
      obtain ⟨hle, hr⟩ := decodeArrayLoop_consumes hc orig n _ hl
      have hlen := length_of_consumes (decodeArrayLoop_consumes hc orig' n _) hnext
      rw [hr, List.length_drop] at hrc
      simp only [List.length_append, hlen]
      omega
    rw [List.map_cons, List.flatten_cons, List.append_assoc (encE val)]
    exact decodeArrayLoop_succ_eq_ok.2 ⟨_, _, _, _, rfl, hre hv _ htail, rfl, hnext⟩

mutual
/-- A static type reads back the encoding of each value it reads. -/
theorem decode_reencode : ∀ t : Typ, t.isDynamicType = false → Reencodes (decode t) (enc t)
  | .nil, _ => fun _ _ _ h => by cases h
  | .mk kind size elem tuple raw rt, hs => by
    intro b v r h c hrc
    cases kind
    case string | bytes | slice => cases hs
    case tuple =>
      cases tuple with
      | none =>
        cases h
        rfl
      | some elems =>
        rw [decode_tuple_some] at h
        obtain ⟨entries, rfl, hre⟩ := decodeTuple_reencode elems hs h
        rw [List.nil_append, enc_tuple, headTail_static (encElems_static entries hs), decode_tuple_some]
        exact hre _ c hrc
    case array =>
      have hs' : elem.isDynamicType = false := hs
      rw [decode_array, hs', decodeArraySlice] at h
      split_ifs at h with h₁ h₂
      · exact absurd h (fail_ne_ok _ _)
      · exact absurd h (fail_ne_ok _ _)
      obtain ⟨vs, rfl, hre⟩ :=
        decodeArrayLoop_reencode (decode_consumes elem hs') (decode_reencode elem hs') _ [] b v r h
      rw [List.nil_append] at hre ⊢
      rw [enc_array, hs', headTail_static (by simp), List.map_map]
      show decode (.mk .array size elem tuple raw rt) ((vs.map (enc elem)).flatten ++ c) = .ok (.array vs, c)
      have hloop := hre ((vs.map (enc elem)).flatten ++ c) c hrc
      -- the size check passes: the encoding is as long as the head the loop read
      have hsize : ¬ int64Wrap (32 * size) > ((vs.map (enc elem)).flatten ++ c).length := by
        have hlen := length_of_consumes (decodeArrayLoop_consumes (decode_consumes elem hs') _ _ _) hloop
        obtain ⟨-, hr⟩ := decodeArrayLoop_consumes (decode_consumes elem hs') b _ [] h
        rw [hr, List.length_drop] at hrc
        rw [List.length_append, hlen]
        omega
      rw [decode_array, hs', decodeArraySlice, if_neg h₁, if_neg hsize]
      exact hloop
    all_goals exact (decode_leaf (by simp) h).1 c

/-- The loop of `decodeTuple` over static elements reads back the encodings of the values
    it read, one after the other. -/
theorem decodeTuple_reencode : ∀ elems : List TupleElem, Typ.anyDynamic elems = false →
    ∀ {orig : Bytes} {indx : Nat} {res : List (String × Value)} {data : Bytes} {v : Value} {r : Bytes},
      decodeTuple orig elems indx res data = .ok (v, r) →
      ∃ entries, v = .tuple (res ++ entries) ∧ ∀ orig' c, r.length ≤ c.length →
        decodeTuple orig' elems indx res (((encElems elems entries).map Prod.snd).flatten ++ c) = .ok (v, c)
  | [], _, _, _, _, _, _, _, h => by
    cases h
    exact ⟨[], by simp, fun _ _ _ => rfl⟩
  | .mk name e i :: args, hs, orig, indx, res, data, v, r, h => by
    simp only [Typ.anyDynamic, Bool.or_eq_false_iff] at hs
    obtain ⟨entry, val, tail, data', he, hv, ha, hany, hl⟩ := decodeTuple_cons_eq_ok.1 h
    rw [hs.1] at he ha
    cases he
    cases ha
    obtain ⟨entries, rfl, hrest⟩ := decodeTuple_reencode args hs.2 hl
    refine ⟨(entryName name indx, val) :: entries, by simp, fun orig' c hrc => ?_⟩
    have hnext := hrest orig' c hrc
    -- the element read before the rest reads as many bytes in both inputs
    have htail : tail.length ≤ (((encElems args entries).map Prod.snd).flatten ++ c).length := by
      obtain ⟨hle, hr⟩ := decodeTuple_consumes args hs.2 orig _ _ hl
      have hlen := length_of_consumes (decodeTuple_consumes args hs.2 orig' _ _) hnext
      rw [hr, List.length_drop] at hrc
      simp only [List.length_append, hlen]
      omega
    simp only [encElems, List.map_cons, List.flatten_cons]
    rw [List.append_assoc (enc e val)]
    exact decodeTuple_cons_eq_ok.2 ⟨_, _, _, _, by rw [hs.1]; rfl, decode_reencode e hs.1 hv _ htail,
      by rw [hs.1]; rfl, hany, hnext⟩
end

/-! ## The domain of the encoder -/

/-- The loop of `decodeArraySlice` reads `n` values, each one a value its element decoder
    reads. -/
theorem decodeArrayLoop_values {dec : Bytes → Result (Value × Bytes)} {d : Bool} {orig : Bytes} :
    ∀ n res data v r, decodeArrayLoop dec d orig n res data = .ok (v, r) →
      ∃ vs, v = .array (res ++ vs) ∧ vs.length = n ∧ ∀ x ∈ vs, ∃ b r, dec b = .ok (x, r)
  | 0, res, data, v, r, h => by
    cases h
    exact ⟨[], by simp, rfl, by simp⟩
  | n + 1, res, data, v, r, h => by
    obtain ⟨entry, val, tail, data', -, hv, -, hl⟩ := decodeArrayLoop_succ_eq_ok.1 h
    obtain ⟨vs, rfl, hlen, hvs⟩ := decodeArrayLoop_values n _ _ _ _ hl
    refine ⟨val :: vs, by simp, by simp [hlen], ?_⟩
    simp only [List.mem_cons, forall_eq_or_imp]
    exact ⟨⟨_, _, hv⟩, hvs⟩

theorem decodeArraySlice_values {dec : Bytes → Result (Value × Bytes)} {d : Bool} {data : Bytes}
    {size : Int} {v : Value} {r : Bytes} (h : decodeArraySlice dec d data size = .ok (v, r)) :
    0 ≤ size ∧ ∃ vs, v = .array vs ∧ vs.length = size.toNat ∧ ∀ x ∈ vs, ∃ b r, dec b = .ok (x, r) := by
  unfold decodeArraySlice at h
  split_ifs at h with h₁
  · exact absurd h (fail_ne_ok _ _)
  · exact absurd h (fail_ne_ok _ _)
  obtain ⟨vs, rfl, hvs⟩ := decodeArrayLoop_values _ [] data v r h
  exact ⟨by omega, vs, by simp, hvs⟩

theorem decodePayload_value {mk : Bytes → Value} {input : Bytes} {length : Int} {v : Value} {r : Bytes}
    (h : decodePayload mk input length = .ok (v, r)) : ∃ s, v = mk s := by
  obtain ⟨s, -, h⟩ := bind_eq_ok.1 h
  obtain ⟨r', -, h⟩ := bind_eq_ok.1 h
  cases h
  exact ⟨s, rfl⟩

mutual
/-- For a well-formed type whose integers are of native widths, what `decode` reads is in
    the domain of the encoder. -/
theorem decode_inDomain : ∀ t : Typ, t.WellFormed → t.all Typ.nativeWidth →
    ∀ ⦃b : Bytes⦄ ⦃v : Value⦄ ⦃r : Bytes⦄, decode t b = .ok (v, r) → inDomain t v
  | .nil, _, _, _, _, _, h => by cases h
  | .mk kind size elem tuple raw rt, hwf, hn, b, v, r, h => by
    rw [Typ.WellFormed, Typ.all_mk] at hwf
    rw [Typ.all_mk] at hn
    simp only [Bool.and_eq_true] at hwf hn
    obtain ⟨⟨hnode, helem⟩, htuple⟩ := hwf
    obtain ⟨⟨hnat, helemn⟩, htuplen⟩ := hn
    cases kind
    case string | bytes =>
      obtain ⟨length, -, h⟩ := bind_eq_ok.1 h
      obtain ⟨s, rfl⟩ := decodePayload_value h
      rw [inDomain_leaf (by simp)]
      rfl
    case slice =>
      rw [decode_slice] at h
      obtain ⟨length, -, h⟩ := bind_eq_ok.1 h
      obtain ⟨data, -, h⟩ := bind_eq_ok.1 h
      obtain ⟨-, vs, rfl, -, hvs⟩ := decodeArraySlice_values h
      rw [inDomain_slice, List.all_eq_true]
      intro x hx
      obtain ⟨_, _, hx⟩ := hvs x hx
      exact decode_inDomain elem helem helemn hx
    case array =>
      rw [decode_array] at h
      obtain ⟨hsize, vs, rfl, hlen, hvs⟩ := decodeArraySlice_values h
      rw [inDomain_array, Bool.and_eq_true, List.all_eq_true]
      refine ⟨by simp [hlen]; omega, fun x hx => ?_⟩
      obtain ⟨_, _, hx⟩ := hvs x hx
      exact decode_inDomain elem helem helemn hx
    case tuple =>
      cases tuple with
      | none =>
        cases h
        rfl
      | some elems =>
        rw [decode_tuple_some] at h
        obtain ⟨entries, rfl, hdom⟩ := decodeTuple_inDomain elems htuple htuplen h
        rwa [List.nil_append, inDomain_tuple]
    all_goals exact (decode_leaf (by simp) h).2 hnode hnat

/-- The loop of `decodeTuple` puts each value under the name `inDomainElems` asks for. -/
theorem decodeTuple_inDomain : ∀ elems : List TupleElem, Typ.allOf Typ.wellFormedNode elems →
    Typ.allOf Typ.nativeWidth elems →
    ∀ {orig : Bytes} {indx : Nat} {res : List (String × Value)} {data : Bytes} {v : Value} {r : Bytes},
      decodeTuple orig elems indx res data = .ok (v, r) →
      ∃ entries, v = .tuple (res ++ entries) ∧ inDomainElems elems indx entries
  | [], _, _, _, _, _, _, _, _, h => by
    cases h
    exact ⟨[], by simp, rfl⟩
  | .mk name e i :: args, hwf, hn, orig, indx, res, data, v, r, h => by
    simp only [Typ.allOf, Bool.and_eq_true] at hwf hn
    obtain ⟨entry, val, tail, data', -, hv, -, -, hl⟩ := decodeTuple_cons_eq_ok.1 h
    obtain ⟨entries, rfl, hdom⟩ := decodeTuple_inDomain args hwf.2 hn.2 hl
    exact ⟨(entryName name indx, val) :: entries, by simp,
      by simp [inDomainElems_cons, decode_inDomain e hwf.1 hn.1 hv, hdom]⟩
end

/-- For a well-formed type whose integers are of native widths, every value `Decode`
    returns, of a static or a dynamic type, is in the domain of the encoder. -/
theorem decode_value_inDomain (t : Typ) (hwf : t.WellFormed) (hn : t.all Typ.nativeWidth) (b : Bytes)
    (v : Value) (h : Decode t b = .ok v) : inDomain t v := by
  rw [Decode] at h
  obtain ⟨⟨v', r⟩, hd, rfl⟩ := map_eq_ok.1 h
  exact decode_inDomain t hwf hn hd

theorem decode_value_inDomain_stringTuple :
    stringTuple.WellFormed ∧ stringTuple.all Typ.nativeWidth ∧
      Decode stringTuple (word 32 ++ word 1 ++ [0x61] ++ zeros 31) = .ok (.tuple [("0", .string [0x61])]) ∧
      inDomain stringTuple (.tuple [("0", .string [0x61])]) :=
  ⟨by decide, rfl, by rfl, decode_value_inDomain stringTuple (by decide) rfl (word 32 ++ word 1 ++ [0x61] ++ zeros 31) _ (by rfl)⟩

/-! ## Heads of exactly their size -/

/-- On an input of exactly its head size, a well-formed static type reads a value whose
    encoding is as long as the input and is read back as that value; at native widths the
    value is in the domain of the encoder. -/
theorem decode_canonical (t : Typ) (hwf : t.WellFormed) (hs : t.isDynamicType = false) (b : Bytes)
    (hb : b.length = 32 * t.words) (v : Value) (h : Decode t b = .ok v) :
    (t.all Typ.nativeWidth → inDomain t v) ∧ decode t (enc t v) = .ok (v, []) ∧
      (enc t v).length = b.length := by
  rw [Decode] at h
  obtain ⟨⟨v', r⟩, hd, rfl⟩ := map_eq_ok.1 h
  obtain rfl : r = [] := by rw [(decode_consumes t hs hd).2, List.drop_eq_nil_of_le (by omega)]
  have hre := decode_reencode t hs hd [] le_rfl
  rw [List.append_nil] at hre
  refine ⟨fun hn => decode_inDomain t hwf hn hd, hre, ?_⟩
  rw [hb]
  exact length_of_consumes (decode_consumes t hs) (by rwa [List.append_nil])

theorem decode_canonical_boolBytePair :
    boolBytePair.WellFormed ∧ boolBytePair.isDynamicType = false ∧
      (word 1 ++ word 7 ++ word 9).length = 32 * boolBytePair.words ∧
      Decode boolBytePair (word 1 ++ word 7 ++ word 9) =
        .ok (.tuple [("flag", .bool true), ("1", .array [.int 7, .int 9])]) ∧
      ((boolBytePair.all Typ.nativeWidth →
          inDomain boolBytePair (.tuple [("flag", .bool true), ("1", .array [.int 7, .int 9])])) ∧
        decode boolBytePair (enc boolBytePair (.tuple [("flag", .bool true), ("1", .array [.int 7, .int 9])])) =
          .ok (.tuple [("flag", .bool true), ("1", .array [.int 7, .int 9])], []) ∧
        (enc boolBytePair (.tuple [("flag", .bool true), ("1", .array [.int 7, .int 9])])).length =
          (word 1 ++ word 7 ++ word 9).length) :=
  ⟨by decide, rfl, rfl, rfl, decode_canonical boolBytePair (by decide) rfl (word 1 ++ word 7 ++ word 9) rfl _ rfl⟩

/-- The type `uint24`, well formed, which `readInteger` reads as a `*big.Int`. -/
def uint24Type : Typ := .mk .uInt 24 .nil none "uint24" .other

/-- A `bool` word with a byte set before its last is read as `true`, as the word `1` is,
    and is not the encoding of `true`; a `uint24` word is read whole, out of the range of
    the type. -/
theorem decode_nonCanonical :
    boolType.WellFormed ∧ Decode boolType (word 257) = .ok (.bool true) ∧
      Decode boolType (word 1) = .ok (.bool true) ∧ enc boolType (.bool true) ≠ word 257 ∧
    uint24Type.WellFormed ∧ Decode uint24Type (word (2 ^ 24)) = .ok (.int (2 ^ 24)) ∧
      inDomain uint24Type (.int (2 ^ 24)) = false :=
  ⟨by decide, rfl, rfl, by decide, by decide, rfl, by decide⟩

end Abi
