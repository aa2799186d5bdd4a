import Abi.Encode
import Abi.Decode.Panic
import Abi.Decode.ArrayTuple
import Abi.Decode.Keys

/-!
# The round trip

`decode` reads back what `enc` writes, under three conditions beyond the domain of the
encoder (`decode_enc_roundTrip`):

* the effective names of the elements of every tuple, an empty name replaced by its index,
  are distinct (`Typ.namesDistinct`), or `decodeTuple` reports "tuple with repeated
  values";
* every element of an array or a slice puts at least a word in the head
  (`Typ.elemHasHead`), or `decodeArraySlice` rejects the size: it checks `32*size` bytes
  for a region that may hold none;
* no string or bytes value is empty (`Value.payloadsNonEmpty`): `readSlice(input, 32, 0)`
  reads a length of zero as "to the end", so an empty payload reads every byte after its
  length word.

The last two are not the spec's; both fail on values of its domain
(`decode_enc_emptyPayload`). The encoding is also taken shorter than 2^63 bytes, the bound
`readLength` and `readOffset` check.

The proof follows the layout: `entryAt_offset` reads the tail a head points to, and the
loops `decodeArrayLoop_enc` and `decodeTuple_enc` read the heads of a region one after the
other, generalized over the bytes `pre` before the tails not yet read.
-/

namespace Abi

/-! ## Conditions -/

/-- A tuple node whose elements have distinct effective names. -/
def Typ.namesDistinct : Typ → Bool
  | .mk .tuple _ _ (some elems) _ _ => decide (effectiveNames 0 elems).Nodup
  | _ => true

/-- An array or slice node each element of which puts at least a word in the head: its
    offset, for a dynamic element type, or else its encoding. -/
def Typ.elemHasHead : Typ → Bool
  | .mk .array _ e _ _ _ | .mk .slice _ e _ _ _ => e.isDynamicType || 0 < e.words
  | _ => true

/-- The conditions of the round trip at one node. -/
def Typ.roundTripNode (t : Typ) : Bool := t.wellFormedNode && t.namesDistinct && t.elemHasHead

mutual
/-- No string or bytes value in `v` is empty. -/
def Value.payloadsNonEmpty : Value → Bool
  | .string s | .bytes s => !s.isEmpty
  | .array vs => payloadsNonEmptyList vs
  | .tuple entries => payloadsNonEmptyEntries entries
  | _ => true

/-- No string or bytes value in the elements of an array is empty. -/
def payloadsNonEmptyList : List Value → Bool
  | [] => true
  | v :: vs => v.payloadsNonEmpty && payloadsNonEmptyList vs

/-- No string or bytes value in the entries of a tuple is empty. -/
def payloadsNonEmptyEntries : List (String × Value) → Bool
  | [] => true
  | (_, v) :: entries => v.payloadsNonEmpty && payloadsNonEmptyEntries entries
end

theorem payloadsNonEmptyList_eq_all : ∀ vs : List Value,
    payloadsNonEmptyList vs = vs.all Value.payloadsNonEmpty
  | [] => rfl
  | v :: vs => congrArg (v.payloadsNonEmpty && ·) (payloadsNonEmptyList_eq_all vs)

theorem payloadsNonEmpty_string (s : Bytes) : (Value.string s).payloadsNonEmpty = !s.isEmpty := rfl

theorem payloadsNonEmpty_bytes (s : Bytes) : (Value.bytes s).payloadsNonEmpty = !s.isEmpty := rfl

theorem payloadsNonEmpty_array (vs : List Value) :
    (Value.array vs).payloadsNonEmpty = vs.all Value.payloadsNonEmpty :=
  payloadsNonEmptyList_eq_all vs

theorem payloadsNonEmptyEntries_cons (key : String) (v : Value) (entries : List (String × Value)) :
    payloadsNonEmptyEntries ((key, v) :: entries) = (v.payloadsNonEmpty && payloadsNonEmptyEntries entries) :=
  rfl

/-! ## Heads and tails -/

/-- The bytes of every part are in the region, in the heads or in the tails. -/
theorem length_part_le : ∀ {ps : List (Bool × Bytes)} {p : Bool × Bytes}, p ∈ ps →
    p.2.length ≤ headLen ps + (tails ps).length
  | (d, b) :: ps, p, h => by
    rcases List.mem_cons.1 h with rfl | h
    · cases d <;> simp [headLen, tails] <;> omega
    · have := length_part_le h
      simp only [headLen, tails, List.length_append]
      omega

/-- Parts each with at least a word of head make a head of at least a word each. -/
theorem headLen_ge : ∀ {ps : List (Bool × Bytes)}, (∀ p ∈ ps, p.1 = true ∨ 32 ≤ p.2.length) →
    32 * ps.length ≤ headLen ps
  | [], _ => le_rfl
  | (d, b) :: ps, h => by
    have hp := h (d, b) (List.mem_cons_self _ _)
    have ih := headLen_ge fun p hp => h p (List.mem_cons_of_mem _ hp)
    simp only [headLen, List.length_cons]
    cases d <;> simp at hp ⊢ <;> omega

theorem length_headTail (ps : List (Bool × Bytes)) :
    (headTail ps).length = headLen ps + (tails ps).length := by
  simp [headTail]

/-! ## One element -/

/-- A head at the cursor that holds the length of `pre` points to the bytes after `pre`. -/
theorem entryAt_offset {pre after x : Bytes} (h : (pre ++ after).length < 2 ^ 63) :
    entryAt true (pre ++ after) (word pre.length ++ x) = .ok after := by
  have hpre : pre.length < 2 ^ 63 := by simp at h; omega
  rw [entryAt_true_eq_ok, List.take_left' (length_word _), beNat_word,
    Nat.mod_eq_of_lt (by omega)]
  exact ⟨by simp, hpre, by simp, by simp⟩

theorem advance_offset (off : Nat) (x tail : Bytes) : advance true (word off ++ x) tail = .ok x := by
  rw [advance_true _ (by simp), List.drop_left' (length_word _)]

/-! ## The loop of an array -/

section

variable {dec : Bytes → Result (Value × Bytes)} {d : Bool} {encE : Value → Bytes} {P : Value → Prop}

/-- The loop over the elements `vs`, with the heads of their region at the cursor and their
    tails after `pre`, reads `vs`, and leaves the bytes after the heads. -/
theorem decodeArrayLoop_enc
    (hdec : ∀ v, P v → ∀ c, (encE v ++ c).length < 2 ^ 63 →
      ∃ r, dec (encE v ++ c) = .ok (v, r) ∧ (d = false → r = c)) :
    ∀ (vs : List Value), (∀ v ∈ vs, P v) → ∀ (res : List Value) (pre rest c : Bytes),
      (pre ++ (tails (vs.map fun v => (d, encE v)) ++ c)).length < 2 ^ 63 →
      (heads pre.length (vs.map fun v => (d, encE v)) ++ rest).length < 2 ^ 63 →
      decodeArrayLoop dec d (pre ++ (tails (vs.map fun v => (d, encE v)) ++ c)) vs.length res
        (heads pre.length (vs.map fun v => (d, encE v)) ++ rest) = .ok (.array (res ++ vs), rest)
  | [], _, res, pre, rest, c, _, _ => by simp [heads, decodeArrayLoop]
  | v :: vs, hP, res, pre, rest, c, horig, hdata => by
    have hv := hP v (List.mem_cons_self _ _)
    have ih := decodeArrayLoop_enc hdec vs (fun w hw => hP w (List.mem_cons_of_mem _ hw)) (res ++ [v])
    cases d with
    | true =>
      -- the head is the offset of the encoding, the first of the tails after `pre`
      simp only [List.map_cons, heads, tails, if_true, List.append_assoc] at horig hdata ⊢
      obtain ⟨r, hr, -⟩ := hdec v hv (tails (vs.map fun v => (true, encE v)) ++ c)
        (by simp at horig ⊢; omega)
      have ih := ih (pre ++ encE v) rest c (by simpa using horig) (by simp at hdata ⊢; omega)
      simp only [List.append_assoc, List.length_append, List.singleton_append] at ih
      exact decodeArrayLoop_succ_eq_ok.2 ⟨_, v, r, _, entryAt_offset horig, hr,
        advance_offset _ _ _, ih⟩
    | false =>
      -- the encoding is the head, and the rest of the heads follows it
      simp only [List.map_cons, heads, tails, Bool.false_eq_true, if_false, List.nil_append,
        List.append_assoc] at horig hdata ⊢
      obtain ⟨r, hr, hrc⟩ := hdec v hv (heads pre.length (vs.map fun v => (false, encE v)) ++ rest)
        (by simpa using hdata)
      obtain rfl := hrc rfl
      have ih := ih pre rest c horig (by simp at hdata ⊢; omega)
      simp only [List.append_assoc, List.singleton_append] at ih
      exact decodeArrayLoop_succ_eq_ok.2 ⟨_, v, _, _, rfl, hr, rfl, ih⟩

/-- The region of the elements `vs` of an array or a slice reads back `vs`, once each
    element puts at least a word in the head, and leaves the bytes after the heads. -/
theorem decodeArraySlice_enc
    (hdec : ∀ v, P v → ∀ c, (encE v ++ c).length < 2 ^ 63 →
      ∃ r, dec (encE v ++ c) = .ok (v, r) ∧ (d = false → r = c))
    (vs : List Value) (hP : ∀ v ∈ vs, P v) (hhead : ∀ v ∈ vs, d = true ∨ 32 ≤ (encE v).length)
    (c : Bytes) (hlen : (headTail (vs.map fun v => (d, encE v)) ++ c).length < 2 ^ 63) :
    decodeArraySlice dec d (headTail (vs.map fun v => (d, encE v)) ++ c) vs.length =
      .ok (.array vs, tails (vs.map fun v => (d, encE v)) ++ c) := by
  have hH : 32 * vs.length ≤ headLen (vs.map fun v => (d, encE v)) := by
    simpa using @headLen_ge (vs.map fun v => (d, encE v)) (by simpa using hhead)
  simp only [List.length_append, length_headTail] at hlen
  have hloop := decodeArrayLoop_enc hdec vs hP [] (heads (headLen (vs.map fun v => (d, encE v)))
    (vs.map fun v => (d, encE v))) (tails (vs.map fun v => (d, encE v)) ++ c) c
    (by simp; omega) (by simp; omega)
  rw [length_heads, List.nil_append, ← List.append_assoc] at hloop
  rw [decodeArraySlice, if_neg (by omega), if_neg (by
    rw [int64Wrap_of_lt (by omega) (by omega), List.length_append, length_headTail]; omega),
    Int.toNat_natCast]
  exact hloop

/-- A slice region, its length word and then the region of its elements `vs`, reads back
    `vs` as the body of the slice branch of `decode` does, and leaves the tails. -/
theorem decodeSlice_enc
    (hdec : ∀ v, P v → ∀ c, (encE v ++ c).length < 2 ^ 63 →
      ∃ r, dec (encE v ++ c) = .ok (v, r) ∧ (d = false → r = c))
    (vs : List Value) (hP : ∀ v ∈ vs, P v) (hhead : ∀ v ∈ vs, d = true ∨ 32 ≤ (encE v).length)
    (c : Bytes) (hlen : (word vs.length ++ (headTail (vs.map fun v => (d, encE v)) ++ c)).length < 2 ^ 63) :
    (readLength (word vs.length ++ (headTail (vs.map fun v => (d, encE v)) ++ c)) >>= fun length =>
      readSlice (word vs.length ++ (headTail (vs.map fun v => (d, encE v)) ++ c)) 32 0 >>= fun rest =>
        decodeArraySlice dec d rest length) = .ok (.array vs, tails (vs.map fun v => (d, encE v)) ++ c) := by
  -- the length word holds the number of elements, each of at least a word of head
  have hH := @headLen_ge (vs.map fun v => (d, encE v)) fun p hp => by
    obtain ⟨v, hv, rfl⟩ := List.mem_map.1 hp; exact hhead v hv
  rw [List.length_map] at hH
  have hT := length_headTail (vs.map fun v => (d, encE v))
  simp only [List.length_append, length_word] at hlen
  have hread : readLength (word vs.length ++ (headTail (vs.map fun v => (d, encE v)) ++ c)) =
      .ok vs.length := by
    rw [readLength_eq_ok, List.take_left' (length_word _), beNat_word, Nat.mod_eq_of_lt (by omega)]
    exact ⟨by simp, by omega, by simp only [List.length_append, length_word]; omega, rfl⟩
  rw [hread, bind_ok, readSlice_rest.2 ⟨by simp, (List.drop_left' (length_word _)).symm⟩, bind_ok]
  exact decodeArraySlice_enc hdec vs hP hhead c (by simp only [List.length_append]; omega)

end

/-! ## Values -/

section

variable {size : Int} {e : Typ} {tu : Option (List TupleElem)} {raw : String} {rt : RType}

/-- A well-formed integer node reads back the encoding of every integer of its declared
    range. -/
theorem decode_enc_integer {kind : Kind} (hk : kind = .int ∨ kind = .uInt)
    (hwf : (Typ.mk kind size e tu raw rt).wellFormedNode) {i : Int}
    (hi : IntRange (kind = .int) size.toNat i) (c : Bytes) :
    decode (.mk kind size e tu raw rt) (enc (.mk kind size e tu raw rt) (.int i) ++ c) = .ok (.int i, c) := by
  have hnode : ((8 ≤ size ∧ size ≤ 256) ∧ size % 8 = 0) ∧ rt = Typ.intRType kind size := by
    rcases hk with rfl | rfl <;> simpa [Typ.wellFormedNode] using hwf
  have hi' := intRange_native hk hnode.1.1.1 hnode.1.1.2 hi
  rw [← hnode.2] at hi'
  exact decode_enc_int hk (hnode.2 ▸ intRType_ne_nil _ _) hi' c

/-- A type read from one word reads back the encoding of every value of its domain. -/
theorem decode_enc_word {kind : Kind}
    (hk : kind = .bool ∨ kind = .int ∨ kind = .uInt ∨ kind = .address ∨ kind = .fixedBytes ∨
      kind = .function)
    (hwf : (Typ.mk kind size e tu raw rt).wellFormedNode) {v : Value}
    (hv : inDomain (.mk kind size e tu raw rt) v) (c : Bytes) :
    decode (.mk kind size e tu raw rt) (enc (.mk kind size e tu raw rt) v ++ c) = .ok (v, c) := by
  rw [inDomain_leaf (by rcases hk with rfl | rfl | rfl | rfl | rfl | rfl <;> simp)] at hv
  -- a value of another shape is not in the domain
  rcases hk with rfl | rfl | rfl | rfl | rfl | rfl <;> cases v <;> try cases hv
  · exact decode_enc_bool _ c
  · exact decode_enc_integer (.inl rfl) hwf (of_decide_eq_true hv) c
  · exact decode_enc_integer (.inr rfl) hwf (of_decide_eq_true hv) c
  · exact decode_enc_address (of_decide_eq_true hv) c
  · obtain rfl := of_decide_eq_true hv
    exact decode_enc_fixedBytes (by simp [Typ.wellFormedNode] at hwf; omega) c
  · exact decode_enc_function (of_decide_eq_true hv) c

end

/-- An element type that is dynamic, or static of at least a word, puts at least a word in
    the head for each value it reads back. -/
theorem head_of_elemHasHead {elem : Typ} {vs : List Value}
    (hh : (elem.isDynamicType || decide (0 < elem.words)) = true)
    (hdec : ∀ v ∈ vs, ∀ c, (enc elem v ++ c).length < 2 ^ 63 →
      ∃ r, decode elem (enc elem v ++ c) = .ok (v, r) ∧ (elem.isDynamicType = false → r = c))
    (hlen : (headTail (vs.map fun v => (elem.isDynamicType, enc elem v))).length < 2 ^ 63) :
    ∀ v ∈ vs, elem.isDynamicType = true ∨ 32 ≤ (enc elem v).length := by
  intro v hv
  rcases Bool.eq_false_or_eq_true elem.isDynamicType with hd | hd
  · exact .inl hd
  have hw : 0 < elem.words := by simpa [hd] using hh
  -- the encoding of a static element is its head, of `32 * elem.words` bytes
  have hpart := length_part_le (List.mem_map_of_mem (fun v => (elem.isDynamicType, enc elem v)) hv)
  rw [length_headTail] at hlen
  obtain ⟨r, hr, hrc⟩ := hdec v hv [] (by simp only [List.append_nil] at hpart ⊢; omega)
  rw [hrc hd] at hr
  have := length_of_consumes (decode_consumes elem hd) hr
  exact .inr (by omega)

/-! ## The round trip, by induction on the type -/

mutual
/-- `decode` reads back the encoding of every value of the domain, followed by any bytes:
    it leaves those bytes after a static type. -/
theorem decode_enc : ∀ t : Typ, t.all Typ.roundTripNode → ∀ v, inDomain t v → v.payloadsNonEmpty →
    ∀ c, (enc t v ++ c).length < 2 ^ 63 →
      ∃ r, decode t (enc t v ++ c) = .ok (v, r) ∧ (t.isDynamicType = false → r = c)
  | .nil, _, v, hv, _, _, _ => by cases v <;> cases hv
  | .mk kind size elem tuple raw rt, ht, v, hv, hne, c, hlen => by
    rw [Typ.all_mk] at ht
    simp only [Typ.roundTripNode, Bool.and_eq_true] at ht
    obtain ⟨⟨⟨⟨hwf, hnames⟩, hhead⟩, helem⟩, htuple⟩ := ht
    cases kind
    case string =>
      rw [inDomain_leaf (by simp)] at hv
      cases v <;> try cases hv
      rename_i s
      have hs : s ≠ [] := by simpa [payloadsNonEmpty_string] using hne
      rw [enc_leaf (by simp)] at hlen ⊢
      simp only [encLeaf, encPayload, List.length_append, length_word] at hlen
      exact ⟨_, decode_enc_string hs (by omega) c, nofun⟩
    case bytes =>
      rw [inDomain_leaf (by simp)] at hv
      cases v <;> try cases hv
      rename_i s
      have hs : s ≠ [] := by simpa [payloadsNonEmpty_bytes] using hne
      rw [enc_leaf (by simp)] at hlen ⊢
      simp only [encLeaf, encPayload, List.length_append, length_word] at hlen
      exact ⟨_, decode_enc_bytes hs (by omega) c, nofun⟩
    case tuple =>
      cases tuple with
      | none =>
        cases v <;> try cases hv
        case tuple entries =>
          obtain rfl : entries = [] := List.isEmpty_iff.1 hv
          exact ⟨c, rfl, fun _ => rfl⟩
      | some elems =>
        cases v <;> try cases hv
        case tuple entries =>
          rw [inDomain_tuple] at hv
          rw [enc_tuple] at hlen ⊢
          have hnd : (effectiveNames 0 elems).Nodup := by simpa [Typ.namesDistinct] using hnames
          simp only [List.length_append, length_headTail] at hlen
          have h := decodeTuple_enc elems entries 0 htuple hv hne hnd []
            (heads (headLen (encElems elems entries)) (encElems elems entries))
            (tails (encElems elems entries) ++ c) c (by simp) (by simp; omega) (by simp; omega)
          rw [length_heads, List.nil_append, ← List.append_assoc] at h
          refine ⟨_, by rw [decode_tuple_some]; exact h, fun hs => ?_⟩
          rw [tails_static (encElems_static entries hs), List.nil_append]
    case array =>
      cases v <;> try cases hv
      case array vs =>
        rw [inDomain_array, Bool.and_eq_true, decide_eq_true_eq, List.all_eq_true] at hv
        obtain ⟨hsize, hvs⟩ := hv
        subst hsize
        have hne' := List.all_eq_true.1 (payloadsNonEmpty_array vs ▸ hne)
        have hdec : ∀ v ∈ vs, _ := fun v hv c hc => decode_enc elem helem v (hvs v hv) (hne' v hv) c hc
        rw [enc_array] at hlen ⊢
        have h := decodeArraySlice_enc hdec vs (fun _ h => h)
          (head_of_elemHasHead hhead hdec (by simp only [List.length_append] at hlen; omega)) c hlen
        refine ⟨_, by rw [decode_array]; exact h, fun hs => ?_⟩
        rw [tails_static fun p hp => by obtain ⟨v, -, rfl⟩ := List.mem_map.1 hp; exact hs, List.nil_append]
    case slice =>
      cases v <;> try cases hv
      case array vs =>
        rw [inDomain_slice, List.all_eq_true] at hv
        have hne' := List.all_eq_true.1 (payloadsNonEmpty_array vs ▸ hne)
        have hdec : ∀ v ∈ vs, _ := fun v hmem c hc => decode_enc elem helem v (hv v hmem) (hne' v hmem) c hc
        rw [enc_slice, List.append_assoc] at hlen ⊢
        have hhead' := head_of_elemHasHead hhead hdec
          (by simp only [List.length_append, length_word] at hlen; omega)
        exact ⟨_, by rw [decode_slice]; exact decodeSlice_enc hdec vs (fun _ h => h) hhead' c hlen, nofun⟩
    all_goals exact ⟨c, decode_enc_word (by simp) hwf hv c, fun _ => rfl⟩

/-- The loop of `decodeTuple` over the elements from `indx` on, with the heads of their
    region at the cursor and their tails after `pre`, reads their entries after `res`. -/
theorem decodeTuple_enc : ∀ (elems : List TupleElem) (entries : List (String × Value)) (indx : Nat),
    Typ.allOf Typ.roundTripNode elems → inDomainElems elems indx entries →
    payloadsNonEmptyEntries entries → (effectiveNames indx elems).Nodup →
    ∀ (res : List (String × Value)) (pre rest c : Bytes), (∀ p ∈ res, p.1 ∉ effectiveNames indx elems) →
      (pre ++ (tails (encElems elems entries) ++ c)).length < 2 ^ 63 →
      (heads pre.length (encElems elems entries) ++ rest).length < 2 ^ 63 →
      decodeTuple (pre ++ (tails (encElems elems entries) ++ c)) elems indx res
        (heads pre.length (encElems elems entries) ++ rest) = .ok (.tuple (res ++ entries), rest)
  | [], [], _, _, _, _, _, res, pre, rest, c, _, _, _ => by simp [encElems, heads, decodeTuple]
  | [], _ :: _, _, _, hv, _, _, _, _, _, _, _, _, _ => by cases hv
  | .mk _ _ _ :: _, [], _, _, hv, _, _, _, _, _, _, _, _, _ => by cases hv
  | .mk name e i :: elems, (key, v) :: entries, indx, ht, hv, hne, hnd, res, pre, rest, c, hfresh, horig,
      hdata => by
    simp only [Typ.allOf, Bool.and_eq_true] at ht
    simp only [inDomainElems_cons, Bool.and_eq_true, decide_eq_true_eq] at hv
    obtain ⟨⟨rfl, hve⟩, hvs⟩ := hv
    simp only [payloadsNonEmptyEntries_cons, Bool.and_eq_true] at hne
    simp only [effectiveNames, List.nodup_cons] at hnd hfresh
    -- the name of this element is fresh, and stays out of the names still to come
    have hany : res.any (·.1 = entryName name indx) = false :=
      List.any_eq_false.2 fun p hp heq => hfresh p hp (List.mem_cons.2 (.inl (by simpa using heq)))
    have hfresh' : ∀ p ∈ res ++ [(entryName name indx, v)], p.1 ∉ effectiveNames (indx + 1) elems := by
      intro p hp
      rcases List.mem_append.1 hp with hp | hp
      · exact fun h => hfresh p hp (List.mem_cons_of_mem _ h)
      · obtain rfl := List.mem_singleton.1 hp
        exact hnd.1
    have ih := decodeTuple_enc elems entries (indx + 1) ht.2 hvs hne.2 hnd.2 (res ++ [(entryName name indx, v)])
    simp only [encElems] at horig hdata ⊢
    cases hd : e.isDynamicType with
    | true =>
      -- the head is the offset of the encoding, the first of the tails after `pre`
      simp only [heads, tails, hd, if_true, List.append_assoc] at horig hdata ⊢
      obtain ⟨r, hr, -⟩ := decode_enc e ht.1 v hve hne.1 (tails (encElems elems entries) ++ c)
        (by simp at horig ⊢; omega)
      have ih := ih (pre ++ enc e v) rest c hfresh' (by simpa using horig) (by simp at hdata ⊢; omega)
      simp only [List.append_assoc, List.length_append, List.singleton_append] at ih
      exact decodeTuple_cons_eq_ok.2 ⟨_, v, r, _, by rw [hd]; exact entryAt_offset horig, hr,
        by rw [hd]; exact advance_offset _ _ _, hany, ih⟩
    | false =>
      -- the encoding is the head, and the rest of the heads follows it
      simp only [heads, tails, hd, Bool.false_eq_true, if_false, List.nil_append, List.append_assoc]
        at horig hdata ⊢
      obtain ⟨r, hr, hrc⟩ := decode_enc e ht.1 v hve hne.1
        (heads pre.length (encElems elems entries) ++ rest) (by simpa using hdata)
      obtain rfl := hrc hd
      have ih := ih pre rest c hfresh' horig (by simp at hdata ⊢; omega)
      simp only [List.append_assoc, List.singleton_append] at ih
      exact decodeTuple_cons_eq_ok.2 ⟨_, v, _, _, by rw [hd]; rfl, hr, by rw [hd]; rfl, hany, ih⟩
end

/-! ## The round trip -/

/-- `Decode` reads back the encoding of every value of the domain of a type, when the
    names of every tuple are distinct, every element of an array or a slice puts at least
    a word in the head, no string or bytes value is empty, and the encoding is shorter
    than 2^63 bytes. -/
theorem decode_enc_roundTrip (t : Typ) (ht : t.all Typ.roundTripNode) (v : Value) (hv : inDomain t v)
    (hne : v.payloadsNonEmpty) (hlen : (enc t v).length < 2 ^ 63) : Decode t (enc t v) = .ok v := by
  obtain ⟨r, h, -⟩ := decode_enc t ht v hv hne [] (by simpa using hlen)
  rw [List.append_nil] at h
  rw [Decode, h]
  rfl

/-- The type `tuple(string,string)`. -/
def stringPair : Typ :=
  .mk .tuple 0 .nil (some [.mk "" stringType false, .mk "" stringType false]) "tuple(string,string)" .other

set_option maxRecDepth 4096 in
theorem decode_enc_roundTrip_stringPair :
    stringPair.all Typ.roundTripNode ∧
      inDomain stringPair (.tuple [("0", .string [0x61, 0x62]), ("1", .string [0x63])]) ∧
      (Value.tuple [("0", .string [0x61, 0x62]), ("1", .string [0x63])]).payloadsNonEmpty ∧
      (enc stringPair (.tuple [("0", .string [0x61, 0x62]), ("1", .string [0x63])])).length < 2 ^ 63 ∧
      Decode stringPair (enc stringPair (.tuple [("0", .string [0x61, 0x62]), ("1", .string [0x63])])) =
        .ok (.tuple [("0", .string [0x61, 0x62]), ("1", .string [0x63])]) :=
  ⟨by decide, by decide, by decide, by decide,
    decode_enc_roundTrip stringPair (by decide) _ (by decide) (by decide) (by decide)⟩

/-- The type `tuple(uint256[0][1])`, whose array has an element of no bytes. -/
def emptyArrayTuple : Typ :=
  .mk .tuple 0 .nil (some [.mk "" (.mk .array 1 emptyArrayType none "uint256[0][1]" .other) false])
    "tuple(uint256[0][1])" .other

set_option maxRecDepth 4096 in
/-- Two values of the domain of well-formed tuple types with distinct names whose encoding
    `Decode` does not read back: an empty string before another string reads the tail of
    the second as its payload; and, by the design of the size check, which counts a word
    per element (`decode_array_tuple`), an array of one empty array is rejected. -/
theorem decode_enc_diverges :
    stringPair.WellFormed ∧ stringPair.all Typ.namesDistinct ∧
      inDomain stringPair (.tuple [("0", .string []), ("1", .string [0x61, 0x62])]) ∧
      Decode stringPair (enc stringPair (.tuple [("0", .string []), ("1", .string [0x61, 0x62])])) =
        .ok (.tuple [("0", .string (word 2 ++ [0x61, 0x62] ++ zeros 30)), ("1", .string [0x61, 0x62])]) ∧
    emptyArrayTuple.WellFormed ∧ emptyArrayTuple.all Typ.namesDistinct ∧
      inDomain emptyArrayTuple (.tuple [("0", .array [.array []])]) ∧
      Decode emptyArrayTuple (enc emptyArrayTuple (.tuple [("0", .array [.array []])])) =
        fail "size is too big" :=
  ⟨by decide, by decide, by decide, by rfl, by decide, by decide, by decide, by rfl⟩

end Abi
