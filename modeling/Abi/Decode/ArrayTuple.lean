import Abi.Decode.Static
import Abi.Decimal

/-!
# Arrays and tuples

A fixed array `e[n]` and the tuple of `n` unnamed elements of type `e` have the same
layout, and `decodeArraySlice` and `decodeTuple` read them with the same loop: the tuple
puts element `i` under the name `strconv.Itoa(i)` (`decodeTuple_replicate`). The array is
read only once its size passes the check `32*size > len(data)`, computed in an `int`,
which assumes that every element takes a word of the head. It does, unless the element
type is static with an empty head; then the check can reject an input that the tuple
accepts (`decode_array_tuple`). Past the check the source makes the array with
`reflect.New`, which the model leaves out; the two readings agree where that allocation
takes no more than the input (`Typ.allocNode`). On `uint8[2^47][4]` and 128 zero bytes the
tuple returns "size is too big" from its first element, while the array, `2^49` bytes,
aborts before it reads one.
-/

namespace Abi

/-- The entries of a tuple holding `vs` from the element `i` on, under their indices. -/
def keyedFrom (i : Nat) : List Value → List (String × Value)
  | [] => []
  | v :: vs => (toString i, v) :: keyedFrom (i + 1) vs

/-- The tuple value with the elements of an array value, under their indices. -/
def tupleOfArray : Value → Value
  | .array vs => .tuple (keyedFrom 0 vs)
  | v => v

theorem keyedFrom_append (i : Nat) (vs : List Value) (v : Value) :
    keyedFrom i (vs ++ [v]) = keyedFrom i vs ++ [(toString (i + vs.length), v)] := by
  induction vs generalizing i with
  | nil => rfl
  | cons w vs ih => simp [keyedFrom, ih, Nat.add_assoc, Nat.add_comm 1]

/-- The keys of the entries from the element `i` on are the indices from `i` on. -/
theorem any_keyedFrom (i j : Nat) (vs : List Value) :
    (keyedFrom i vs).any (·.1 = toString j) = true ↔ i ≤ j ∧ j < i + vs.length := by
  induction vs generalizing i with
  | nil => simp [keyedFrom]
  | cons w vs ih =>
    simp only [keyedFrom, List.any_cons, Bool.or_eq_true, decide_eq_true_eq,
      toString_injective.eq_iff, ih, List.length_cons]
    omega

theorem map_bind {α β γ : Type} (x : Result α) (g : α → Result β) (f : β → γ) :
    Except.map f (x >>= g) = x >>= fun a => Except.map f (g a) := by
  cases x <;> rfl

/-- The loop of `decodeTuple` over unnamed elements of type `e` is the loop of
    `decodeArraySlice` over `e`, with the values under their indices. -/
theorem decodeTuple_replicate (e : Typ) (ind : Bool) (orig : Bytes) :
    ∀ (m : Nat) (vs : List Value) (data : Bytes),
      decodeTuple orig (List.replicate m (.mk "" e ind)) vs.length (keyedFrom 0 vs) data =
        Except.map (Prod.map tupleOfArray id)
          (decodeArrayLoop (decode e) e.isDynamicType orig m vs data)
  | 0, _, _ => rfl
  | m + 1, vs, data => by
    simp only [List.replicate_succ, decodeTuple, decodeArrayLoop, map_bind]
    congr 1; funext entry; congr 1; funext ⟨val, tail⟩; congr 1; funext data'
    have hfresh := (any_keyedFrom 0 vs.length vs).not.2 (by omega)
    rw [entryName, if_pos rfl, if_neg hfresh, show vs.length + 1 = (vs ++ [val]).length by simp,
      show keyedFrom 0 vs ++ [(toString vs.length, val)] = keyedFrom 0 (vs ++ [val]) by
        simp [keyedFrom_append]]
    exact decodeTuple_replicate e ind orig m _ data'

/-- Every element of the loop takes a word of the head, when the element type is dynamic
    (its offset) or its decoder reads at least a word. -/
theorem decodeArrayLoop_length {dec : Bytes → Result (Value × Bytes)} {d : Bool} {orig : Bytes}
    (hstep : d = true ∨ ∃ m, 32 ≤ m ∧ Consumes dec m) :
    ∀ n res data v r, decodeArrayLoop dec d orig n res data = .ok (v, r) →
      32 * n + r.length ≤ data.length
  | 0, _, _, _, _, h => by cases h; simp
  | n + 1, res, data, v, r, h => by
    obtain ⟨entry, val, tail, data', he, hdec, ha, hl⟩ := decodeArrayLoop_succ_eq_ok.1 h
    have ih := decodeArrayLoop_length hstep n _ _ _ _ hl
    have hstep' : 32 + data'.length ≤ data.length := by
      cases d with
      | true =>
        -- the offset word was read at the cursor, which moves past it
        obtain ⟨h32, -⟩ := entryAt_true_eq_ok.1 he
        rw [advance_true tail h32] at ha
        cases ha
        simp only [List.length_drop]
        omega
      | false =>
        obtain ⟨m, hm, hc⟩ := hstep.resolve_left Bool.false_ne_true
        cases he
        cases ha
        obtain ⟨hle, rfl⟩ := hc hdec
        simp only [List.length_drop]
        omega
    omega

/-- A fixed array `e[n]` and the tuple of `n` unnamed elements of type `e`: once the
    array's size check passes, and where its reflect type is set and its elements' Go values
    take at most a word, the tuple's decoding is the array's with element `i` under
    `strconv.Itoa(i)`, the same rest and the same errors; when the check fails the array is
    rejected. The check rejects an input the tuple accepts only when the head of `e` is
    empty. -/
theorem decode_array_tuple (e : Typ) (n : Nat) (b : Bytes) (tu : Option (List TupleElem))
    (s : Int) (e' : Typ) (ind : Bool) (raw raw' : String) (t t' : RType) :
    ((Typ.mk .array n e tu raw t).allocNode → int64Wrap (32 * n) ≤ b.length →
      decode (.mk .tuple s e' (some (List.replicate n (.mk "" e ind))) raw' t') b =
        Except.map (Prod.map tupleOfArray id) (decode (.mk .array n e tu raw t) b)) ∧
    (b.length < int64Wrap (32 * n) → decode (.mk .array n e tu raw t) b = fail "size is too big") ∧
    ((e.isDynamicType ∨ 0 < e.words) → b.length < 2 ^ 63 → ∀ v r,
      decode (.mk .tuple s e' (some (List.replicate n (.mk "" e ind))) raw' t') b = .ok (v, r) →
        int64Wrap (32 * n) ≤ b.length) := by
  have htuple : decodeTuple b (List.replicate n (.mk "" e ind)) 0 [] b = _ :=
    decodeTuple_replicate e ind b n [] b
  rw [decode_tuple_some]
  refine ⟨fun _ hg => ?_, fun hg => ?_, fun hne hb v r h => ?_⟩
  · rw [decode_array, decodeArraySlice, if_neg (by omega), if_neg (by omega)]
    exact htuple
  · rw [decode_array, decodeArraySlice, if_neg (by omega), if_pos hg]
  · rw [htuple] at h
    obtain ⟨⟨v', r'⟩, hloop, -⟩ := map_eq_ok.1 h
    have hlen := decodeArrayLoop_length (by
      rcases hne with hd | hw
      · exact .inl hd
      · rcases Bool.eq_false_or_eq_true e.isDynamicType with hd | hd
        · exact .inl hd
        · exact .inr ⟨_, by omega, decode_consumes e hd⟩) n [] b v' r' hloop
    rw [int64Wrap_of_lt (by omega) (by omega)]
    omega

/-- The element type `uint8`. -/
def uint8Type : Typ := .mk .uInt 8 .nil none "uint8" .uint8

/-- The element type `uint256[0]`, static with an empty head. -/
def emptyArrayType : Typ := .mk .array 0 (.mk .uInt 256 .nil none "uint256" .other) none "uint256[0]" .other

theorem decode_array_tuple_uint8 :
    (Typ.mk .array 2 uint8Type none "uint8[2]" .other).allocNode ∧
      int64Wrap (32 * (2 : Nat)) ≤ (word 7 ++ word 9).length ∧
      decode (.mk .tuple 0 .nil (some (List.replicate 2 (.mk "" uint8Type false))) "tuple" .other)
          (word 7 ++ word 9) =
        Except.map (Prod.map tupleOfArray id)
          (decode (.mk .array 2 uint8Type none "uint8[2]" .other) (word 7 ++ word 9)) :=
  ⟨by decide, by decide,
    (decode_array_tuple uint8Type 2 _ none 0 .nil false "uint8[2]" "tuple" .other .other).1
      (by decide) (by decide)⟩

/-- With an element type whose head is empty, the tuple of one element is read from no
    bytes at all, and the array of one is rejected by its size check. -/
theorem decode_array_tuple_emptyHead :
    decode (.mk .tuple 0 .nil (some [.mk "" emptyArrayType false]) "tuple" .other) [] =
        .ok (.tuple [("0", .array [])], []) ∧
      decode (.mk .array 1 emptyArrayType none "uint256[0][1]" .other) [] =
        fail "size is too big" :=
  ⟨rfl, rfl⟩

end Abi
