import Mathlib.Data.List.Nodup
import Abi.Decode.Static

/-!
# The keys of a decoded tuple

`decodeTuple` puts each element of a tuple in a Go map, under its name, or under its index
`strconv.Itoa(indx)` when it has none, and reports "tuple with repeated values" when the
key is in the map already. So the map it returns has one entry per element, and a tuple
whose effective names repeat (two elements of one name, or an element named by the index
of an unnamed one, as in `tuple(uint256,uint256 0)`) is read from no input at all.

* `decodeTuple_keys`: the loop, from the element `indx` on, adds the entries of the
  elements in order, under their effective names, and keeps the keys distinct;
* `decode_tuple_keys`: a tuple read from any input has the effective names of its elements
  as keys, in order, and these are distinct.
-/

namespace Abi

/-- The names `decodeTuple` puts the elements from the index `indx` on under. -/
def effectiveNames : Nat → List TupleElem → List String
  | _, [] => []
  | indx, .mk name _ _ :: elems => entryName name indx :: effectiveNames (indx + 1) elems

/-- The loop of `decodeTuple`, after the entries `res` with distinct keys, adds one entry
    per element, under its effective name, and the keys stay distinct. -/
theorem decodeTuple_keys {orig : Bytes} : ∀ (elems : List TupleElem) (indx : Nat)
    (res : List (String × Value)) (data : Bytes) (v : Value) (r : Bytes),
    (res.map Prod.fst).Nodup → decodeTuple orig elems indx res data = .ok (v, r) →
    ∃ entries, v = .tuple (res ++ entries) ∧ entries.map Prod.fst = effectiveNames indx elems ∧
      ((res ++ entries).map Prod.fst).Nodup
  | [], _, res, _, _, _, hnd, h => by
    cases h
    exact ⟨[], by simp, rfl, by simpa using hnd⟩
  | .mk name e i :: args, indx, res, data, v, r, hnd, h => by
    obtain ⟨-, val, -, data', -, -, -, hany, hl⟩ := decodeTuple_cons_eq_ok.1 h
    -- the key of this element is not in the map yet
    have hnd' : ((res ++ [(entryName name indx, val)]).map Prod.fst).Nodup := by
      rw [List.map_append, List.nodup_append]
      refine ⟨hnd, List.nodup_singleton _, fun k hk hk' => ?_⟩
      obtain rfl := List.mem_singleton.1 (by simpa using hk')
      obtain ⟨p, hp, hpk⟩ := List.mem_map.1 hk
      exact List.any_eq_false.1 hany p hp (decide_eq_true hpk)
    obtain ⟨entries, rfl, hkeys, hnd''⟩ := decodeTuple_keys args (indx + 1) _ data' v r hnd' hl
    refine ⟨(entryName name indx, val) :: entries, by simp, by simp [effectiveNames, hkeys], ?_⟩
    simpa using hnd''

/-- A tuple read from any input has one entry per element, in order, under the element's
    name or, for an unnamed one, its index; these keys are distinct. So a tuple type whose
    effective names repeat is read from no input. -/
theorem decode_tuple_keys {size : Int} {elem : Typ} {elems : List TupleElem} {raw : String}
    {rt : RType} {b : Bytes} {v : Value} {r : Bytes}
    (h : decode (.mk .tuple size elem (some elems) raw rt) b = .ok (v, r)) :
    (effectiveNames 0 elems).Nodup ∧
      ∃ entries, v = .tuple entries ∧ entries.map Prod.fst = effectiveNames 0 elems := by
  rw [decode_tuple_some] at h
  obtain ⟨entries, rfl, hkeys, hnd⟩ := decodeTuple_keys elems 0 [] b v r List.nodup_nil h
  exact ⟨hkeys ▸ by simpa using hnd, entries, by simp, hkeys⟩

theorem decode_tuple_keys_boolBytePair :
    decode boolBytePair (word 1 ++ word 7 ++ word 9) =
        .ok (.tuple [("flag", .bool true), ("1", .array [.int 7, .int 9])], []) ∧
      [("flag", Value.bool true), ("1", .array [.int 7, .int 9])].map Prod.fst =
        effectiveNames 0 boolBytePair.elems :=
  have h : decode boolBytePair (word 1 ++ word 7 ++ word 9) =
      .ok (.tuple [("flag", .bool true), ("1", .array [.int 7, .int 9])], []) := by rfl
  ⟨h, by
    obtain ⟨-, entries, he, hkeys⟩ := decode_tuple_keys h
    cases he
    exact hkeys⟩

end Abi
