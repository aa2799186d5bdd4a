import Abi.Log
import Abi.Unmarshal

/-!
# From the document to the answers

The program reads a JSON descriptor with `UnmarshalJSON`, and then computes ids and
matches logs on the methods and events it built, through the hasher pool and the caches
of `Abi.Id`. Its methods and events come with no id yet, so the world they form, with any
pool of reset hashers, satisfies `Inv` (`inv_unmarshalJSON`), and every run from it answers
as the abstract model of `Abi.Log` says (`logRun_refines`).

* `unmarshalJSON_answers`: for every document `UnmarshalJSON` accepts, every run of calls
  on the methods and events it built answers as the abstract model over the signatures
  written in the document: `name(type₁,…)` of the `i`-th function entry for the method at
  `i`, of the `i`-th event entry for the event at `i`.
-/

namespace Abi

section

variable (keccak : Bytes → Hash)

/-- The methods and events `UnmarshalJSON` builds, with a pool of reset hashers, satisfy
    `Inv`: they have no id yet. -/
theorem inv_unmarshalJSON {a a' : ABI} {fields : List Field} (h : a.unmarshalJSON fields = .ok a')
    {pool : List Hasher} (hp : PoolReset pool) :
    Inv keccak ⟨pool, a'.methods.map Prod.snd, a'.events.map Prod.snd⟩ ∧
      (⟨pool, a'.methods.map Prod.snd, a'.events.map Prod.snd⟩ : World).abs =
        ⟨(fields.filter Field.isFunction).map fun f => buildSignature f.name (argumentsType f.inputs),
          (fields.filter Field.isEvent).map fun f => buildSignature f.name (argumentsType f.inputs)⟩ := by
  obtain ⟨hknown, hcons⟩ := foldlM_addField_ok fields _ a' h
  obtain ⟨a'', h', hms, -, hes, -⟩ :=
    foldlM_addField fields { a with methods := [], events := [] } hknown hcons (.nil _) (.nil _)
  obtain rfl : a'' = a' := Except.ok.inj (h'.symm.trans h)
  simp only [List.map_nil, List.nil_append] at hms hes
  refine ⟨⟨hp, fun m hm => .inl ?_, fun e he => .inl ?_⟩, ?_⟩
  · obtain ⟨f, -, rfl⟩ := List.mem_map.1 (hms ▸ hm)
    rfl
  · obtain ⟨f, -, rfl⟩ := List.mem_map.1 (hes ▸ he)
    rfl
  · simp only [World.abs, hms, hes, List.map_map]
    rfl

/-- For every document `UnmarshalJSON` accepts, every run of calls of `KeccakHash`,
    `Method.ID`, `Event.ID`, `Clone` and `Match` on the methods and events it built, in
    document order, answers as the abstract model over the signatures the entries of the
    document spell, whatever hashers the pool hands out. -/
theorem unmarshalJSON_answers {a a' : ABI} {fields : List Field} (h : a.unmarshalJSON fields = .ok a')
    {pool : List Hasher} (hp : PoolReset pool) (cs : List LogCall) :
    ((⟨pool, a'.methods.map Prod.snd, a'.events.map Prod.snd⟩ : World).logRun keccak cs).1 =
      ((⟨(fields.filter Field.isFunction).map fun f => buildSignature f.name (argumentsType f.inputs),
        (fields.filter Field.isEvent).map fun f => buildSignature f.name (argumentsType f.inputs)⟩ :
          Spec).logRun keccak cs).1 := by
  obtain ⟨hinv, habs⟩ := inv_unmarshalJSON keccak h hp
  rw [← habs]
  exact (logRun_refines keccak _ hinv cs).1

end

theorem unmarshalJSON_answers_sendEntries :
    ∃ a', (ABI.mk none [] []).unmarshalJSON sendEntries = .ok a' ∧ PoolReset [] ∧
      ((⟨[], a'.methods.map Prod.snd, a'.events.map Prod.snd⟩ : World).logRun wordHash
          [.call (.methodID 2 none), .matchLog 0 ⟨[Hash.zero], []⟩ none]).1 =
        ((⟨(sendEntries.filter Field.isFunction).map fun f => buildSignature f.name (argumentsType f.inputs),
          (sendEntries.filter Field.isEvent).map fun f => buildSignature f.name (argumentsType f.inputs)⟩ :
            Spec).logRun wordHash [.call (.methodID 2 none), .matchLog 0 ⟨[Hash.zero], []⟩ none]).1 :=
  have hp : PoolReset [] := fun _ h => absurd h (List.not_mem_nil _)
  have ⟨a', h⟩ := (unmarshalJSON_isOk (ABI.mk none [] []) sendEntries).2 ⟨by decide, by decide⟩
  ⟨a', h, hp, unmarshalJSON_answers wordHash h hp _⟩

end Abi
