import Abi.Method
import Abi.Decimal
import Mathlib.Data.List.Nodup
import Mathlib.Data.List.Perm.Subperm
import Mathlib.Data.Nat.Find

/-!
# Overloaded names

Solidity allows two functions, or two events, with one name. The parser keeps them apart
with `overloadedMethodName` and `overloadedEventName`, the same loop over the keys of the
methods or of the events: a name not taken yet is kept, and a taken one gets the first
decimal suffix `0`, `1`, … that is not taken.

The loop runs while its candidate is taken. The candidates `rawName`, `rawName0`,
`rawName1`, … are pairwise distinct (`append_toString_inj`), so no more of them are taken
than the map has keys (`exists_free`), and the loop stops within `len(m) + 1` passes, at
the least free candidate (`overloadedName_spec`).

Over a document, the loop numbers the repeats of each name (`overloadKeys`,
`overloadKeys_step`), as long as no name is another one followed by a number: a rendering
has no leading zero, so two names followed by numbers are equal only when the names are, or
one is the other followed by a number (`append_toString_eq`).
-/

namespace Abi

/-- A Go `map[string]V`, by its entries. -/
abbrev GoMap (V : Type) := List (String × V)

namespace GoMap

variable {V : Type}

/-- The keys of the map. -/
def keys (m : GoMap V) : List String := m.map Prod.fst

/-- `m[k] = v`: the entry of `k` gets `v`, or a new entry is added. -/
def insert (m : GoMap V) (k : String) (v : V) : GoMap V :=
  if k ∈ m.keys then m.map fun p => if p.1 = k then (k, v) else p else m ++ [(k, v)]

theorem insert_of_not_mem {m : GoMap V} {k : String} (v : V) (h : k ∉ m.keys) :
    m.insert k v = m ++ [(k, v)] := if_neg h

end GoMap

/-- An `ABI`: the constructor, if any, and the methods and the events by name. -/
structure ABI where
  constructor : Option Method
  methods : GoMap Method
  events : GoMap Event

/-- The state of the probe loop: the index `idx`, the candidate `name` and whether it is
    taken, `ok`. -/
structure Probe where
  idx : Nat
  name : String
  ok : Bool

namespace Probe

/-- The state before the loop: the candidate is `rawName` itself. -/
def init (keys : List String) (rawName : String) : Probe := ⟨0, rawName, rawName ∈ keys⟩

/-- One pass of the loop: `name = fmt.Sprintf("%s%d", rawName, idx)`, whether it is taken,
    and `idx++`. -/
def next (keys : List String) (rawName : String) (s : Probe) : Probe :=
  let name := rawName ++ toString s.idx
  ⟨s.idx + 1, name, name ∈ keys⟩

/-- The loop `for idx := 0; ok; idx++`, with at most `fuel` passes. -/
def run (keys : List String) (rawName : String) : Nat → Probe → Probe
  | 0, s => s
  | fuel + 1, s => if s.ok then run keys rawName fuel (s.next keys rawName) else s

end Probe

/-- The loop of `overloadedMethodName` and `overloadedEventName` over the keys of a map,
    and the name it ends at; it is given `len(m) + 1` passes, which it never uses up
    (`overloadedName_spec`). -/
def overloadedName (keys : List String) (rawName : String) : String :=
  (Probe.run keys rawName (keys.length + 1) (Probe.init keys rawName)).name

/-- `overloadedMethodName(rawName)`: the name a new method called `rawName` gets. -/
def ABI.overloadedMethodName (abi : ABI) (rawName : String) : String :=
  overloadedName abi.methods.keys rawName

/-- `overloadedEventName(rawName)`: the name a new event called `rawName` gets. -/
def ABI.overloadedEventName (abi : ABI) (rawName : String) : String :=
  overloadedName abi.events.keys rawName

section

variable (keys : List String) (rawName : String)

/-- The state of the probe loop after `m` passes. -/
def probeIter (m : Nat) : Probe := (Probe.next keys rawName)^[m] (Probe.init keys rawName)

theorem probeIter_succ (m : Nat) :
    probeIter keys rawName (m + 1) =
      ⟨m + 1, rawName ++ toString m, rawName ++ toString m ∈ keys⟩ := by
  induction m with
  | zero => rfl
  | succ m ih => rw [probeIter, Function.iterate_succ_apply', ← probeIter, ih]; rfl

/-- Some candidate with a suffix of at most `len(m)` is free: the candidates are pairwise
    distinct, and the map has no more keys than that. -/
theorem exists_free : ∃ j, j ≤ keys.length ∧ rawName ++ toString j ∉ keys := by
  by_contra h
  push_neg at h
  have hnodup : ((List.range (keys.length + 1)).map (rawName ++ toString ·)).Nodup :=
    List.Nodup.map (fun _ _ h => append_toString_inj.1 h) (List.nodup_range _)
  have hsub : (List.range (keys.length + 1)).map (rawName ++ toString ·) ⊆ keys := by
    intro k hk
    obtain ⟨j, hj, rfl⟩ := List.mem_map.1 hk
    exact h j (Nat.lt_succ_iff.1 (List.mem_range.1 hj))
  have := (List.subperm_of_subset hnodup hsub).length_le
  simp at this

/-- Given fuel enough, the loop runs from the pass `i` to the first pass `n` whose
    candidate is free. -/
theorem run_probeIter {n : Nat} (hok : ∀ m < n, (probeIter keys rawName m).ok = true)
    (hfree : (probeIter keys rawName n).ok = false) :
    ∀ fuel i, i ≤ n → n ≤ i + fuel →
      Probe.run keys rawName fuel (probeIter keys rawName i) = probeIter keys rawName n
  | 0, i, h₁, h₂ => by rw [show i = n by omega]; rfl
  | fuel + 1, i, h₁, h₂ => by
    rcases Nat.lt_or_ge i n with hi | hi
    · rw [Probe.run, if_pos (hok i hi), show Probe.next keys rawName (probeIter keys rawName i) =
        probeIter keys rawName (i + 1) from (Function.iterate_succ_apply' _ _ _).symm]
      exact run_probeIter hok hfree fuel (i + 1) hi (by omega)
    · rw [show i = n by omega, Probe.run, if_neg (by simp [hfree])]

/-- A taken `rawName` has a least free suffix `k`, at most `len(m)`. -/
theorem exists_least_free :
    ∃ k ≤ keys.length, rawName ++ toString k ∉ keys ∧ ∀ j < k, rawName ++ toString j ∈ keys := by
  classical
  have hex := exists_free keys rawName
  refine ⟨Nat.find hex, (Nat.find_spec hex).1, (Nat.find_spec hex).2, fun j hj => ?_⟩
  by_contra h
  exact Nat.find_min hex hj ⟨by have := (Nat.find_spec hex).1; omega, h⟩

/-- When `rawName` is taken, the loop runs a pass for each suffix up to the least free one
    `k`, and stops after it. -/
theorem probeIter_of_mem {k : Nat} (hraw : rawName ∈ keys) (hk : rawName ++ toString k ∉ keys)
    (hmin : ∀ j < k, rawName ++ toString j ∈ keys) :
    (∀ m < k + 1, (probeIter keys rawName m).ok = true) ∧
      (probeIter keys rawName (k + 1)).ok = false := by
  refine ⟨fun m hm => ?_, by simpa [probeIter_succ] using hk⟩
  cases m with
  | zero => simpa [probeIter, Probe.init] using hraw
  | succ j => simpa [probeIter_succ] using hmin j (by omega)

theorem overloadedName_of_mem {k : Nat} (hraw : rawName ∈ keys) (hkle : k ≤ keys.length)
    (hk : rawName ++ toString k ∉ keys) (hmin : ∀ j < k, rawName ++ toString j ∈ keys) :
    overloadedName keys rawName = rawName ++ toString k := by
  obtain ⟨hok, hfree⟩ := probeIter_of_mem keys rawName hraw hk hmin
  rw [overloadedName, show Probe.init keys rawName = probeIter keys rawName 0 from rfl,
    run_probeIter keys rawName hok hfree _ 0 (by omega) (by omega), probeIter_succ]

theorem overloadedName_of_not_mem (hraw : rawName ∉ keys) : overloadedName keys rawName = rawName := by
  cases keys <;> simp_all [overloadedName, Probe.run, Probe.init]

/-- The name the loop ends at is free. -/
theorem overloadedName_not_mem : overloadedName keys rawName ∉ keys := by
  by_cases hraw : rawName ∈ keys
  · obtain ⟨k, hkle, hk, hmin⟩ := exists_least_free keys rawName
    rwa [overloadedName_of_mem keys rawName hraw hkle hk hmin]
  · rwa [overloadedName_of_not_mem keys rawName hraw]

/-- Adding an entry under the name the loop ends at adds a key. -/
theorem GoMap.keys_insert_overloaded {V : Type} (m : GoMap V) (v : V) :
    (m.insert (overloadedName m.keys rawName) v).keys = m.keys ++ [overloadedName m.keys rawName] := by
  rw [GoMap.insert_of_not_mem v (overloadedName_not_mem _ _), GoMap.keys, List.map_append]
  rfl

/-- The name the loop ends at is `rawName`, or `rawName` followed by a number. -/
theorem overloadedName_eq :
    overloadedName keys rawName = rawName ∨
      ∃ k : Nat, overloadedName keys rawName = rawName ++ toString k := by
  by_cases hraw : rawName ∈ keys
  · obtain ⟨k, hkle, hk, hmin⟩ := exists_least_free keys rawName
    exact .inr ⟨k, overloadedName_of_mem keys rawName hraw hkle hk hmin⟩
  · exact .inl (overloadedName_of_not_mem keys rawName hraw)

/-- The probe loop stops after `n ≤ len(m) + 1` passes, the first whose candidate is free,
    and `overloadedName` is that candidate: `rawName` when it is free, and otherwise
    `rawName` followed by the least `k` for which that name is free. -/
theorem overloadedName_spec :
    ∃ n ≤ keys.length + 1,
      (∀ m < n, (probeIter keys rawName m).ok = true) ∧ (probeIter keys rawName n).ok = false ∧
      overloadedName keys rawName = (probeIter keys rawName n).name ∧
      (rawName ∉ keys → overloadedName keys rawName = rawName) ∧
      (rawName ∈ keys → ∃ k : Nat, overloadedName keys rawName = rawName ++ toString k ∧
        ∀ j < k, rawName ++ toString j ∈ keys) ∧
      overloadedName keys rawName ∉ keys := by
  by_cases hraw : rawName ∈ keys
  · -- the loop runs a pass for each suffix up to the least free one, and stops after it
    obtain ⟨k, hkle, hk, hmin⟩ := exists_least_free keys rawName
    obtain ⟨hok, hfree⟩ := probeIter_of_mem keys rawName hraw hk hmin
    have hname := overloadedName_of_mem keys rawName hraw hkle hk hmin
    exact ⟨k + 1, by omega, hok, hfree, by rw [hname, probeIter_succ], fun h => absurd hraw h,
      fun _ => ⟨k, hname, hmin⟩, overloadedName_not_mem keys rawName⟩
  · -- `rawName` is free: the loop makes no pass
    have hname := overloadedName_of_not_mem keys rawName hraw
    exact ⟨0, by omega, fun _ h => absurd h (Nat.not_lt_zero _),
      by simpa [probeIter, Probe.init] using hraw, by rw [hname]; rfl, fun _ => hname,
      fun h => absurd h hraw, overloadedName_not_mem keys rawName⟩

example : overloadedName ["send", "send0"] "send" = "send1" := by decide

-- The comment above `overloadedMethodName` gives `send2` for `send` next to `send` and
-- `send1`; the loop tries `send0` first, and that key is free.
example : overloadedName ["send", "send1"] "send" = "send0" := by decide

end

/-! ## The keys of a document

Over a whole document the rule numbers the repeats of each name: the first function
called `n` gets the key `n`, the second `n0`, the third `n1`, and so on (`overloadKeys`).
That is what the loop computes as long as no name of the document is another one
followed by a number (`SuffixFree`): a name such as `send0` next to `send` takes the key
the second `send` would get, which then goes on to `send1`. -/

/-- The key the occurrence of `name` after `c` others gets: `name`, then `name0`,
    `name1`, …. -/
def suffixed (name : String) : Nat → String
  | 0 => name
  | c + 1 => name ++ toString c

@[simp] theorem suffixed_zero (name : String) : suffixed name 0 = name := rfl

@[simp] theorem suffixed_succ (name : String) (c : Nat) : suffixed name (c + 1) = name ++ toString c :=
  rfl

/-- The keys of the names `names`, each numbered by how often it was `seen` before. -/
def overloadKeysAfter (seen : List String) : List String → List String
  | [] => []
  | n :: names => suffixed n (seen.count n) :: overloadKeysAfter (seen ++ [n]) names

/-- The keys the overload rule gives the names of a document, in order. -/
def overloadKeys (names : List String) : List String := overloadKeysAfter [] names

/-- No name is another one, or itself, followed by a number. -/
def SuffixFree (names : List String) : Prop :=
  ∀ x ∈ names, ∀ y ∈ names, ∀ k : Nat, x ≠ y ++ toString k

theorem overloadKeysAfter_concat (n : String) :
    ∀ (seen p : List String), overloadKeysAfter seen (p ++ [n]) =
      overloadKeysAfter seen p ++ [suffixed n ((seen ++ p).count n)]
  | _, [] => by simp [overloadKeysAfter]
  | seen, m :: p => by
    simp [overloadKeysAfter, overloadKeysAfter_concat n (seen ++ [m]) p]

theorem overloadKeys_concat (p : List String) (n : String) :
    overloadKeys (p ++ [n]) = overloadKeys p ++ [suffixed n (p.count n)] := by
  simp [overloadKeys, overloadKeysAfter_concat]

theorem length_overloadKeys (p : List String) : (overloadKeys p).length = p.length := by
  induction p using List.reverseRecOn with
  | nil => rfl
  | append_singleton p n ih => simp [overloadKeys_concat, ih]

/-- Whether a name ends in a decimal digit. -/
def endsInDigit (s : String) : Bool := s.data.getLast?.any fun c => decide (IsDigit c)

/-- Names that do not end in a digit are not names followed by a number. -/
theorem SuffixFree.of_endsInDigit {names : List String} (h : ∀ x ∈ names, endsInDigit x = false) :
    SuffixFree names := by
  rintro _ hx y - k rfl
  have hd := digitChar_toNat (k % 10) (Nat.mod_lt _ (by decide))
  have hlast : (y ++ toString k).data.getLast? = some (Nat.digitChar (k % 10)) := by
    rw [String.data_append, List.getLast?_append, show (toString k).data = Nat.toDigits 10 k from rfl,
      getLast?_toDigits]
    rfl
  have := h _ hx
  simp only [endsInDigit, hlast, Option.any_some, decide_eq_false_iff_not, IsDigit] at this
  omega

theorem SuffixFree.of_append {p q : List String} (h : SuffixFree (p ++ q)) : SuffixFree p :=
  fun x hx y hy => h x (List.mem_append_left _ hx) y (List.mem_append_left _ hy)

/-- Numbered keys of names neither of which is the other followed by a number are equal
    only for one name and one number. -/
theorem suffixed_inj {x y : String} {i c : Nat} (hxy : ∀ k : Nat, x ≠ y ++ toString k)
    (hyx : ∀ k : Nat, y ≠ x ++ toString k) (h : suffixed x i = suffixed y c) : x = y ∧ i = c := by
  cases i with
  | zero =>
    cases c with
    | zero => exact ⟨h, rfl⟩
    | succ c => exact absurd h (hxy c)
  | succ i =>
    cases c with
    | zero => exact absurd h.symm (hyx i)
    | succ c =>
      rcases append_toString_eq h with rfl | ⟨k, hk⟩ | ⟨k, hk⟩
      · exact ⟨rfl, congrArg (· + 1) (append_toString_inj.1 h)⟩
      · exact absurd hk (hxy k)
      · exact absurd hk (hyx k)

/-- Among the keys of names none of which is `n` followed by a number or the other way
    round, `n` numbered `c` is there exactly when `n` occurs more than `c` times. -/
theorem suffixed_mem_overloadKeys {n : String} {c : Nat} (p : List String)
    (hp : ∀ x ∈ p, ∀ k : Nat, x ≠ n ++ toString k ∧ n ≠ x ++ toString k) :
    suffixed n c ∈ overloadKeys p ↔ c < p.count n := by
  induction p using List.reverseRecOn with
  | nil => simp [overloadKeys, overloadKeysAfter]
  | append_singleton p x ih =>
    have hx := hp x (List.mem_append_right _ (List.mem_singleton_self x))
    rw [overloadKeys_concat, List.mem_append, List.mem_singleton,
      ih fun y hy => hp y (List.mem_append_left _ hy), List.count_append, List.count_singleton']
    constructor
    · rintro (h | h)
      · omega
      · obtain ⟨rfl, rfl⟩ := suffixed_inj (fun k => (hx k).2) (fun k => (hx k).1) h
        simp
    · intro h
      by_cases hxn : x = n
      · subst hxn
        rcases Nat.lt_or_ge c (p.count x) with hc | hc
        · exact .inl hc
        · exact .inr (by rw [show c = p.count x by simp at h; omega])
      · exact .inl (by simpa [hxn] using h)

/-- The loop gives a name the key that numbers its occurrences so far. -/
theorem overloadedName_overloadKeys {n : String} (p : List String)
    (hp : ∀ x ∈ p, ∀ k : Nat, x ≠ n ++ toString k ∧ n ≠ x ++ toString k) :
    overloadedName (overloadKeys p) n = suffixed n (p.count n) := by
  have hmem (c : Nat) := suffixed_mem_overloadKeys (c := c) p hp
  cases hc : p.count n with
  | zero => exact overloadedName_of_not_mem _ _ (by simpa [hc] using hmem 0)
  | succ c =>
    have hle : c ≤ (overloadKeys p).length := by
      have := List.count_le_length n p
      rw [length_overloadKeys]
      omega
    exact overloadedName_of_mem _ _ (by simpa [hc] using hmem 0) hle
      (by simpa [hc] using hmem (c + 1)) fun j hj => (hmem (j + 1)).2 (by omega)

/-- Adding a name under the key the loop gives it keeps the keys those of the names so
    far. -/
theorem overloadKeys_step {p : List String} {n : String} (h : SuffixFree (p ++ [n])) :
    overloadKeys p ++ [overloadedName (overloadKeys p) n] = overloadKeys (p ++ [n]) := by
  have hn : n ∈ p ++ [n] := List.mem_append_right _ (List.mem_singleton_self n)
  rw [overloadKeys_concat, overloadedName_overloadKeys p fun x hx k =>
    ⟨h x (List.mem_append_left _ hx) n hn k, h n hn x (List.mem_append_left _ hx) k⟩]

example : overloadKeys ["f", "g", "f", "f"] = ["f", "g", "f0", "f1"] := by decide

end Abi
