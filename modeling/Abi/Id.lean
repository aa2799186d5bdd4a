import Abi.Clone

/-!
# Selectors and the hasher pool

`KeccakHash`, `Method.ID` and `Event.ID` hash through `keccakPool`, a `sync.Pool` of
Keccak-256 hashers: a call takes a hasher from the pool, or a new one, writes to it, reads
the sum and puts it back reset. `Method.ID` caches the first 4 bytes of the hash of the
signature in `m.id`, and `Event.ID` the whole hash in `e.id`, which it takes as cached when
its first 8 bytes are not all zero.

The hash function is a parameter `keccak`: what follows holds for every function from
bytes to hashes. The program is a state machine: a `World` holds the pool and the methods
and events, and a `Call` is one of the three functions on one of them, a `Clone` of one,
or the garbage collector dropping an entry of the pool.

Its abstract model, `Spec`, has no pool and no cache: it keeps the signatures alone, and
answers every call with the hash of its input. The code refines it:

* `Inv`: the pool holds reset hashers, and every id is empty (zero) or the one the hash of
  its signature gives;
* `step_refines`: from a world satisfying `Inv`, a step answers as the abstract step does,
  and leads to the abstraction of the next world, which satisfies `Inv`;
* `run_refines`: hence so does every run, whatever hashers the pool hands out.
-/

namespace Abi

/-- A Keccak-256 hasher, `sha3.NewLegacyKeccak256()`, by the bytes written to it since it
    was made or last reset. -/
structure Hasher where
  written : Bytes

namespace Hasher

/-- A new hasher. -/
def new : Hasher := ⟨[]⟩

/-- `k.Write(data)`. -/
def write (k : Hasher) (data : Bytes) : Hasher := ⟨k.written ++ data⟩

/-- `k.Reset()`. -/
def reset (_ : Hasher) : Hasher := new

end Hasher

/-- A hasher in its reset state. -/
def Hasher.IsReset (k : Hasher) : Prop := k.written = []

/-- A pool of reset hashers. -/
def PoolReset (pool : List Hasher) : Prop := ∀ k ∈ pool, k.IsReset

/-- `keccakPool.Get()`: the pooled hasher at `pick`, or a new one when there is none to
    pick. -/
def acquireKeccak (pool : List Hasher) : Option Nat → Hasher × List Hasher
  | some i =>
    match pool[i]? with
    | some k => (k, pool.eraseIdx i)
    | none => (.new, pool)
  | none => (.new, pool)

/-- `releaseKeccak(k)`: `k.Reset()`, then `keccakPool.Put(k)`. -/
def releaseKeccak (pool : List Hasher) (k : Hasher) : List Hasher := k.reset :: pool

section

variable (keccak : Bytes → Hash)

/-- `k.Sum(nil)`: the hash of what was written. -/
def Hasher.sum (k : Hasher) : Hash := keccak k.written

/-- `KeccakHash(data)`, with the pool before and after the call. -/
def keccakHash (pool : List Hasher) (pick : Option Nat) (data : Bytes) : Bytes × List Hasher :=
  let (k, pool) := acquireKeccak pool pick
  let k := k.write data
  ((k.sum keccak).bytes, releaseKeccak pool k)

/-- `m.ID()`: the cached id, or the first 4 bytes of the hash of the signature, which it
    caches. A panic of `Sig` leaves the acquired hasher out of the pool. -/
def Method.ID (m : Method) (pool : List Hasher) (pick : Option Nat) :
    Result Bytes × Method × List Hasher :=
  if m.id.length > 0 then (.ok m.id, m, pool)
  else
    let (k, pool) := acquireKeccak pool pick
    match m.Sig with
    | .error err => (.error err, m, pool)
    | .ok sig =>
      let k := k.write (bytesOf sig)
      let id := (k.sum keccak).bytes.take 4
      (.ok id, { m with id := id }, releaseKeccak pool k)

/-- `e.ID()`: the cached id when its first 8 bytes, read as a big-endian `uint64`, are not
    zero, or else the hash of the signature, copied into the id. -/
def Event.ID (e : Event) (pool : List Hasher) (pick : Option Nat) :
    Result Hash × Event × List Hasher :=
  if beNat (e.id.bytes.take 8) > 0 then (.ok e.id, e, pool)
  else
    let (k, pool) := acquireKeccak pool pick
    match e.Sig with
    | .error err => (.error err, e, pool)
    | .ok sig =>
      let k := k.write (bytesOf sig)
      let dst := k.sum keccak
      (.ok dst, { e with id := dst }, releaseKeccak pool k)

end

/-! ## The state machine -/

/-- The pool, and the methods and events the program holds. -/
structure World where
  pool : List Hasher
  methods : List Method
  events : List Event

/-- What the program does next: one of the three hashing functions, on the method or
    event at an index, taking the pool's hasher at `pick`; a clone of a method or an event,
    kept beside it; or the garbage collector dropping the pool's entry at an index. -/
inductive Call
  | keccakHash (data : Bytes) (pick : Option Nat)
  | methodID (i : Nat) (pick : Option Nat)
  | eventID (i : Nat) (pick : Option Nat)
  | cloneMethod (i : Nat)
  | cloneEvent (i : Nat)
  | collect (i : Nat)

section

variable (keccak : Bytes → Hash)

/-- One call: what it returns (the bytes of a hash or an id, none for a clone or a
    collection), and the next world. A call on a missing method or event is a call
    through a nil pointer. -/
def step (w : World) : Call → Result Bytes × World
  | .keccakHash data pick =>
    let (hash, pool) := keccakHash keccak w.pool pick data
    (.ok hash, { w with pool })
  | .methodID i pick =>
    match w.methods[i]? with
    | none => (nilDereference, w)
    | some m =>
      let (out, m, pool) := m.ID keccak w.pool pick
      (out, { w with pool, methods := w.methods.set i m })
  | .eventID i pick =>
    match w.events[i]? with
    | none => (nilDereference, w)
    | some e =>
      let (out, e, pool) := e.ID keccak w.pool pick
      (out.map Hash.bytes, { w with pool, events := w.events.set i e })
  | .cloneMethod i => (.ok [], { w with methods := w.methods ++ (w.methods[i]?.map Method.clone).toList })
  | .cloneEvent i => (.ok [], { w with events := w.events ++ (w.events[i]?.map Event.clone).toList })
  | .collect i => (.ok [], { w with pool := w.pool.eraseIdx i })

/-- A run: the answers to the calls, and the last world. -/
def run (w : World) : List Call → List (Result Bytes) × World
  | [] => ([], w)
  | c :: cs =>
    let (out, w) := step keccak w c
    let (outs, w) := run w cs
    (out :: outs, w)

end

/-! ## The abstract model -/

/-- What the calls can observe of a world: the signatures of its methods and events. -/
structure Spec where
  methods : List (Result String)
  events : List (Result String)

/-- The signatures of a world. -/
def World.abs (w : World) : Spec := ⟨w.methods.map Method.Sig, w.events.map Event.Sig⟩

section

variable (keccak : Bytes → Hash)

/-- A call with no pool and no cache: every answer is the hash of its input. -/
def Spec.step (s : Spec) : Call → Result Bytes × Spec
  | .keccakHash data _ => (.ok (keccak data).bytes, s)
  | .methodID i _ =>
    (match s.methods[i]? with
      | none => nilDereference
      | some sig => sig.map fun sig => (keccak (bytesOf sig)).bytes.take 4, s)
  | .eventID i _ =>
    (match s.events[i]? with
      | none => nilDereference
      | some sig => sig.map fun sig => (keccak (bytesOf sig)).bytes, s)
  | .cloneMethod i => (.ok [], { s with methods := s.methods ++ s.methods[i]?.toList })
  | .cloneEvent i => (.ok [], { s with events := s.events ++ s.events[i]?.toList })
  | .collect _ => (.ok [], s)

/-- A run of the abstract model. -/
def Spec.run (s : Spec) : List Call → List (Result Bytes) × Spec
  | [] => ([], s)
  | c :: cs =>
    let (out, s) := s.step keccak c
    let (outs, s) := s.run cs
    (out :: outs, s)

/-- A method's id is empty or the first 4 bytes of the hash of its signature. -/
def Method.IdValid (m : Method) : Prop :=
  m.id = [] ∨ ∃ sig, m.Sig = .ok sig ∧ m.id = (keccak (bytesOf sig)).bytes.take 4

/-- An event's id is zero or the hash of its signature. -/
def Event.IdValid (e : Event) : Prop :=
  e.id = Hash.zero ∨ ∃ sig, e.Sig = .ok sig ∧ e.id = keccak (bytesOf sig)

/-- The invariant of the program: the pool holds reset hashers, and the caches hold what
    the hash of the signature gives, or nothing yet. -/
structure Inv (w : World) : Prop where
  pool_reset : PoolReset w.pool
  methods_valid : ∀ m ∈ w.methods, m.IdValid keccak
  events_valid : ∀ e ∈ w.events, e.IdValid keccak

end

/-! ## The pool -/

section

variable {pool : List Hasher}

/-- A hasher taken from a pool of reset hashers is reset, and so is what is left. -/
theorem acquireKeccak_reset (hp : PoolReset pool) (pick : Option Nat) :
    (acquireKeccak pool pick).1.IsReset ∧ PoolReset (acquireKeccak pool pick).2 := by
  cases pick with
  | none => exact ⟨rfl, hp⟩
  | some i =>
    simp only [acquireKeccak]
    cases hk : pool[i]? with
    | none => exact ⟨rfl, hp⟩
    | some k => exact ⟨hp k (List.getElem?_mem hk), fun k' h => hp k' (List.mem_of_mem_eraseIdx h)⟩

theorem releaseKeccak_reset (hp : PoolReset pool) (k : Hasher) : PoolReset (releaseKeccak pool k) := by
  intro k' hk'
  rcases List.mem_cons.1 hk' with rfl | hk'
  · rfl
  · exact hp k' hk'

theorem sum_write_of_reset (keccak : Bytes → Hash) {k : Hasher} (hk : k.IsReset) (data : Bytes) :
    (k.write data).sum keccak = keccak data := by
  rw [Hasher.IsReset] at hk
  simp [Hasher.sum, Hasher.write, hk]

end

/-! ## The three functions -/

section

variable (keccak : Bytes → Hash) {pool : List Hasher}

/-- `KeccakHash` returns the hash of its input, and leaves the pool reset. -/
theorem keccakHash_spec (hp : PoolReset pool) (pick : Option Nat) (data : Bytes) :
    (keccakHash keccak pool pick data).1 = (keccak data).bytes ∧
      PoolReset (keccakHash keccak pool pick data).2 := by
  rcases hacq : acquireKeccak pool pick with ⟨k, pool'⟩
  obtain ⟨hk, hp'⟩ : k.IsReset ∧ PoolReset pool' := by simpa [hacq] using acquireKeccak_reset hp pick
  simp only [keccakHash, hacq, sum_write_of_reset keccak hk, true_and]
  exact releaseKeccak_reset hp' _

/-- `m.ID()` returns the first 4 bytes of the hash of the signature, cached or not; it
    changes only the id of the method, which stays valid, and leaves the pool reset. -/
theorem Method.ID_spec {m : Method} (hm : m.IdValid keccak) (hp : PoolReset pool)
    (pick : Option Nat) :
    (m.ID keccak pool pick).1 = m.Sig.map (fun sig => (keccak (bytesOf sig)).bytes.take 4) ∧
      (∃ id, (m.ID keccak pool pick).2.1 = { m with id := id }) ∧
      (m.ID keccak pool pick).2.1.IdValid keccak ∧ PoolReset (m.ID keccak pool pick).2.2 := by
  unfold Method.ID
  split_ifs with hc
  · -- a cached id is not empty, so it is the one the signature gives
    rcases hm with h | ⟨sig, hs, hid⟩
    · simp [h] at hc
    · exact ⟨by rw [hs, hid]; rfl, ⟨m.id, rfl⟩, .inr ⟨sig, hs, hid⟩, hp⟩
  · rcases hacq : acquireKeccak pool pick with ⟨k, pool'⟩
    obtain ⟨hk, hp'⟩ : k.IsReset ∧ PoolReset pool' := by simpa [hacq] using acquireKeccak_reset hp pick
    cases hs : m.Sig with
    | error err => exact ⟨rfl, ⟨m.id, rfl⟩, hm, hp'⟩
    | ok sig =>
      have hsum := sum_write_of_reset keccak hk (bytesOf sig)
      simp only [hsum]
      exact ⟨rfl, ⟨_, rfl⟩, .inr ⟨sig, hs, rfl⟩, releaseKeccak_reset hp' _⟩

/-- `e.ID()` returns the hash of the signature, cached or not: the zero id fails the cache
    test, and a hash whose first 8 bytes are zero is computed again. It changes only the id
    of the event, which stays valid, and leaves the pool reset. -/
theorem Event.ID_spec {e : Event} (he : e.IdValid keccak) (hp : PoolReset pool)
    (pick : Option Nat) :
    (e.ID keccak pool pick).1 = e.Sig.map (fun sig => keccak (bytesOf sig)) ∧
      (∃ id, (e.ID keccak pool pick).2.1 = { e with id := id }) ∧
      (e.ID keccak pool pick).2.1.IdValid keccak ∧ PoolReset (e.ID keccak pool pick).2.2 := by
  unfold Event.ID
  split_ifs with hc
  · rcases he with h | ⟨sig, hs, hid⟩
    · rw [h] at hc
      exact absurd hc (by decide)
    · exact ⟨by rw [hs, hid]; rfl, ⟨e.id, rfl⟩, .inr ⟨sig, hs, hid⟩, hp⟩
  · rcases hacq : acquireKeccak pool pick with ⟨k, pool'⟩
    obtain ⟨hk, hp'⟩ : k.IsReset ∧ PoolReset pool' := by simpa [hacq] using acquireKeccak_reset hp pick
    cases hs : e.Sig with
    | error err => exact ⟨rfl, ⟨e.id, rfl⟩, he, hp'⟩
    | ok sig =>
      simp only [sum_write_of_reset keccak hk]
      exact ⟨rfl, ⟨_, rfl⟩, .inr ⟨sig, hs, rfl⟩, releaseKeccak_reset hp' _⟩

theorem Method.IdValid.clone {m : Method} (h : m.IdValid keccak) : m.clone.IdValid keccak := by
  rwa [Method.IdValid, Method.Sig_clone]

theorem Event.IdValid.clone {e : Event} (h : e.IdValid keccak) : e.clone.IdValid keccak := by
  rwa [Event.IdValid, Event.Sig_clone]

end

/-! ## Refinement -/

theorem set_of_getElem? {α : Type} {l : List α} {i : Nat} {a : α} (h : l[i]? = some a) :
    l.set i a = l := by
  refine List.ext_getElem? fun j => ?_
  rw [List.getElem?_set]
  split_ifs with hij hi
  · exact hij ▸ h.symm
  · rw [List.getElem?_eq_none (by omega)] at h
    cases h
  · rfl

section

variable (keccak : Bytes → Hash) {w : World}

theorem Inv.setMethod (hinv : Inv keccak w) {pool : List Hasher} (hp : PoolReset pool) {m : Method}
    (hm : m.IdValid keccak) (i : Nat) : Inv keccak { w with pool, methods := w.methods.set i m } :=
  ⟨hp, fun m' hm' => (List.mem_or_eq_of_mem_set hm').elim (hinv.methods_valid m') (· ▸ hm),
    hinv.events_valid⟩

theorem Inv.setEvent (hinv : Inv keccak w) {pool : List Hasher} (hp : PoolReset pool) {e : Event}
    (he : e.IdValid keccak) (i : Nat) : Inv keccak { w with pool, events := w.events.set i e } :=
  ⟨hp, hinv.methods_valid,
    fun e' he' => (List.mem_or_eq_of_mem_set he').elim (hinv.events_valid e') (· ▸ he)⟩

/-- One step from a world satisfying `Inv` answers as the abstract model, moves the
    abstraction as the abstract model moves, and keeps `Inv`. -/
theorem step_refines (hinv : Inv keccak w) (c : Call) :
    (step keccak w c).1 = (w.abs.step keccak c).1 ∧
      (step keccak w c).2.abs = (w.abs.step keccak c).2 ∧ Inv keccak (step keccak w c).2 := by
  cases c with
  | keccakHash data pick =>
    obtain ⟨hout, hp⟩ := keccakHash_spec keccak hinv.pool_reset pick data
    exact ⟨congrArg Except.ok hout, rfl, { hinv with pool_reset := hp }⟩
  | methodID i pick =>
    cases hi : w.methods[i]? with
    | none => simpa [step, Spec.step, World.abs, hi] using hinv
    | some m =>
      obtain ⟨hout, ⟨id, hm⟩, hv, hp⟩ :=
        Method.ID_spec keccak (hinv.methods_valid m (List.getElem?_mem hi)) hinv.pool_reset pick
      simp only [step, Spec.step, World.abs, hi, List.getElem?_map, Option.map_some', hout,
        List.map_set, hm]
      exact ⟨trivial, by rw [set_of_getElem? (by simp [hi]; rfl)], hinv.setMethod keccak hp (hm ▸ hv) i⟩
  | eventID i pick =>
    cases hi : w.events[i]? with
    | none => simpa [step, Spec.step, World.abs, hi] using hinv
    | some e =>
      obtain ⟨hout, ⟨id, he⟩, hv, hp⟩ :=
        Event.ID_spec keccak (hinv.events_valid e (List.getElem?_mem hi)) hinv.pool_reset pick
      simp only [step, Spec.step, World.abs, hi, List.getElem?_map, Option.map_some', hout,
        List.map_set, he]
      exact ⟨by cases e.Sig <;> rfl, by rw [set_of_getElem? (by simp [hi]; rfl)],
        hinv.setEvent keccak hp (he ▸ hv) i⟩
  | cloneMethod i =>
    refine ⟨rfl, ?_, ⟨hinv.pool_reset, fun m hm => ?_, hinv.events_valid⟩⟩
    · cases hi : w.methods[i]? <;>
        simp [step, Spec.step, World.abs, hi]
    · simp only [step, List.mem_append] at hm
      rcases hm with hm | hm
      · exact hinv.methods_valid m hm
      · obtain ⟨m₀, hm₀, rfl⟩ : ∃ m₀, w.methods[i]? = some m₀ ∧ m₀.clone = m := by simpa using hm
        exact (hinv.methods_valid m₀ (List.getElem?_mem hm₀)).clone keccak
  | cloneEvent i =>
    refine ⟨rfl, ?_, ⟨hinv.pool_reset, hinv.methods_valid, fun e he => ?_⟩⟩
    · cases hi : w.events[i]? <;>
        simp [step, Spec.step, World.abs, hi]
    · simp only [step, List.mem_append] at he
      rcases he with he | he
      · exact hinv.events_valid e he
      · obtain ⟨e₀, he₀, rfl⟩ : ∃ e₀, w.events[i]? = some e₀ ∧ e₀.clone = e := by simpa using he
        exact (hinv.events_valid e₀ (List.getElem?_mem he₀)).clone keccak
  | collect i =>
    exact ⟨rfl, rfl, { hinv with pool_reset := fun k hk => hinv.pool_reset k (List.mem_of_mem_eraseIdx hk) }⟩

theorem run_cons (w : World) (c : Call) (cs : List Call) :
    run keccak w (c :: cs) =
      ((step keccak w c).1 :: (run keccak (step keccak w c).2 cs).1, (run keccak (step keccak w c).2 cs).2) :=
  rfl

theorem Spec.run_cons (s : Spec) (c : Call) (cs : List Call) :
    s.run keccak (c :: cs) =
      ((s.step keccak c).1 :: ((s.step keccak c).2.run keccak cs).1,
        ((s.step keccak c).2.run keccak cs).2) :=
  rfl

/-- The abstract model only adds signatures: a method or event keeps its place. -/
theorem Spec.step_prefix (s : Spec) (c : Call) :
    s.methods <+: (s.step keccak c).2.methods ∧ s.events <+: (s.step keccak c).2.events := by
  cases c <;> simp [Spec.step, List.prefix_append, List.prefix_refl]

/-- Every run from a world satisfying `Inv` answers as the abstract model, whatever hashers
    the pool hands out and whatever the collector drops: `KeccakHash(d)` is the hash of
    `d`, `m.ID()` the first 4 bytes of the hash of `m.Sig()` and `e.ID()` the hash of
    `e.Sig()`, on a first call as on every later one. The abstraction follows the abstract
    run, the signatures held stay as they were, and the world still satisfies `Inv`: the
    pool holds only reset hashers between calls. -/
theorem run_refines (w : World) (hinv : Inv keccak w) (cs : List Call) :
    (run keccak w cs).1 = (w.abs.run keccak cs).1 ∧
      (run keccak w cs).2.abs = (w.abs.run keccak cs).2 ∧
      w.abs.methods <+: (run keccak w cs).2.abs.methods ∧
      w.abs.events <+: (run keccak w cs).2.abs.events ∧
      Inv keccak (run keccak w cs).2 := by
  induction cs generalizing w with
  | nil => exact ⟨rfl, rfl, List.prefix_refl _, List.prefix_refl _, hinv⟩
  | cons c cs ih =>
    obtain ⟨hout, habs, hinv'⟩ := step_refines keccak hinv c
    obtain ⟨hout', habs', hm, he, hinv''⟩ := ih _ hinv'
    obtain ⟨hm₁, he₁⟩ := w.abs.step_prefix keccak c
    rw [run_cons, Spec.run_cons, ← habs, hout]
    exact ⟨by rw [hout'], habs', hm₁.trans (habs ▸ hm), he₁.trans (habs ▸ he), hinv''⟩

end

/-- A stand-in for Keccak-256: the first 32 bytes of the input, padded with zeros, so that an
    id shows the bytes it was computed from. -/
def wordHash (data : Bytes) : Hash := ⟨(data ++ List.replicate 32 0).take 32, by simp⟩

/-- A method `f()` whose id is not computed yet, and an empty pool. -/
def fWorld : World := ⟨[], [⟨"f", false, argumentsType [], .nil, []⟩], []⟩

theorem run_refines_fWorld :
    Inv wordHash fWorld ∧
      (run wordHash fWorld [.methodID 0 none, .keccakHash [1] none, .methodID 0 (some 0)]).1 =
        (fWorld.abs.run wordHash [.methodID 0 none, .keccakHash [1] none, .methodID 0 (some 0)]).1 :=
  have hinv : Inv wordHash fWorld :=
    ⟨fun _ h => absurd h (List.not_mem_nil _), fun _ h => .inl (by simp [fWorld] at h; rw [h]),
      fun _ h => absurd h (List.not_mem_nil _)⟩
  ⟨hinv, (run_refines wordHash fWorld hinv _).1⟩

example : (run wordHash fWorld [.methodID 0 none, .methodID 0 (some 0)]).1 =
    [.ok [102, 40, 41, 0], .ok [102, 40, 41, 0]] := by decide

end Abi
