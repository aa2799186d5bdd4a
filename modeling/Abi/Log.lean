import Abi.Id

/-!
# Events from signatures, and logs

`NewEvent(name)` builds an event from a signature `name(types)`: `parseFunctionSignature`
cuts it at the first `(` and hands `tuple(types)` to `NewType`, the type parser of
`type.go`. `e.Match(log)` tells whether the first topic of a log is `e.ID()`, and
`e.ParseLog(log)` reads a log that matches with `Type.ParseLog`, also of `type.go`. The
two functions of `type.go` are not part of the model: they are the parameters `newType`
and `parseLog`.

* `parseFunctionSignature_eq_ok`: a signature is accepted exactly when it ends with `)`
  and has a `(`; it is cut at the first one, and `NewType` gets the rest after `tuple`.
  Any other is refused with one error (`parseFunctionSignature_malformed`);
* `matchLog_refines`: `Match` on an event of a world satisfying `Inv` answers whether the
  first topic is the hash of its signature, as the abstract model of `Abi.Id` says, and
  keeps `Inv`; `logRun_refines`: so does every run that mixes the calls of `Abi.Id` with
  calls of `Match`;
* `ParseLog_spec`: `ParseLog` answers what `Match` answers of the signature: its error,
  "log does not match this event", or what `Type.ParseLog` returns, error included,
  whether the event is anonymous or not;
* `NewEvent_roundTrip`: an event rebuilt by `NewEvent` from the signature of an event has
  its name and signature, and matches the same logs, when `NewType` reads back the types.
-/

namespace Abi

/-- A `web3.Log`, by what the events read of it: its topics, and its data, which only
    `Type.ParseLog` reads. -/
structure Log where
  topics : List Hash
  data : Bytes

/-! ## Signatures -/

/-- The position of the first `(` splits a list of characters around it. -/
theorem indexOf?_eq_some_iff {cs : List Char} {c : Char} {i : Nat} :
    cs.indexOf? c = some i ↔ ∃ pre post, cs = pre ++ c :: post ∧ c ∉ pre ∧ pre.length = i := by
  induction cs generalizing i with
  | nil => simp
  | cons x xs ih =>
    rw [List.indexOf?_cons]
    by_cases hx : x = c
    · -- the first character is the one looked for: nothing stands before it
      subst hx
      refine ⟨fun h => ⟨[], xs, by simp_all⟩, fun ⟨pre, post, hcs, hpre, hlen⟩ => ?_⟩
      cases pre with
      | nil => simp_all
      | cons a pre => simp_all
    · simp only [beq_iff_eq, hx, if_false, Option.map_eq_some', ih]
      constructor
      · rintro ⟨j, ⟨pre, post, rfl, hpre, rfl⟩, rfl⟩
        exact ⟨x :: pre, post, rfl, by simp [Ne.symm hx, hpre], rfl⟩
      · rintro ⟨pre, post, hcs, hpre, rfl⟩
        cases pre with
        | nil => simp_all
        | cons a pre =>
          simp only [List.cons_append, List.cons.injEq] at hcs
          exact ⟨pre.length, ⟨pre, post, hcs.2, fun h => hpre (List.mem_cons_of_mem _ h), rfl⟩, rfl⟩

section

variable (newType : String → Result Typ)

/-- `parseFunctionSignature(name)`: the name before the first `(`, and the type `NewType`
    gives for `tuple` followed by the rest. Go strings are bytes, and `strings.Index` gives a
    byte position; `(` and `)` are ASCII, never part of the encoding of another character,
    so cutting the characters at the first `(` cuts the bytes where the code does. -/
def parseFunctionSignature (name : String) : Result (String × Typ) :=
  if name.data.getLast? ≠ some ')' then fail "failed to parse input, expected 'name(types)'"
  else
    match name.data.indexOf? '(' with
    | none => fail "failed to parse input, expected 'name(types)'"
    | some indx => do
      let funcName := String.mk (name.data.take indx)
      let signature := "tuple" ++ String.mk (name.data.drop indx)
      let typ ← newType signature
      pure (funcName, typ)

/-- `NewEventFromType(name, typ)`: an event that is not anonymous and has no id yet. -/
def NewEventFromType (name : String) (typ : Typ) : Event := ⟨name, false, typ, Hash.zero⟩

/-- `NewEvent(name)`. -/
def NewEvent (name : String) : Result Event := do
  let (name, typ) ← parseFunctionSignature newType name
  pure (NewEventFromType name typ)

/-- `MustNewEvent(name)`: `NewEvent`, which panics with the error it returns. -/
def MustNewEvent (name : String) : Result Event :=
  match NewEvent newType name with
  | .error (.error msg) => .error (.panic msg)
  | r => r

/-- A signature `funcName(args` that ends with `)` is cut at its first `(`. -/
theorem parseFunctionSignature_of_split {name funcName : String} {args : List Char}
    (hname : name.data = funcName.data ++ '(' :: args) (hfn : '(' ∉ funcName.data)
    (hlast : name.data.getLast? = some ')') :
    parseFunctionSignature newType name =
      (fun typ => (funcName, typ)) <$> newType ("tuple" ++ String.mk ('(' :: args)) := by
  have hidx : name.data.indexOf? '(' = some funcName.length :=
    indexOf?_eq_some_iff.2 ⟨_, _, hname, hfn, rfl⟩
  have htake : name.data.take funcName.length = funcName.data := by
    rw [hname, String.length, List.take_left]
  have hdrop : name.data.drop funcName.length = '(' :: args := by
    rw [hname, String.length, List.drop_left]
  simp only [parseFunctionSignature, hlast, ne_eq, not_true_eq_false, if_false, hidx, htake, hdrop]
  cases newType ("tuple" ++ String.mk ('(' :: args)) <;> rfl

/-- A name that does not end with `)`, or has no `(`, is refused with the error of the
    function, whatever `NewType` does. -/
theorem parseFunctionSignature_malformed {name : String}
    (h : name.data.getLast? ≠ some ')' ∨ '(' ∉ name.data) :
    parseFunctionSignature newType name = fail "failed to parse input, expected 'name(types)'" := by
  unfold parseFunctionSignature
  split_ifs with hlast
  · rfl
  · have hnone : name.data.indexOf? '(' = none :=
      List.indexOf?_eq_none_iff.2 fun x hx hxe => (h.resolve_left hlast) (eq_of_beq hxe ▸ hx)
    rw [hnone]

/-- `parseFunctionSignature` accepts exactly the names `funcName(args` that end with `)`,
    where `funcName` has no `(`, and whose `tuple(args` `NewType` accepts. -/
theorem parseFunctionSignature_eq_ok (name funcName : String) (typ : Typ) :
    parseFunctionSignature newType name = .ok (funcName, typ) ↔
      ∃ args, name.data = funcName.data ++ '(' :: args ∧ '(' ∉ funcName.data ∧
        name.data.getLast? = some ')' ∧ newType ("tuple" ++ String.mk ('(' :: args)) = .ok typ := by
  constructor
  · intro h
    by_cases hlast : name.data.getLast? = some ')'
    · cases hidx : name.data.indexOf? '(' with
      | none => simp [parseFunctionSignature, hlast, hidx, fail] at h
      | some indx =>
        obtain ⟨pre, post, hcs, hpre, rfl⟩ := indexOf?_eq_some_iff.1 hidx
        rw [@parseFunctionSignature_of_split newType _ ⟨pre⟩ _ hcs hpre hlast, map_eq_ok] at h
        obtain ⟨typ', hnt, hpair⟩ := h
        cases hpair
        exact ⟨post, hcs, hpre, hlast, hnt⟩
    · simp [parseFunctionSignature, hlast, fail] at h
  · rintro ⟨args, hname, hfn, hlast, hnt⟩
    rw [parseFunctionSignature_of_split newType hname hfn hlast, hnt]
    rfl

end

/-! ## Matching logs -/

section

variable (keccak : Bytes → Hash)

/-- `e.Match(log)`: false on a log with no topics, and otherwise whether the first topic is
    `e.ID()`, which it computes and caches if it has to. -/
def Event.Match (e : Event) (log : Log) (pool : List Hasher) (pick : Option Nat) :
    Result Bool × Event × List Hasher :=
  match log.topics with
  | [] => (.ok false, e, pool)
  | topic :: _ =>
    let (id, e, pool) := e.ID keccak pool pick
    (id.map fun id => if topic ≠ id then false else true, e, pool)

/-- `e.ParseLog(log)`: `e.Inputs.ParseLog(log)` on a log that matches the event, and an error
    on one that does not. `Type.ParseLog` is the parameter `parseLog`. -/
def Event.ParseLog {α : Type} (parseLog : Typ → Log → Result α) (e : Event) (log : Log)
    (pool : List Hasher) (pick : Option Nat) : Result α × Event × List Hasher :=
  let (m, e, pool) := e.Match keccak log pool pick
  match m with
  | .error err => (.error err, e, pool)
  | .ok false => (fail "log does not match this event", e, pool)
  | .ok true => (parseLog e.inputs log, e, pool)

/-- What `Match` answers for an event of signature `sig`, with no pool and no cache. -/
def matchSig (sig : Result String) (log : Log) : Result Bool :=
  match log.topics with
  | [] => .ok false
  | topic :: _ => sig.map fun sig => decide (topic = keccak (bytesOf sig))

/-- `Match` on the event at `i` of a world. A nil event answers false on a log with no
    topics, and panics reading its id on any other. -/
def World.matchLog (w : World) (i : Nat) (log : Log) (pick : Option Nat) : Result Bool × World :=
  match w.events[i]? with
  | none => (if log.topics = [] then .ok false else nilDereference, w)
  | some e =>
    let (out, e, pool) := e.Match keccak log w.pool pick
    (out, { w with pool, events := w.events.set i e })

/-- `Match` in the abstract model of `Abi.Id`. -/
def Spec.matchLog (s : Spec) (i : Nat) (log : Log) : Result Bool :=
  match s.events[i]? with
  | none => if log.topics = [] then .ok false else nilDereference
  | some sig => matchSig keccak sig log

end

section

variable (keccak : Bytes → Hash) {pool : List Hasher}

/-- `e.Match(log)` answers as `matchSig` of the signature; it changes only the id of the
    event, which stays valid, and leaves the pool reset. -/
theorem Event.Match_spec {e : Event} (he : e.IdValid keccak) (hp : PoolReset pool) (log : Log)
    (pick : Option Nat) :
    (e.Match keccak log pool pick).1 = matchSig keccak e.Sig log ∧
      (∃ id, (e.Match keccak log pool pick).2.1 = { e with id := id }) ∧
      (e.Match keccak log pool pick).2.1.IdValid keccak ∧
      PoolReset (e.Match keccak log pool pick).2.2 := by
  unfold Event.Match matchSig
  cases log.topics with
  | nil => exact ⟨rfl, ⟨e.id, rfl⟩, he, hp⟩
  | cons topic _ =>
    obtain ⟨hout, hid, hv, hp'⟩ := Event.ID_spec keccak he hp pick
    rcases h : e.ID keccak pool pick with ⟨out, e', pool'⟩
    simp only [h] at hout hid hv hp' ⊢
    refine ⟨?_, hid, hv, hp'⟩
    rw [hout]
    cases e.Sig <;> simp [Except.map, eq_comm]

/-- `Match` on an event of a world satisfying `Inv` answers as the abstract model, leaves
    the signatures of the world as they were, and keeps `Inv`. -/
theorem matchLog_refines {w : World} (hinv : Inv keccak w) (i : Nat) (log : Log) (pick : Option Nat) :
    (w.matchLog keccak i log pick).1 = w.abs.matchLog keccak i log ∧
      (w.matchLog keccak i log pick).2.abs = w.abs ∧ Inv keccak (w.matchLog keccak i log pick).2 := by
  unfold World.matchLog Spec.matchLog
  cases hi : w.events[i]? with
  | none => simp [World.abs, hi, hinv]
  | some e =>
    obtain ⟨hout, ⟨id, he⟩, hv, hp⟩ :=
      Event.Match_spec keccak (hinv.events_valid e (List.getElem?_mem hi)) hinv.pool_reset log pick
    rcases h : e.Match keccak log w.pool pick with ⟨out, e', pool'⟩
    simp only [h] at hout he hv hp ⊢
    subst hout he
    simp only [World.abs, List.getElem?_map, hi, Option.map_some', List.map_set]
    exact ⟨trivial, by rw [set_of_getElem? (by simp [hi]; rfl)], hinv.setEvent keccak hp hv i⟩

/-- An event `Sent(bool indexed ok, string memo)` whose id is not computed yet. -/
def sentEvent : Event :=
  NewEventFromType "Sent" (argumentsType [⟨"ok", boolType, true⟩, ⟨"memo", stringType, false⟩])

/-- `e.ParseLog(log)` on an event satisfying `Inv`: the error of `Match`, which comes from
    the signature, "log does not match this event" when the first topic is not the hash of
    the signature or there is none, and otherwise what `Type.ParseLog` returns, error
    included; anonymous or not. -/
theorem ParseLog_spec {α : Type} (parseLog : Typ → Log → Result α) {e : Event}
    (he : e.IdValid keccak) (hp : PoolReset pool) (log : Log) (pick : Option Nat) :
    (e.ParseLog keccak parseLog log pool pick).1 =
      matchSig keccak e.Sig log >>= fun m =>
        if m then parseLog e.inputs log else fail "log does not match this event" := by
  obtain ⟨hout, ⟨id, he'⟩, -, -⟩ := Event.Match_spec keccak he hp log pick
  unfold Event.ParseLog
  rcases h : e.Match keccak log pool pick with ⟨m, e', pool'⟩
  simp only [h] at hout he' ⊢
  subst hout he'
  cases matchSig keccak e.Sig log with
  | error err => rfl
  | ok m => cases m <;> rfl

/-- An anonymous event reads no log without topics: its first topic is checked all the
    same. -/
theorem ParseLog_spec_anonymous :
    { sentEvent with anonymous := true }.IdValid wordHash ∧ PoolReset [] ∧
      ({ sentEvent with anonymous := true }.ParseLog wordHash (fun _ _ => .ok ()) ⟨[], []⟩ [] none).1 =
        fail "log does not match this event" :=
  have hp : PoolReset [] := fun _ h => absurd h (List.not_mem_nil _)
  ⟨.inl rfl, hp, by rw [ParseLog_spec wordHash (fun _ _ => .ok ()) (.inl rfl) hp ⟨[], []⟩ none]; rfl⟩

end

/-! ## Runs with logs -/

/-- What the program does next: a call of `Abi.Id`, or `Match` of a log on the event at an
    index, taking the pool's hasher at `pick` if it computes the id. -/
inductive LogCall
  | call (c : Call)
  | matchLog (i : Nat) (log : Log) (pick : Option Nat)

/-- What a call answers: the bytes of a call of `Abi.Id`, the boolean of `Match`. -/
abbrev Answer := Result Bytes ⊕ Result Bool

section

variable (keccak : Bytes → Hash)

/-- One call of the program with logs. -/
def World.logStep (w : World) : LogCall → Answer × World
  | .call c =>
    let (out, w) := step keccak w c
    (.inl out, w)
  | .matchLog i log pick =>
    let (out, w) := w.matchLog keccak i log pick
    (.inr out, w)

/-- A run of the program with logs: its answers, and the last world. -/
def World.logRun (w : World) : List LogCall → List Answer × World
  | [] => ([], w)
  | c :: cs =>
    let (out, w) := w.logStep keccak c
    let (outs, w) := w.logRun cs
    (out :: outs, w)

/-- A call in the abstract model, where `Match` compares the first topic with the hash of
    the signature. -/
def Spec.logStep (s : Spec) : LogCall → Answer × Spec
  | .call c =>
    let (out, s) := s.step keccak c
    (.inl out, s)
  | .matchLog i log _ => (.inr (s.matchLog keccak i log), s)

/-- A run of the abstract model. -/
def Spec.logRun (s : Spec) : List LogCall → List Answer × Spec
  | [] => ([], s)
  | c :: cs =>
    let (out, s) := s.logStep keccak c
    let (outs, s) := s.logRun cs
    (out :: outs, s)

/-- One call from a world satisfying `Inv` answers as the abstract model, moves the
    abstraction as the abstract model moves, and keeps `Inv`. -/
theorem logStep_refines {w : World} (hinv : Inv keccak w) (c : LogCall) :
    (w.logStep keccak c).1 = (w.abs.logStep keccak c).1 ∧
      (w.logStep keccak c).2.abs = (w.abs.logStep keccak c).2 ∧ Inv keccak (w.logStep keccak c).2 := by
  cases c with
  | call c =>
    obtain ⟨hout, habs, hinv'⟩ := step_refines keccak hinv c
    exact ⟨congrArg Sum.inl hout, habs, hinv'⟩
  | matchLog i log pick =>
    obtain ⟨hout, habs, hinv'⟩ := matchLog_refines keccak hinv i log pick
    exact ⟨congrArg Sum.inr hout, habs, hinv'⟩

/-- Every run from a world satisfying `Inv`, whatever its calls of `KeccakHash`, `ID`,
    `Clone` and `Match` in whatever order, and whatever hashers the pool hands out, answers
    as the abstract model: every `Match` is whether the first topic of the log is the hash
    of the signature of the event, whether its id was cached, computed then, or copied by a
    clone. The last world still satisfies `Inv`. -/
theorem logRun_refines (w : World) (hinv : Inv keccak w) (cs : List LogCall) :
    (w.logRun keccak cs).1 = (w.abs.logRun keccak cs).1 ∧
      (w.logRun keccak cs).2.abs = (w.abs.logRun keccak cs).2 ∧ Inv keccak (w.logRun keccak cs).2 := by
  induction cs generalizing w with
  | nil => exact ⟨rfl, rfl, hinv⟩
  | cons c cs ih =>
    obtain ⟨hout, habs, hinv'⟩ := logStep_refines keccak hinv c
    obtain ⟨hout', habs', hinv''⟩ := ih _ hinv'
    simp only [World.logRun, Spec.logRun]
    rw [← habs, ← hout, ← hout', ← habs']
    exact ⟨rfl, rfl, hinv''⟩

end

/-! ## Events rebuilt from their signatures -/

/-- The canonical types of the elements of a tuple type, which `buildSignature` lists. -/
def Typ.elemRaws (t : Typ) : Result (List String) := do
  (← t.tupleOf).mapM fun input => input.elem.rawOf

theorem buildSignature_eq_map (name : String) (t : Typ) :
    buildSignature name t = (fun types => name ++ "(" ++ ",".intercalate types ++ ")") <$> t.elemRaws := by
  unfold buildSignature Typ.elemRaws
  cases t.tupleOf with
  | error err => rfl
  | ok elems => cases elems.mapM fun input => input.elem.rawOf <;> rfl

section

variable (newType : String → Result Typ) (keccak : Bytes → Hash)

/-- The signature of an event whose name has no `(`, and whose element types `NewType` reads
    back, gives back under `NewEvent` an event of that name and signature, which matches the
    logs the first one matches, whatever the pools the two ids are computed with. -/
theorem NewEvent_roundTrip (e : Event) (hname : '(' ∉ e.name.data) (types : List String)
    (htypes : e.inputs.elemRaws = .ok types) (t : Typ)
    (hnt : newType ("tuple(" ++ ",".intercalate types ++ ")") = .ok t) (ht : t.elemRaws = .ok types) :
    (e.Sig >>= NewEvent newType) = .ok (NewEventFromType e.name t) ∧
      (NewEventFromType e.name t).Sig = e.Sig ∧
      ∀ log pool pool' pick pick', e.IdValid keccak → PoolReset pool → PoolReset pool' →
        ((NewEventFromType e.name t).Match keccak log pool pick).1 = (e.Match keccak log pool' pick').1 := by
  have hsig : e.Sig = .ok (e.name ++ "(" ++ ",".intercalate types ++ ")") := by
    rw [Event.Sig, buildSignature_eq_map, htypes]; rfl
  have hsig' : (NewEventFromType e.name t).Sig = e.Sig := by
    rw [hsig, Event.Sig, buildSignature_eq_map, show (NewEventFromType e.name t).inputs = t from rfl, ht]
    rfl
  -- the signature is the name, `(`, and the rest, which ends with `)`
  have hsplit : (e.name ++ "(" ++ ",".intercalate types ++ ")").data =
      e.name.data ++ '(' :: ((",".intercalate types).data ++ [')']) := by simp
  have hparse := parseFunctionSignature_of_split newType hsplit hname
    (by rw [hsplit, ← List.cons_append, ← List.append_assoc, List.getLast?_concat])
  rw [show "tuple" ++ String.mk ('(' :: ((",".intercalate types).data ++ [')'])) =
    "tuple(" ++ ",".intercalate types ++ ")" from String.ext (by simp), hnt] at hparse
  refine ⟨by rw [hsig, bind_ok, NewEvent, hparse]; rfl, hsig', fun log pool pool' pick pick' he hp hp' => ?_⟩
  rw [(Event.Match_spec keccak (.inl rfl) hp log pick).1, (Event.Match_spec keccak he hp' log pick').1, hsig']

end

/-- The type `NewType` gives for `tuple(bool,string)`. -/
def sentType : Typ := argumentsType [⟨"", boolType, false⟩, ⟨"", stringType, false⟩]

theorem NewEvent_roundTrip_sentEvent :
    '(' ∉ sentEvent.name.data ∧ sentEvent.inputs.elemRaws = .ok ["bool", "string"] ∧
      sentType.elemRaws = .ok ["bool", "string"] ∧
      (sentEvent.Sig >>= NewEvent fun s => if s = "tuple(bool,string)" then .ok sentType else fail "") =
        .ok (NewEventFromType sentEvent.name sentType) :=
  ⟨by decide, rfl, rfl, (NewEvent_roundTrip (fun s => if s = "tuple(bool,string)" then .ok sentType else fail "")
    wordHash sentEvent (by decide) ["bool", "string"] rfl sentType rfl rfl).1⟩

end Abi
