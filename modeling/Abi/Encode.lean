import Abi.Decode.Static
import Mathlib.Tactic.NormNum

/-!
# The encoder

`src/` holds the decoder but not the encoder, so `enc` is modelled from the spec (§4.6):
an atomic value is one 32-byte word; a string or bytes value is its length, its bytes and
zero padding to a multiple of 32; a tuple, an array and the elements of a slice are laid
out in two regions, the heads of the elements in order, where a dynamic element has the
offset of its encoding from the start of the region, and then the encodings of the dynamic
elements (`headTail`). `inDomain t v` is the input validation of §4.6: the values of the
shape of `t`, integers in range and byte strings of the declared length.

The readers of `decode.go` read back what `enc` writes in one word:

* `decode_enc_bool`, `decode_enc_address`, `decode_enc_fixedBytes`,
  `decode_enc_function`, and `decode_enc_int` for the integers, by the native width
  `readInteger` reads them at (`IntRange`);
* `decode_enc_string`, `decode_enc_bytes`: a string or bytes value that is not empty, and
  shorter than 2^63 bytes, the bound `readLength` checks.
-/

namespace Abi

/-- Modelled from the spec: `n` zero bytes. -/
def zeros (n : Nat) : Bytes := List.replicate n 0

/-- Modelled from the spec: how many zero bytes pad `n` bytes to a multiple of 32. -/
def padLen (n : Nat) : Nat := (32 - n % 32) % 32

/-- Modelled from the spec: a string or bytes value, its length, its bytes, and zero
    padding. -/
def encPayload (b : Bytes) : Bytes := word b.length ++ b ++ zeros (padLen b.length)

/-! ## Heads and tails -/

/-- Modelled from the spec: the heads of the parts of a region, each part given by whether
    it is dynamic and its encoding; `off` is where the encoding of the next dynamic part
    starts. -/
def heads : Nat → List (Bool × Bytes) → Bytes
  | _, [] => []
  | off, (d, b) :: ps => if d then word off ++ heads (off + b.length) ps else b ++ heads off ps

/-- Modelled from the spec: the encodings of the dynamic parts, in order. -/
def tails : List (Bool × Bytes) → Bytes
  | [] => []
  | (d, b) :: ps => (if d then b else []) ++ tails ps

/-- Modelled from the spec: the length of the heads. -/
def headLen : List (Bool × Bytes) → Nat
  | [] => 0
  | (d, b) :: ps => (if d then 32 else b.length) + headLen ps

/-- Modelled from the spec: the region of the parts, their heads and then their tails. -/
def headTail (ps : List (Bool × Bytes)) : Bytes := heads (headLen ps) ps ++ tails ps

@[simp] theorem length_heads : ∀ (off : Nat) (ps : List (Bool × Bytes)),
    (heads off ps).length = headLen ps
  | _, [] => rfl
  | off, (d, b) :: ps => by cases d <;> simp [heads, headLen, length_heads]

/-- Without dynamic parts, the heads are the encodings one after the other. -/
theorem heads_static : ∀ (off : Nat) {ps : List (Bool × Bytes)}, (∀ p ∈ ps, p.1 = false) →
    heads off ps = (ps.map Prod.snd).flatten
  | _, [], _ => rfl
  | off, (d, b) :: ps, h => by
    obtain rfl : d = false := h _ (List.mem_cons_self _ _)
    simp only [heads, Bool.false_eq_true, if_false, List.map_cons, List.flatten_cons,
      heads_static off fun p hp => h p (List.mem_cons_of_mem _ hp)]

theorem tails_static : ∀ {ps : List (Bool × Bytes)}, (∀ p ∈ ps, p.1 = false) → tails ps = []
  | [], _ => rfl
  | (d, b) :: ps, h => by
    obtain rfl : d = false := h _ (List.mem_cons_self _ _)
    simp only [tails, Bool.false_eq_true, if_false, List.nil_append,
      tails_static fun p hp => h p (List.mem_cons_of_mem _ hp)]

theorem headTail_static {ps : List (Bool × Bytes)} (h : ∀ p ∈ ps, p.1 = false) :
    headTail ps = (ps.map Prod.snd).flatten := by
  rw [headTail, heads_static _ h, tails_static h, List.append_nil]

/-! ## Values -/

/-- Modelled from the spec (§4.6): the encoding of a value of a type of kind `kind` that
    is not a tuple, an array or a slice; a value of another shape has none. -/
def encLeaf : Kind → Value → Bytes
  | .bool, .bool b => word (if b then 1 else 0)
  | .int, .int i | .uInt, .int i => word (i % 2 ^ 256).toNat
  | .address, .address a => zeros 12 ++ a
  | .fixedBytes, .fixedBytes b => b ++ zeros (32 - b.length)
  | .function, .function f => f ++ zeros 8
  | .string, .string s | .bytes, .bytes s => encPayload s
  | _, _ => []

mutual
/-- Modelled from the spec (§4.6): the encoding of the value `v` of type `t`; a value of
    another shape has none. -/
def enc : Typ → Value → Bytes
  | .mk .slice _ e _ _ _, v =>
    match v with
    | .array vs => word vs.length ++ headTail (vs.map fun v => (e.isDynamicType, enc e v))
    | _ => []
  | .mk .array _ e _ _ _, v =>
    match v with
    | .array vs => headTail (vs.map fun v => (e.isDynamicType, enc e v))
    | _ => []
  | .mk .tuple _ _ (some elems) _ _, v =>
    match v with
    | .tuple entries => headTail (encElems elems entries)
    | _ => []
  | .mk kind .., v => encLeaf kind v
  | .nil, _ => []

/-- Modelled from the spec: the parts of a tuple region, one per element. -/
def encElems : List TupleElem → List (String × Value) → List (Bool × Bytes)
  | .mk _ e _ :: elems, (_, v) :: entries => (e.isDynamicType, enc e v) :: encElems elems entries
  | _, _ => []
end

/-- Modelled from the spec: `i` in the range of a signed or unsigned integer of `bits`
    bits. -/
def IntRange (signed : Bool) (bits : Nat) (i : Int) : Prop :=
  if signed then -2 ^ (bits - 1) ≤ i ∧ i < 2 ^ (bits - 1) else 0 ≤ i ∧ i < 2 ^ bits

instance (signed : Bool) (bits : Nat) (i : Int) : Decidable (IntRange signed bits i) :=
  inferInstanceAs (Decidable (if signed then _ else _))

/-- Modelled from the spec (§4.6, input validation): a value of a type of kind `kind` and
    size `size` that is not an array, a slice or a tuple with elements: an integer in the
    range of its width, bytes of the declared length. -/
def inDomainLeaf : Kind → Int → Value → Bool
  | .bool, _, .bool _ => true
  | .int, size, .int i => decide (IntRange true size.toNat i)
  | .uInt, size, .int i => decide (IntRange false size.toNat i)
  | .address, _, .address a => a.length = 20
  | .fixedBytes, size, .fixedBytes b => b.length = size
  | .function, _, .function f => f.length = 24
  | .string, _, .string _ | .bytes, _, .bytes _ => true
  | .tuple, _, .tuple entries => entries.isEmpty
  | _, _, _ => false

mutual
/-- Modelled from the spec (§4.6, input validation): `v` is a value of type `t`, its
    integers in range, its byte strings of the declared length, its arrays of the declared
    size and its tuples with an entry per element, under the element's name or index. -/
def inDomain : Typ → Value → Bool
  | .mk .slice _ e _ _ _, v =>
    match v with
    | .array vs => vs.all (inDomain e)
    | _ => false
  | .mk .array size e _ _ _, v =>
    match v with
    | .array vs => vs.length = size && vs.all (inDomain e)
    | _ => false
  | .mk .tuple _ _ (some elems) _ _, v =>
    match v with
    | .tuple entries => inDomainElems elems 0 entries
    | _ => false
  | .mk kind size .., v => inDomainLeaf kind size v
  | .nil, _ => false

/-- Modelled from the spec: the entries of a tuple from the element `indx` on. -/
def inDomainElems : List TupleElem → Nat → List (String × Value) → Bool
  | [], _, [] => true
  | .mk name e _ :: elems, indx, (key, v) :: entries =>
    key = entryName name indx && inDomain e v && inDomainElems elems (indx + 1) entries
  | _, _, _ => false
end

/-! ## Words -/

/-- A branch of `decode` reading one word reads back a word its reader accepts. -/
theorem decodeWord_append_word {read : Bytes → Result Value} {w : Bytes} {v : Value}
    (hw : w.length = 32) (h : read w = .ok v) (c : Bytes) :
    decodeWord read (w ++ c) = .ok (v, c) :=
  decodeWord_eq_ok.2 ⟨by simp [hw], by rwa [List.take_left' hw],
    (List.drop_left' hw).symm⟩

theorem lastBytes_word {k : Nat} (hk : k ≤ 32) (n : Nat) : lastBytes k (word n) = .ok (beBytes k n) := by
  have hsplit : word n = beBytes (32 - k) (n / 256 ^ k) ++ beBytes k n := by
    rw [word, ← beBytes_add, Nat.sub_add_cancel hk]
  rw [lastBytes, length_word, show ((32 : Nat) : Int) - k = ((32 - k : Nat) : Int) by omega,
    sliceFrom_ok (by simp), hsplit, List.drop_left' (by simp)]

/-! ## Integers -/

/-- The width `readInteger` reads an integer of reflect type `rt` at. -/
def RType.bits : RType → Nat
  | .uint8 | .int8 => 8
  | .uint16 | .int16 => 16
  | .uint32 | .int32 => 32
  | .uint64 | .int64 => 64
  | _ => 256

/-- Whether `readInteger` reads an integer of kind `kind` and reflect type `rt` as signed. -/
def RType.signed (kind : Kind) : RType → Bool
  | .int8 | .int16 | .int32 | .int64 => true
  | .other => kind != .uInt
  | _ => false

/-- The width of a power of two, one bit less. -/
theorem two_pow_pred {bits : Nat} (hb : 0 < bits) : (2 : Int) ^ bits = 2 * 2 ^ (bits - 1) := by
  rw [← pow_succ']
  congr 1
  omega

/-- The least residue of `i` modulo `2 ^ bits`, for `i` no less than `-2 ^ bits`. -/
theorem toNat_emod_pow {bits : Nat} {i : Int} (h₁ : -2 ^ bits ≤ i) (h₂ : i < 2 ^ bits) :
    ((i % 2 ^ bits).toNat : Int) = if i < 0 then i + 2 ^ bits else i := by
  rw [Int.toNat_of_nonneg (Int.emod_nonneg _ (by positivity))]
  split_ifs with h
  · rw [← Int.add_emod_self, Int.emod_eq_of_lt (by omega) (by omega)]
  · exact Int.emod_eq_of_lt (by omega) h₂

/-- A `bits`-bit two's-complement number is in the signed range of its width. -/
theorem toSigned_range {bits n : Nat} (hb : 0 < bits) (hn : n < 2 ^ bits) :
    IntRange true bits (toSigned bits n) := by
  have h2 := two_pow_pred hb
  have hn' : (n : Int) < 2 ^ bits := by exact_mod_cast hn
  have hpos : (0 : Int) < 2 ^ (bits - 1) := by positivity
  simp only [IntRange, toSigned, if_true]
  split_ifs with h
  · have : (n : Int) < 2 ^ (bits - 1) := by exact_mod_cast h
    omega
  · have : (2 : Int) ^ (bits - 1) ≤ n := by exact_mod_cast not_lt.1 h
    omega

/-- The `bits`-bit two's-complement number of an integer in the signed range is that
    integer. -/
theorem toSigned_emod {bits : Nat} {i : Int} (hb : 0 < bits) (hi : IntRange true bits i) :
    toSigned bits (i % 2 ^ bits).toNat = i := by
  have h2 := two_pow_pred hb
  have hpos : (0 : Int) < 2 ^ (bits - 1) := by positivity
  simp only [IntRange, if_true] at hi
  have hmod := @toNat_emod_pow bits i (by omega) (by omega)
  simp only [toSigned]
  split_ifs with h
  · have : ((i % 2 ^ bits).toNat : Int) < 2 ^ (bits - 1) := by exact_mod_cast h
    split_ifs at hmod <;> omega
  · have : (2 : Int) ^ (bits - 1) ≤ (i % 2 ^ bits).toNat := by exact_mod_cast not_lt.1 h
    split_ifs at hmod <;> omega

/-- An integer in the unsigned range of its width is its own least residue. -/
theorem toNat_emod_of_range {bits : Nat} {i : Int} (hi : IntRange false bits i) :
    ((i % 2 ^ bits).toNat : Int) = i := by
  simp only [IntRange, Bool.false_eq_true, if_false] at hi
  rw [toNat_emod_pow (by omega) hi.2, if_neg (by omega)]

/-- The last `k` bytes of the word of `i` hold `i` modulo `2 ^ (8 * k)`. -/
theorem lastBytes_word_emod {k : Nat} (hk : k ≤ 32) (i : Int) :
    ∃ x, lastBytes k (word (i % 2 ^ 256).toNat) = .ok x ∧ beNat x = (i % 2 ^ (8 * k)).toNat := by
  refine ⟨_, lastBytes_word hk _, ?_⟩
  have hdvd : (2 : Int) ^ (8 * k) ∣ 2 ^ 256 := pow_dvd_pow 2 (by omega)
  have hcast : ((beNat (beBytes k (i % 2 ^ 256).toNat) : Nat) : Int) = i % 2 ^ (8 * k) := by
    rw [beNat_beBytes, show (256 : Nat) ^ k = 2 ^ (8 * k) by rw [pow_mul]; norm_num]
    simp only [Int.natCast_mod, Int.natCast_pow, Nat.cast_ofNat]
    rw [Int.toNat_of_nonneg (Int.emod_nonneg _ (by positivity)), Int.emod_emod_of_dvd i hdvd]
  rw [← Int.toNat_of_nonneg (Int.emod_nonneg i (by positivity) : (0 : Int) ≤ i % 2 ^ (8 * k))] at hcast
  exact_mod_cast hcast

/-- A read of the last `k` bytes as an unsigned number reads back an integer of that
    width. -/
theorem lastBytes_unsigned {k : Nat} {i : Int} (hk : k ≤ 32) (hi : IntRange false (8 * k) i) :
    (lastBytes k (word (i % 2 ^ 256).toNat) >>= fun x => pure (beNat x : Int)) = .ok i := by
  obtain ⟨x, hx, hb⟩ := lastBytes_word_emod hk i
  rw [hx, bind_ok, hb, toNat_emod_of_range hi]
  rfl

/-- A read of the last `k` bytes as a signed number reads back an integer of that
    width. -/
theorem lastBytes_signed {k : Nat} {i : Int} (hk : k ≤ 32) (hk₀ : 0 < k) (hi : IntRange true (8 * k) i) :
    (lastBytes k (word (i % 2 ^ 256).toNat) >>= fun x => pure (toSigned (8 * k) (beNat x))) = .ok i := by
  obtain ⟨x, hx, hb⟩ := lastBytes_word_emod hk i
  rw [hx, bind_ok, hb, toSigned_emod (by omega) hi]
  rfl

/-- The branch of `readInteger` for a signed `*big.Int` is two's complement over 256 bits. -/
theorem toSigned_256 (n : Nat) :
    (if (n : Int) > 2 ^ 255 - 1 then pure (-((2 ^ 256 - 1) - (n : Int) + 1)) else pure (n : Int) : Result Int) =
      pure (toSigned 256 n) := by
  -- the powers as casts of natural numbers, which `omega` reads as literals
  have h255 : (2 : Int) ^ 255 = ((2 ^ 255 : Nat) : Int) := by norm_num
  have h256 : (2 : Int) ^ 256 = ((2 ^ 256 : Nat) : Int) := by norm_num
  simp only [toSigned, Nat.reduceSub, h255, h256]
  by_cases h : n < 2 ^ 255
  · rw [if_neg (by omega), if_pos h]
  · rw [if_pos (by omega), if_neg h]
    exact congrArg pure (by omega)

theorem lastBytes_lt {k : Nat} {w x : Bytes} (hk : k ≤ 32) (hw : w.length = 32) (h : lastBytes k w = .ok x) :
    beNat x < 2 ^ (8 * k) := by
  rw [lastBytes, hw, show ((32 : Nat) : Int) - k = ((32 - k : Nat) : Int) by omega, sliceFrom_ok (by omega)] at h
  cases h
  have hlt := beNat_lt (w.drop (32 - k))
  rwa [List.length_drop, hw, show 32 - (32 - k) = k by omega, show (256 : Nat) ^ k = 2 ^ (8 * k) by
    rw [pow_mul]; norm_num] at hlt

/-- An unsigned read of the last `k` bytes of a word is in the unsigned range of `8 * k`
    bits. -/
theorem lastBytes_unsigned_range {k : Nat} {w : Bytes} {i : Int} (hk : k ≤ 32) (hw : w.length = 32)
    (h : (lastBytes k w >>= fun x => pure (beNat x : Int)) = .ok i) : IntRange false (8 * k) i := by
  obtain ⟨x, hx, h⟩ := bind_eq_ok.1 h
  cases h
  have := lastBytes_lt hk hw hx
  simp only [IntRange, Bool.false_eq_true, if_false]
  exact ⟨by positivity, by exact_mod_cast this⟩

/-- A signed read of the last `k` bytes of a word is in the signed range of `8 * k` bits. -/
theorem lastBytes_signed_range {k : Nat} {w : Bytes} {i : Int} (hk : k ≤ 32) (hk₀ : 0 < k)
    (hw : w.length = 32) (h : (lastBytes k w >>= fun x => pure (toSigned (8 * k) (beNat x))) = .ok i) :
    IntRange true (8 * k) i := by
  obtain ⟨x, hx, h⟩ := bind_eq_ok.1 h
  cases h
  exact toSigned_range (by omega) (lastBytes_lt hk hw hx)

/-- What `readInteger` reads from a word is in the range of its native width. -/
theorem readInteger_range {kind : Kind} {size : Int} {e : Typ} {tu : Option (List TupleElem)}
    {raw : String} {rt : RType} {w : Bytes} {i : Int} (hw : w.length = 32)
    (h : readInteger (.mk kind size e tu raw rt) w = .ok i) : IntRange (rt.signed kind) rt.bits i := by
  cases rt
  case nil => cases h
  case uint8 => exact @lastBytes_unsigned_range 1 w i (by decide) hw h
  case uint16 => exact @lastBytes_unsigned_range 2 w i (by decide) hw h
  case uint32 => exact @lastBytes_unsigned_range 4 w i (by decide) hw h
  case uint64 => exact @lastBytes_unsigned_range 8 w i (by decide) hw h
  case int8 => exact @lastBytes_signed_range 1 w i (by decide) (by decide) hw h
  case int16 => exact @lastBytes_signed_range 2 w i (by decide) (by decide) hw h
  case int32 => exact @lastBytes_signed_range 4 w i (by decide) (by decide) hw h
  case int64 => exact @lastBytes_signed_range 8 w i (by decide) (by decide) hw h
  case other =>
    -- the whole word, unsigned for `uint` and in two's complement over 256 bits else
    have hlt : beNat w < 2 ^ 256 := by simpa [hw] using beNat_lt w
    simp only [readInteger] at h
    by_cases hk : kind = .uInt
    · rw [if_pos hk] at h
      cases h
      simp only [RType.signed, hk, bne_self_eq_false, RType.bits, IntRange, Bool.false_eq_true, if_false]
      exact ⟨by positivity, by exact_mod_cast hlt⟩
    · rw [if_neg hk, toSigned_256] at h
      cases h
      have hs : RType.signed kind .other = true := bne_iff_ne.2 hk
      rw [hs]
      exact toSigned_range (by decide) hlt

/-- `readInteger` reads back the two's-complement word of an integer in the range of its
    native width. -/
theorem readInteger_word {kind : Kind} {size : Int} {e : Typ} {tu : Option (List TupleElem)}
    {raw : String} {rt : RType} (hrt : rt ≠ .nil) {i : Int} (hi : IntRange (rt.signed kind) rt.bits i) :
    readInteger (.mk kind size e tu raw rt) (word (i % 2 ^ 256).toNat) = .ok i := by
  cases rt
  case nil => exact absurd rfl hrt
  case uint8 => exact @lastBytes_unsigned 1 i (by decide) hi
  case uint16 => exact @lastBytes_unsigned 2 i (by decide) hi
  case uint32 => exact @lastBytes_unsigned 4 i (by decide) hi
  case uint64 => exact @lastBytes_unsigned 8 i (by decide) hi
  case int8 => exact @lastBytes_signed 1 i (by decide) (by decide) hi
  case int16 => exact @lastBytes_signed 2 i (by decide) (by decide) hi
  case int32 => exact @lastBytes_signed 4 i (by decide) (by decide) hi
  case int64 => exact @lastBytes_signed 8 i (by decide) (by decide) hi
  case other =>
    have hlt : (i % 2 ^ 256).toNat < 2 ^ 256 := by
      have h₁ := Int.emod_lt_of_pos i (show (0 : Int) < 2 ^ 256 by positivity)
      rw [← Int.toNat_of_nonneg (Int.emod_nonneg i (show (2 : Int) ^ 256 ≠ 0 by positivity))] at h₁
      exact_mod_cast h₁
    simp only [readInteger, beNat_word, Nat.mod_eq_of_lt hlt]
    by_cases hk : kind = .uInt
    · simp only [RType.signed, hk, bne_self_eq_false, RType.bits] at hi
      rw [if_pos hk, toNat_emod_of_range hi]
      rfl
    · have hs : RType.signed kind .other = true := bne_iff_ne.2 hk
      rw [hs] at hi
      rw [if_neg hk, toSigned_256, @toSigned_emod 256 i (by decide) hi]
      rfl

/-- The native width of an integer type is its declared width, or 256 bits, and its sign
    is the kind's. -/
theorem intRType_native {kind : Kind} {size : Int} (hk : kind = .int ∨ kind = .uInt) :
    (Typ.intRType kind size).signed kind = decide (kind = .int) ∧
      ((Typ.intRType kind size).bits = size.toNat ∨ (Typ.intRType kind size).bits = 256) := by
  rcases hk with rfl | rfl <;> unfold Typ.intRType <;> split_ifs <;> subst_vars <;>
    first | exact ⟨rfl, .inl rfl⟩ | exact ⟨rfl, .inr rfl⟩

/-- A well-formed integer node reads every integer of its declared range at its native
    width. -/
theorem intRange_native {kind : Kind} {size : Int} (hk : kind = .int ∨ kind = .uInt)
    (h₁ : 8 ≤ size) (h₂ : size ≤ 256) {i : Int} (hi : IntRange (kind = .int) size.toNat i) :
    IntRange ((Typ.intRType kind size).signed kind) (Typ.intRType kind size).bits i := by
  obtain ⟨hs, hb | hb⟩ := @intRType_native kind size hk <;> rw [hs, hb]
  · exact hi
  · have hpow : (2 : Int) ^ (size.toNat - 1) ≤ 2 ^ 255 :=
      pow_le_pow_right₀ (by norm_num) (by omega)
    have hpow' : (2 : Int) ^ size.toNat ≤ 2 ^ 256 := pow_le_pow_right₀ (by norm_num) (by omega)
    unfold IntRange at hi ⊢
    split_ifs at hi ⊢ <;> omega

/-! ## Round trips of one word -/

section

variable {size : Int} {e : Typ} {tu : Option (List TupleElem)} {raw : String} {rt : RType}

@[simp] theorem length_zeros (n : Nat) : (zeros n).length = n := List.length_replicate _ _

theorem readAddr_enc {a : Bytes} (ha : a.length = 20) : readAddr (zeros 12 ++ a) = .ok a := by
  simp [readAddr, ha]

theorem readFixedBytes_enc {b : Bytes} :
    readFixedBytes (.mk .fixedBytes b.length e tu raw rt) (b ++ zeros (32 - b.length)) = .ok b := by
  rw [readFixedBytes, show ((0 : Int) = ((0 : Nat) : Int)) from rfl,
    slice_ok (Nat.zero_le _) (by simp)]
  simp

theorem readFunctionType_enc {f : Bytes} (hf : f.length = 24) :
    readFunctionType (f ++ zeros 8) = .ok f := by
  have hpad : slice (f ++ zeros 8) 24 32 = .ok (zeros 8) := by
    rw [show ((24 : Int) = ((24 : Nat) : Int)) from rfl, show ((32 : Int) = ((32 : Nat) : Int)) from rfl,
      slice_ok (by omega) (by simp [hf])]
    rw [List.take_of_length_le (by simp [hf]), List.drop_left' hf]
  have hhead : slice (f ++ zeros 8) 0 24 = .ok f := by
    rw [show ((0 : Int) = ((0 : Nat) : Int)) from rfl, show ((24 : Int) = ((24 : Nat) : Int)) from rfl,
      slice_ok (by omega) (by simp [hf])]
    simp [List.take_append_eq_append_take, hf]
  rw [readFunctionType, hpad, bind_ok, if_neg (by decide), hhead]

/-- A type that is not a tuple, an array or a slice is encoded by `encLeaf`. -/
theorem enc_leaf {kind : Kind} (hk : kind ≠ .slice ∧ kind ≠ .array ∧ kind ≠ .tuple) (v : Value) :
    enc (.mk kind size e tu raw rt) v = encLeaf kind v := by
  cases kind <;> first | rfl | simp at hk

/-- A type that is not a tuple, an array or a slice has the domain of `inDomainLeaf`. -/
theorem inDomain_leaf {kind : Kind} (hk : kind ≠ .slice ∧ kind ≠ .array ∧ kind ≠ .tuple) (v : Value) :
    inDomain (.mk kind size e tu raw rt) v = inDomainLeaf kind size v := by
  cases kind <;> first | rfl | simp at hk

theorem enc_tuple (elems : List TupleElem) (entries : List (String × Value)) :
    enc (.mk .tuple size e (some elems) raw rt) (.tuple entries) = headTail (encElems elems entries) := by
  simp only [enc]

theorem enc_array (vs : List Value) :
    enc (.mk .array size e tu raw rt) (.array vs) = headTail (vs.map fun v => (e.isDynamicType, enc e v)) := by
  simp only [enc]

theorem enc_slice (vs : List Value) :
    enc (.mk .slice size e tu raw rt) (.array vs) =
      word vs.length ++ headTail (vs.map fun v => (e.isDynamicType, enc e v)) := by
  simp only [enc]

theorem inDomain_tuple (elems : List TupleElem) (entries : List (String × Value)) :
    inDomain (.mk .tuple size e (some elems) raw rt) (.tuple entries) = inDomainElems elems 0 entries := by
  simp only [inDomain]

theorem inDomain_array (vs : List Value) :
    inDomain (.mk .array size e tu raw rt) (.array vs) = (vs.length = size && vs.all (inDomain e)) := by
  simp only [inDomain]

theorem inDomain_slice (vs : List Value) :
    inDomain (.mk .slice size e tu raw rt) (.array vs) = vs.all (inDomain e) := by
  simp only [inDomain]

theorem inDomainElems_cons (name : String) (e' : Typ) (i : Bool) (elems : List TupleElem) (indx : Nat)
    (key : String) (v : Value) (entries : List (String × Value)) :
    inDomainElems (.mk name e' i :: elems) indx ((key, v) :: entries) =
      (decide (key = entryName name indx) && inDomain e' v && inDomainElems elems (indx + 1) entries) := rfl

/-- The parts of a tuple of static elements are static. -/
theorem encElems_static : ∀ {elems : List TupleElem} (entries : List (String × Value)),
    Typ.anyDynamic elems = false → ∀ p ∈ encElems elems entries, p.1 = false
  | [], _, _ => by simp [encElems]
  | .mk _ _ _ :: _, [], _ => by simp [encElems]
  | .mk _ e _ :: elems, (_, v) :: entries, h => by
    simp only [Typ.anyDynamic, Bool.or_eq_false_iff] at h
    simp only [encElems, List.mem_cons, forall_eq_or_imp, h.1, true_and]
    exact encElems_static entries h.2

theorem decode_enc_bool (b : Bool) (c : Bytes) :
    decode (.mk .bool size e tu raw rt) (enc (.mk .bool size e tu raw rt) (.bool b) ++ c) = .ok (.bool b, c) := by
  rw [enc_leaf (by simp), decode_bool]
  exact decodeWord_append_word (length_word _) (by cases b <;> rfl) c

theorem decode_enc_int {kind : Kind} (hk : kind = .int ∨ kind = .uInt) (hrt : rt ≠ .nil) {i : Int}
    (hi : IntRange (rt.signed kind) rt.bits i) (c : Bytes) :
    decode (.mk kind size e tu raw rt) (enc (.mk kind size e tu raw rt) (.int i) ++ c) = .ok (.int i, c) := by
  have hdec : decode (.mk kind size e tu raw rt) (enc (.mk kind size e tu raw rt) (.int i) ++ c) =
      decodeWord (fun data => .int <$> readInteger (.mk kind size e tu raw rt) data)
        (enc (.mk kind size e tu raw rt) (.int i) ++ c) := by
    rcases hk with rfl | rfl
    exacts [decode_int _, decode_uInt _]
  rw [hdec, enc_leaf (by rcases hk with rfl | rfl <;> simp)]
  have henc : encLeaf kind (.int i) = word (i % 2 ^ 256).toNat := by rcases hk with rfl | rfl <;> rfl
  rw [henc]
  exact decodeWord_append_word (length_word _) (by rw [readInteger_word hrt hi]; rfl) c

theorem decode_enc_address {a : Bytes} (ha : a.length = 20) (c : Bytes) :
    decode (.mk .address size e tu raw rt) (enc (.mk .address size e tu raw rt) (.address a) ++ c) =
      .ok (.address a, c) := by
  rw [enc_leaf (by simp), decode_address]
  exact decodeWord_append_word (by simp [encLeaf, ha]) (by simp [encLeaf, readAddr_enc ha]) c

theorem decode_enc_fixedBytes {b : Bytes} (hb : b.length ≤ 32) (c : Bytes) :
    decode (.mk .fixedBytes b.length e tu raw rt) (enc (.mk .fixedBytes b.length e tu raw rt) (.fixedBytes b) ++ c) =
      .ok (.fixedBytes b, c) := by
  rw [enc_leaf (by simp), decode_fixedBytes]
  exact decodeWord_append_word (by simp [encLeaf]; omega) (by simp [encLeaf, readFixedBytes_enc]) c

theorem decode_enc_function {f : Bytes} (hf : f.length = 24) (c : Bytes) :
    decode (.mk .function size e tu raw rt) (enc (.mk .function size e tu raw rt) (.function f) ++ c) =
      .ok (.function f, c) := by
  rw [enc_leaf (by simp), decode_function]
  exact decodeWord_append_word (by simp [encLeaf, hf]) (by simp [encLeaf, readFunctionType_enc hf]) c

end

/-! ## Strings and bytes -/

theorem readLength_encPayload {s : Bytes} (hlt : s.length < 2 ^ 63) (c : Bytes) :
    readLength (encPayload s ++ c) = .ok s.length := by
  have hw : beNat ((encPayload s ++ c).take 32) = s.length := by
    rw [encPayload, List.append_assoc, List.append_assoc, List.take_left' (length_word _),
      beNat_word, Nat.mod_eq_of_lt (by omega)]
  rw [readLength_eq_ok, hw]
  exact ⟨by simp [encPayload], hlt, by simp [encPayload]; omega, rfl⟩

/-- A string or bytes value that is not empty is read back from its encoding, and the
    reader leaves the input after the length word. -/
theorem decodePayload_encPayload (mk : Bytes → Value) {s : Bytes} (hs : s ≠ []) (c : Bytes) :
    decodePayload mk (encPayload s ++ c) s.length = .ok (mk s, (encPayload s ++ c).drop 32) := by
  have hd : (encPayload s ++ c).drop 32 = s ++ (zeros (padLen s.length) ++ c) := by
    rw [encPayload, List.append_assoc, List.append_assoc, List.drop_left' (length_word _)]
  have hval : readSlice (encPayload s ++ c) 32 s.length = .ok s := by
    rw [readSlice_payload (by simpa [List.length_pos] using hs), hd]
    exact ⟨by simp [encPayload]; omega, by simp⟩
  have hrest : readSlice (encPayload s ++ c) 32 0 = .ok ((encPayload s ++ c).drop 32) :=
    readSlice_rest.2 ⟨by simp [encPayload], rfl⟩
  simp only [decodePayload, hval, hrest, bind_ok, pure_eq]

section

variable {size : Int} {e : Typ} {tu : Option (List TupleElem)} {raw : String} {rt : RType}

theorem decode_enc_string {s : Bytes} (hs : s ≠ []) (hlt : s.length < 2 ^ 63) (c : Bytes) :
    decode (.mk .string size e tu raw rt) (enc (.mk .string size e tu raw rt) (.string s) ++ c) =
      .ok (.string s, (encPayload s ++ c).drop 32) := by
  rw [enc_leaf (by simp), decode_string]
  simp only [encLeaf, readLength_encPayload hlt, bind_ok, decodePayload_encPayload _ hs]

theorem decode_enc_bytes {s : Bytes} (hs : s ≠ []) (hlt : s.length < 2 ^ 63) (c : Bytes) :
    decode (.mk .bytes size e tu raw rt) (enc (.mk .bytes size e tu raw rt) (.bytes s) ++ c) =
      .ok (.bytes s, (encPayload s ++ c).drop 32) := by
  rw [enc_leaf (by simp), decode_bytes]
  simp only [encLeaf, readLength_encPayload hlt, bind_ok, decodePayload_encPayload _ hs]

end

end Abi
