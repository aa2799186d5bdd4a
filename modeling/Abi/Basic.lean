import Mathlib.Algebra.Group.Int
import Mathlib.Algebra.Group.Nat.Basic
import Mathlib.Data.List.Basic

/-!
# Byte slices, results and words

The decoder of `decode.go` works on Go byte slices and reads 32-byte big-endian
words from them. This module fixes how the model writes these:

* `Bytes`: a byte slice, by its bytes;
* `Result`: what a Go function gives back: its results, an `error` made by
  `fmt.Errorf` (`fail`), or a run-time panic;
* `slice`, `sliceFrom`: the slice expressions `b[lo:hi]` and `b[lo:]`, which panic
  out of bounds (`slice_ok`, `slice_panic`);
* `beNat`: the number a big-endian byte string stands for, and `beBytes k n` the `k`
  low bytes of `n`, big-endian, which it reads back (`beNat_beBytes`); `word n` is a
  32-byte word;
* `int64Wrap`: what an `int` product comes to in 64-bit two's complement.
-/

namespace Abi

/-- A Go byte slice, by its bytes. Its capacity is taken to be its length; every
    slice the decoder cuts from such a slice, by `b[lo:]` or `b[lo:len(b)]`, is again
    of that kind. -/
abbrev Bytes := List UInt8

/-- How a Go function can fail: it returns an `error`, or panics. -/
inductive Fault
  | error (msg : String)
  | panic (msg : String)
  deriving DecidableEq, Repr

/-- What a Go function gives back: its results, or how it failed. -/
abbrev Result (α : Type) := Except Fault α

instance instDecidableEqExcept {ε α : Type} [DecidableEq ε] [DecidableEq α] :
    DecidableEq (Except ε α)
  | .error a, .error b =>
    if h : a = b then isTrue (h ▸ rfl) else isFalse fun e => by cases e; exact h rfl
  | .ok a, .ok b =>
    if h : a = b then isTrue (h ▸ rfl) else isFalse fun e => by cases e; exact h rfl
  | .error _, .ok _ => isFalse nofun
  | .ok _, .error _ => isFalse nofun

@[simp] theorem bind_ok {α β : Type} (a : α) (f : α → Result β) : (Except.ok a >>= f) = f a := rfl

@[simp] theorem bind_error {α β : Type} (e : Fault) (f : α → Result β) :
    (Except.error e >>= f) = .error e := rfl

@[simp] theorem pure_eq {α : Type} (a : α) : (pure a : Result α) = .ok a := rfl

theorem bind_eq_ok {α β : Type} {x : Result α} {f : α → Result β} {b : β} :
    x >>= f = .ok b ↔ ∃ a, x = .ok a ∧ f a = .ok b := by
  cases x <;> simp

theorem map_ok {α β : Type} (f : α → β) (a : α) : (f <$> (Except.ok a : Result α)) = .ok (f a) := rfl

theorem map_eq_ok {α β : Type} {x : Result α} {f : α → β} {b : β} :
    f <$> x = .ok b ↔ ∃ a, x = .ok a ∧ f a = b := by
  cases x <;> simp [Functor.map, Except.map]

/-- An `error` made by `fmt.Errorf`. -/
def fail {α : Type} (msg : String) : Result α := .error (.error msg)

/-- The run-time panic of a slice expression out of range. -/
def outOfRange {α : Type} : Result α := .error (.panic "slice bounds out of range")

@[simp] theorem fail_ne_ok {α : Type} (msg : String) (a : α) : fail msg ≠ .ok a := nofun

@[simp] theorem outOfRange_ne_ok {α : Type} (a : α) : outOfRange ≠ .ok a := nofun

/-- The run-time panic of a field read through a nil pointer. -/
def nilDereference {α : Type} : Result α := .error (.panic "nil pointer dereference")

@[simp] theorem nilDereference_ne_ok {α : Type} (a : α) : nilDereference ≠ .ok a := nofun

/-- The slice expression `b[lo:hi]`: it panics unless `0 ≤ lo ≤ hi ≤ len(b)`. -/
def slice (b : Bytes) (lo hi : Int) : Result Bytes :=
  if 0 ≤ lo ∧ lo ≤ hi ∧ hi ≤ b.length then .ok ((b.take hi.toNat).drop lo.toNat)
  else outOfRange

/-- The slice expression `b[lo:]`. -/
def sliceFrom (b : Bytes) (lo : Int) : Result Bytes := slice b lo b.length

theorem slice_ok {b : Bytes} {lo hi : Nat} (h₁ : lo ≤ hi) (h₂ : hi ≤ b.length) :
    slice b lo hi = .ok ((b.take hi).drop lo) := by
  rw [slice, if_pos ⟨by omega, by omega, by omega⟩]
  rfl

theorem slice_panic {b : Bytes} {lo hi : Int} (h : ¬(0 ≤ lo ∧ lo ≤ hi ∧ hi ≤ b.length)) :
    slice b lo hi = outOfRange := by
  simp only [slice, if_neg h]

theorem slice_eq_ok {b x : Bytes} {lo hi : Int} :
    slice b lo hi = .ok x ↔ (0 ≤ lo ∧ lo ≤ hi ∧ hi ≤ b.length) ∧ x = (b.take hi.toNat).drop lo.toNat := by
  unfold slice
  split_ifs with h <;> simp [h, eq_comm, outOfRange]

theorem sliceFrom_ok {b : Bytes} {lo : Nat} (h : lo ≤ b.length) :
    sliceFrom b lo = .ok (b.drop lo) := by
  simp [sliceFrom, slice_ok h le_rfl]

/-- The word at the head of `b ++ c`, when `b` holds one. -/
theorem slice_append_word {b c : Bytes} (h : b.length = 32) :
    slice (b ++ c) 0 32 = .ok b := by
  rw [show ((0 : Int) = ((0 : Nat) : Int)) from rfl, show ((32 : Int) = ((32 : Nat) : Int)) from rfl,
    slice_ok (Nat.zero_le _) (by simp [h])]
  simp [← h]

/-! ## Big-endian numbers -/

/-- The number a big-endian byte string stands for: `new(big.Int).SetBytes(b)`. -/
def beNat (b : Bytes) : Nat := b.foldl (fun n x => n * 256 + x.toNat) 0

/-- The `k` low bytes of `n`, big-endian. -/
def beBytes : Nat → Nat → Bytes
  | 0, _ => []
  | k + 1, n => beBytes k (n / 256) ++ [UInt8.ofNat n]

/-- A 32-byte word holding `n` (modulo `2 ^ 256`). -/
def word (n : Nat) : Bytes := beBytes 32 n

private theorem foldl_beNat (a : Nat) (b : Bytes) :
    b.foldl (fun n x => n * 256 + x.toNat) a = a * 256 ^ b.length + beNat b := by
  induction b generalizing a with
  | nil => simp [beNat]
  | cons x b ih =>
    simp only [beNat, List.foldl_cons, List.length_cons] at ih ⊢
    rw [ih, ih (0 * 256 + x.toNat), Nat.pow_succ']
    generalize 256 ^ b.length = P
    rw [Nat.add_mul, Nat.mul_assoc, Nat.zero_mul, Nat.zero_add, Nat.add_assoc]

@[simp] theorem beNat_nil : beNat [] = 0 := rfl

@[simp] theorem beNat_singleton (x : UInt8) : beNat [x] = x.toNat := by simp [beNat]

theorem beNat_append (b c : Bytes) : beNat (b ++ c) = beNat b * 256 ^ c.length + beNat c := by
  rw [beNat, List.foldl_append, foldl_beNat]
  rfl

theorem beNat_lt (b : Bytes) : beNat b < 256 ^ b.length := by
  induction b using List.reverseRecOn with
  | nil => simp
  | append_singleton b x ih =>
    have hx : x.toNat < 256 := x.toNat_lt_size
    rw [beNat_append, beNat_singleton, List.length_append, List.length_singleton, Nat.pow_one,
      Nat.pow_succ]
    generalize 256 ^ b.length = P at ih ⊢
    omega

@[simp] theorem length_beBytes (k n : Nat) : (beBytes k n).length = k := by
  induction k generalizing n <;> simp [beBytes, *]

theorem beNat_beBytes (k n : Nat) : beNat (beBytes k n) = n % 256 ^ k := by
  induction k generalizing n with
  | zero => simp [beBytes, Nat.mod_one]
  | succ k ih =>
    rw [beBytes, beNat_append, ih, Nat.pow_succ', Nat.mod_mul]
    simp [beNat, UInt8.toNat, UInt8.ofNat]
    omega

/-- The `j + k` low bytes of `n` are its `j` bytes above the `k` low ones, then those. -/
theorem beBytes_add (j k n : Nat) : beBytes (j + k) n = beBytes j (n / 256 ^ k) ++ beBytes k n := by
  induction k generalizing n with
  | zero => simp [beBytes]
  | succ k ih => simp [beBytes, ← Nat.add_assoc, ih, Nat.div_div_eq_div_mul, Nat.pow_succ']

@[simp] theorem length_word (n : Nat) : (word n).length = 32 := length_beBytes 32 n

theorem beNat_word (n : Nat) : beNat (word n) = n % 2 ^ 256 := by
  simp only [word, beNat_beBytes, show (256 : Nat) ^ 32 = 2 ^ 256 by decide]

/-! ## Machine integers -/

/-- What an `int` computed as `x` comes to in 64-bit two's complement. -/
def int64Wrap (x : Int) : Int := x.bmod (2 ^ 64)

theorem int64Wrap_of_lt {x : Int} (h₀ : 0 ≤ x) (h : x < 2 ^ 63) : int64Wrap x = x := by
  rw [int64Wrap, Int.bmod_pos _ _ (by rw [Int.emod_eq_of_lt h₀ (by omega)]; omega),
    Int.emod_eq_of_lt h₀ (by omega)]

end Abi
