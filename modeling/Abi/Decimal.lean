import Abi.Basic
import Mathlib.Tactic.Ring
import Mathlib.Data.Nat.Digits

/-!
# Decimal renderings

`strconv.Itoa(i)` and the verb `%d` of `fmt` render a number in decimal: `toString` in the
model, whose digits are `Nat.toDigits 10`. Reading the digits back gives the number
(`digitsValue_toDigits`), so two numbers with the same rendering are equal
(`toString_injective`), also after a common prefix (`append_toString_inj`): the names
`decodeTuple` gives unnamed elements, and the names the overload rule tries, are pairwise
distinct.
-/

namespace Abi

/-- The number a string of decimal digits stands for. -/
def digitsValue (ds : List Char) : Nat := ds.foldl (fun n c => 10 * n + (c.toNat - 48)) 0

private theorem foldl_digitsValue (a : Nat) (ds : List Char) :
    ds.foldl (fun n c => 10 * n + (c.toNat - 48)) a = a * 10 ^ ds.length + digitsValue ds := by
  induction ds generalizing a with
  | nil => simp [digitsValue]
  | cons d ds ih =>
    simp only [digitsValue, List.foldl_cons, List.length_cons] at ih ⊢
    rw [ih, ih (10 * 0 + (d.toNat - 48)), Nat.pow_succ']
    generalize 10 ^ ds.length = P
    rw [Nat.mul_zero, Nat.zero_add, Nat.add_mul, ← Nat.mul_assoc, Nat.mul_comm a 10, Nat.add_assoc]

theorem digitsValue_cons (d : Char) (ds : List Char) :
    digitsValue (d :: ds) = (d.toNat - 48) * 10 ^ ds.length + digitsValue ds := by
  rw [digitsValue, List.foldl_cons, foldl_digitsValue]
  simp

theorem digitChar_toNat : ∀ d < 10, (Nat.digitChar d).toNat = 48 + d := by decide

/-- The digits `toDigitsCore` puts before `ds` stand for `n`, given fuel enough. -/
theorem digitsValue_toDigitsCore :
    ∀ fuel n ds, n < fuel →
      digitsValue (Nat.toDigitsCore 10 fuel n ds) = n * 10 ^ ds.length + digitsValue ds
  | 0, _, _, h => absurd h (Nat.not_lt_zero _)
  | fuel + 1, n, ds, h => by
    have hd := digitChar_toNat (n % 10) (Nat.mod_lt _ (by decide))
    have hn := Nat.div_add_mod n 10
    rw [Nat.toDigitsCore]
    split_ifs with h0
    · rw [digitsValue_cons, hd, Nat.add_sub_cancel_left, show n % 10 = n by omega]
    · rw [digitsValue_toDigitsCore fuel (n / 10) _ (by omega), digitsValue_cons, hd,
        List.length_cons, Nat.pow_succ]
      generalize 10 ^ ds.length = P
      calc n / 10 * (P * 10) + ((48 + n % 10 - 48) * P + digitsValue ds)
          = (10 * (n / 10) + n % 10) * P + digitsValue ds := by
            rw [Nat.add_sub_cancel_left]
            ring
        _ = n * P + digitsValue ds := by rw [hn]

theorem digitsValue_toDigits (n : Nat) : digitsValue (Nat.toDigits 10 n) = n := by
  simpa [digitsValue] using digitsValue_toDigitsCore (n + 1) n [] (Nat.lt_succ_self n)

theorem toString_injective : Function.Injective (toString : Nat → String) := fun m n h => by
  have h' : Nat.toDigits 10 m = Nat.toDigits 10 n := congrArg String.data h
  rw [← digitsValue_toDigits m, h', digitsValue_toDigits]

/-- A name followed by a number determines the number. -/
theorem append_toString_inj {s : String} {m n : Nat} :
    s ++ toString m = s ++ toString n ↔ m = n := by
  refine ⟨fun h => toString_injective ?_, fun h => h ▸ rfl⟩
  have h' : s.data ++ (toString m).data = s.data ++ (toString n).data := congrArg String.data h
  exact String.ext (List.append_cancel_left h')

/-! ## Prefixes of a rendering

A rendering has no leading zero, so what stands before its last digits is a rendering
again (`toDigits_of_append`). Two names followed by numbers are then equal only when one is
the other followed by a number (`append_toString_eq`). -/

/-- `toDigitsCore` puts its digits before the list it is given. -/
theorem toDigitsCore_append : ∀ (fuel n : Nat) (ds : List Char),
    Nat.toDigitsCore 10 fuel n ds = Nat.toDigitsCore 10 fuel n [] ++ ds
  | 0, _, _ => rfl
  | fuel + 1, n, ds => by
    simp only [Nat.toDigitsCore]
    split_ifs
    · rfl
    · rw [toDigitsCore_append fuel (n / 10) (_ :: ds), toDigitsCore_append fuel (n / 10) [_]]
      simp

/-- With fuel enough, `toDigitsCore` does not depend on the fuel. -/
theorem toDigitsCore_fuel : ∀ (f g n : Nat) (ds : List Char), n < f → n < g →
    Nat.toDigitsCore 10 f n ds = Nat.toDigitsCore 10 g n ds
  | 0, _, _, _, h, _ => absurd h (Nat.not_lt_zero _)
  | _ + 1, 0, _, _, _, h => absurd h (Nat.not_lt_zero _)
  | f + 1, g + 1, n, ds, hf, hg => by
    simp only [Nat.toDigitsCore]
    split_ifs
    · rfl
    · exact toDigitsCore_fuel f g (n / 10) _ (by omega) (by omega)

/-- The decimal digits of `n`: those of `n / 10` when it is not zero, then the last one. -/
theorem toDigits_ten (n : Nat) :
    Nat.toDigits 10 n = if n / 10 = 0 then [Nat.digitChar (n % 10)]
      else Nat.toDigits 10 (n / 10) ++ [Nat.digitChar (n % 10)] := by
  conv_lhs => rw [Nat.toDigits]
  simp only [Nat.toDigitsCore]
  split_ifs
  · rfl
  · rw [toDigitsCore_append, toDigitsCore_fuel n (n / 10 + 1) (n / 10) [] (by omega) (by omega)]
    rfl

/-- A decimal digit. -/
def IsDigit (c : Char) : Prop := 48 ≤ c.toNat ∧ c.toNat < 58

instance : DecidablePred IsDigit := fun c => inferInstanceAs (Decidable (48 ≤ c.toNat ∧ c.toNat < 58))

theorem digitChar_eq_ofNat : ∀ d < 10, Nat.digitChar d = Char.ofNat (48 + d) := by decide

/-- Every character of a rendering is a digit, and the first one is not `0` unless the
    number is. -/
theorem toDigits_digits (n : Nat) :
    (∀ c ∈ Nat.toDigits 10 n, IsDigit c) ∧ (0 < n → ∃ c cs, Nat.toDigits 10 n = c :: cs ∧ c.toNat ≠ 48) := by
  induction n using Nat.strong_induction_on with
  | _ n ih =>
    have hd := digitChar_toNat (n % 10) (Nat.mod_lt _ (by decide))
    rw [toDigits_ten]
    split_ifs with h0
    · refine ⟨fun c hc => ?_, fun hn => ⟨_, [], rfl, by omega⟩⟩
      obtain rfl := List.mem_singleton.1 hc
      exact ⟨by omega, by omega⟩
    · obtain ⟨hdig, hhead⟩ := ih (n / 10) (by omega)
      refine ⟨fun c hc => ?_, fun _ => ?_⟩
      · rcases List.mem_append.1 hc with hc | hc
        · exact hdig c hc
        · obtain rfl := List.mem_singleton.1 hc
          exact ⟨by omega, by omega⟩
      · obtain ⟨c, cs, hcs, hc⟩ := hhead (by omega)
        exact ⟨c, cs ++ [_], by rw [hcs]; rfl, hc⟩

/-- A rendering ends in the digit of the units. -/
theorem getLast?_toDigits (n : Nat) :
    (Nat.toDigits 10 n).getLast? = some (Nat.digitChar (n % 10)) := by
  rw [toDigits_ten]
  split_ifs <;> simp

theorem digitsValue_concat (ds : List Char) (c : Char) :
    digitsValue (ds ++ [c]) = 10 * digitsValue ds + (c.toNat - 48) := by
  simp [digitsValue, List.foldl_append]

/-- Digits with no leading zero, or the single `0`, are the rendering of what they stand
    for. -/
theorem toDigits_digitsValue (s : List Char) (hs : s ≠ []) (hdig : ∀ c ∈ s, IsDigit c)
    (hhead : s = ['0'] ∨ ∃ c cs, s = c :: cs ∧ c.toNat ≠ 48) :
    Nat.toDigits 10 (digitsValue s) = s := by
  induction s using List.reverseRecOn with
  | nil => exact absurd rfl hs
  | append_singleton s c ih =>
    have hc : IsDigit c := hdig c (List.mem_append_right _ (List.mem_singleton_self c))
    unfold IsDigit at hc
    have hcd : Nat.digitChar (c.toNat - 48) = c := by
      rw [digitChar_eq_ofNat _ (by omega), show 48 + (c.toNat - 48) = c.toNat by omega, Char.ofNat_toNat]
    rw [digitsValue_concat, toDigits_ten]
    by_cases hs0 : s = []
    · -- a single digit
      subst hs0
      rw [show digitsValue [] = 0 from rfl, if_pos (by omega),
        show (10 * 0 + (c.toNat - 48)) % 10 = c.toNat - 48 by omega, hcd]
      rfl
    · -- the digits before the last one stand for a number that is not zero
      obtain ⟨d, ds, rfl⟩ := List.exists_cons_of_ne_nil hs0
      have hd : d.toNat ≠ 48 := by
        rcases hhead with h | ⟨d', ds', h, hd'⟩
        · simp at h
        · rw [List.cons_append, List.cons.injEq] at h
          exact h.1 ▸ hd'
      have hd₁ := (hdig d (List.mem_cons_self _ _)).1
      have hpos : 0 < digitsValue (d :: ds) := by
        rw [digitsValue_cons]
        exact Nat.add_pos_left (Nat.mul_pos (by omega) (pow_pos (by decide) _)) _
      rw [if_neg (by omega), show (10 * digitsValue (d :: ds) + (c.toNat - 48)) / 10 =
          digitsValue (d :: ds) by omega,
        show (10 * digitsValue (d :: ds) + (c.toNat - 48)) % 10 = c.toNat - 48 by omega, hcd,
        ih (List.cons_ne_nil _ _) (fun x hx => hdig x (List.mem_append_left _ hx)) (.inr ⟨d, ds, rfl, hd⟩)]

/-- The digits before the last ones of a rendering are a rendering. -/
theorem toDigits_of_append {e : Nat} {s t : List Char} (h : Nat.toDigits 10 e = s ++ t) (hs : s ≠ []) :
    Nat.toDigits 10 (digitsValue s) = s := by
  obtain ⟨hdig, hhead⟩ := toDigits_digits e
  refine toDigits_digitsValue s hs (fun c hc => hdig c (h ▸ List.mem_append_left _ hc)) ?_
  rcases Nat.eq_zero_or_pos e with rfl | he
  · -- the rendering of zero is the single `0`
    left
    obtain ⟨c, cs, rfl⟩ := List.exists_cons_of_ne_nil hs
    have h0 : ['0'] = c :: (cs ++ t) := h
    simp only [List.cons.injEq, List.nil_eq, List.append_eq_nil] at h0
    rw [h0.1, h0.2.1]
  · right
    obtain ⟨c, cs, hcs, hc⟩ := hhead he
    obtain ⟨d, ds, rfl⟩ := List.exists_cons_of_ne_nil hs
    rw [hcs, List.cons_append, List.cons.injEq] at h
    exact ⟨d, ds, rfl, h.1 ▸ hc⟩

/-- A name that is another one followed by the first digits of a rendering is that name, or
    that name followed by a number. -/
theorem eq_or_eq_append_toString {m n : String} {a t : List Char} {e : Nat}
    (hm : m.data = n.data ++ a) (he : Nat.toDigits 10 e = a ++ t) :
    m = n ∨ ∃ k : Nat, m = n ++ toString k := by
  by_cases ha : a = []
  · exact .inl (String.ext (by simpa [ha] using hm))
  · refine .inr ⟨digitsValue a, String.ext ?_⟩
    rw [hm, String.data_append]
    exact congrArg (n.data ++ ·) (toDigits_of_append he ha).symm

/-- Two names followed by numbers are equal only when the names are, or one name is the
    other followed by a number. -/
theorem append_toString_eq {m n : String} {d e : Nat} (h : m ++ toString d = n ++ toString e) :
    m = n ∨ (∃ k : Nat, m = n ++ toString k) ∨ (∃ k : Nat, n = m ++ toString k) := by
  have h' : m.data ++ Nat.toDigits 10 d = n.data ++ Nat.toDigits 10 e := congrArg String.data h
  rcases List.append_eq_append_iff.1 h' with ⟨a, hn, hd⟩ | ⟨a, hm, he⟩
  · exact (eq_or_eq_append_toString hn hd).elim (fun h => .inl h.symm) (fun h => .inr (.inr h))
  · exact (eq_or_eq_append_toString hm he).imp_right .inl

end Abi
