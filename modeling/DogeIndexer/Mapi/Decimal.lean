import DogeIndexer.Compressor.Decimal

/-!
# Amounts in responses

`decimal` prints an amount kept in the smallest unit, with a dot before the last `dec` digits.

* `decimal_split` — what is printed: the integer part, and `dec` digits behind a dot.
* `decimal_inverse` — the parser of amounts reads back what was printed, and two amounts are printed differently.
-/

set_option autoImplicit false

namespace DogeIndexer.Mapi

open Digits Compressor.Amount

/-- `decimal`. -/
def decimal (num : U128) (dec : Nat) : String :=
  let balString := Nat.toDigits 10 num.val
  let balStringLen := balString.length
  String.ofList <|
    if dec > 0 then
      if balStringLen = dec then ['0', '.'] ++ balString
      else if balStringLen < dec then ['0', '.'] ++ List.replicate (dec - balStringLen) '0' ++ balString
      else balString.insertIdx (balStringLen - dec) '.'
    else balString

/-! ## What is printed -/

/-- The digits before the dot and the digits behind it. -/
structure Printed (num dec : Nat) (integer frac : List Char) : Prop where
  nonempty : integer ≠ []
  integer_digits : AreDigits integer
  frac_digits : AreDigits frac
  length : frac.length = dec
  value : value integer * 10 ^ dec + value frac = num

theorem Printed.value_integer {num dec : Nat} {integer frac : List Char} (h : Printed num dec integer frac) :
    Digits.value integer = num / 10 ^ dec := by
  have hlt : Digits.value frac < 10 ^ dec := by
    rw [← h.length]
    exact value_lt h.frac_digits
  rw [← h.value, Nat.mul_comm, Nat.mul_add_div (Nat.pow_pos (by decide)), Nat.div_eq_of_lt hlt, Nat.add_zero]

/-- Inserting behind the first part of a list. -/
theorem insertIdx_append_length {α : Type} (x : α) (a b : List α) : (a ++ b).insertIdx a.length x = a ++ x :: b := by
  induction a with
  | nil => rfl
  | cons y a ih => rw [List.length_cons, List.cons_append, List.insertIdx_succ_cons, ih, List.cons_append]

/-- **What is printed**: at least one digit, and `dec` more behind a dot when there are decimals. -/
theorem decimal_split (num : U128) (dec : Nat) :
    ∃ integer frac, Printed num.val dec integer frac ∧
      (decimal num dec).toList = integer ++ (if frac = [] then [] else '.' :: frac) := by
  have hdigits := areDigits_toDigits num.val
  have hne : Nat.toDigits 10 num.val ≠ [] := Nat.toDigits_ne_nil
  have hval := value_toDigits num.val
  unfold decimal
  rw [String.toList_ofList]
  generalize Nat.toDigits 10 num.val = digits at hdigits hne hval
  by_cases hdec : dec > 0
  · rw [if_pos hdec]
    by_cases hlt : digits.length ≤ dec
    · -- no digit is left for the integer part, a zero stands for it
      have hpad : AreDigits (List.replicate (dec - digits.length) '0' ++ digits) :=
        areDigits_append (areDigits_replicate_zero _) hdigits
      have hlen : (List.replicate (dec - digits.length) '0' ++ digits).length = dec := by simp; omega
      refine ⟨['0'], List.replicate (dec - digits.length) '0' ++ digits, ⟨by simp, ?_, hpad, hlen, ?_⟩, ?_⟩
      · exact areDigits_replicate_zero 1
      · rw [value_append, value_replicate_zero, hval]
        simp [show Digits.value ['0'] = 0 from rfl]
      · have : List.replicate (dec - digits.length) '0' ++ digits ≠ [] := by simp [hne]
        rw [if_neg this]
        split
        · rename_i heq
          simp [heq]
        · rw [if_pos (by omega)]
          simp
    · rw [if_neg (by omega), if_neg (by omega)]
      have hsplit := List.take_append_drop (digits.length - dec) digits
      refine ⟨digits.take (digits.length - dec), digits.drop (digits.length - dec), ⟨?_, ?_, ?_, ?_, ?_⟩, ?_⟩
      · simp [hne]; omega
      · exact fun c hc => hdigits c (List.mem_of_mem_take hc)
      · exact fun c hc => hdigits c (List.mem_of_mem_drop hc)
      · simp; omega
      · have hlen : (digits.drop (digits.length - dec)).length = dec := by simp; omega
        calc _ = Digits.value (digits.take (digits.length - dec) ++ digits.drop (digits.length - dec)) := by
              rw [value_append, hlen]
          _ = num.val := by rw [hsplit, hval]
      · have hinsert := insertIdx_append_length '.' (digits.take (digits.length - dec))
          (digits.drop (digits.length - dec))
        rw [hsplit, List.length_take, Nat.min_eq_left (by omega)] at hinsert
        rw [if_neg (by simp; omega), hinsert]
  · rw [if_neg hdec]
    refine ⟨digits, [], ⟨hne, hdigits, by simp [AreDigits], by simp; omega, ?_⟩, by simp⟩
    simp [hval, show dec = 0 by omega]

/-- The parser finds the printed parts. -/
theorem Printed.isDecimal {num dec : Nat} {integer frac : List Char} (h : Printed num dec integer frac)
    (hfits : num / 10 ^ dec ≤ 2 ^ 64 - 1) :
    IsDecimal (integer ++ (if frac = [] then [] else '.' :: frac)) dec integer frac where
  text := rfl
  nonempty := h.nonempty
  integer_digits := h.integer_digits
  frac_digits := h.frac_digits
  fits := by rw [h.value_integer]; omega
  length_le := h.length.le

/-- The same text has the same parts, when as many digits follow the dot. -/
theorem parts_inj {a b c d : List Char} (hlen : b.length = d.length)
    (h : a ++ (if b = [] then [] else '.' :: b) = c ++ (if d = [] then [] else '.' :: d)) : a = c ∧ b = d := by
  by_cases hb : b = []
  · have hd : d = [] := List.length_eq_zero_iff.mp (by rw [← hlen, hb]; rfl)
    rw [if_pos hb, if_pos hd, List.append_nil, List.append_nil] at h
    exact ⟨h, hb.trans hd.symm⟩
  · have hd : d ≠ [] := by
      rintro rfl
      exact hb (List.length_eq_zero_iff.mp hlen)
    rw [if_neg hb, if_neg hd] at h
    obtain ⟨hac, hbd⟩ := List.append_inj' h (by simp [hlen])
    exact ⟨hac, (List.cons.inj hbd).2⟩

/-- **Printing and parsing amounts are inverse**: an amount whose integer part fits in a `u64` is read back as it
was printed, and for any number of decimals, different amounts are printed differently. -/
theorem decimal_inverse :
    (∀ (checks : Bool) (dec : Byte) (n : U128), dec.val ≤ 18 → n.val / 10 ^ dec.val ≤ 2 ^ 64 - 1 →
      parseDecimal checks (decimal n dec.val) dec = .ok (some n)) ∧
    ∀ dec : Nat, Function.Injective fun n => decimal n dec := by
  constructor
  · intro checks dec n hdec hfits
    obtain ⟨integer, frac, h, htext⟩ := decimal_split n dec.val
    have hdecimal := h.isDecimal hfits
    rw [← htext] at hdecimal
    obtain ⟨v, hv, hval⟩ := hdecimal.parsed checks hdec
    have hvn : v = n := by
      refine Fin.ext ?_
      rw [hval, scaled, h.length, Nat.sub_self, Nat.pow_zero, Nat.mul_one]
      exact h.value
    rw [hv, hvn]
  · intro dec n m hnm
    obtain ⟨integer, frac, h, htext⟩ := decimal_split n dec
    obtain ⟨integer', frac', h', htext'⟩ := decimal_split m dec
    have hsame : decimal n dec = decimal m dec := hnm
    rw [hsame, htext'] at htext
    obtain ⟨rfl, rfl⟩ := parts_inj (h'.length.trans h.length.symm) htext
    exact Fin.ext (h.value.symm.trans h'.value)

/-- An amount with fewer digits than there are decimals. -/
theorem decimal_inverse_padded :
    (5 : U128).val / 10 ^ 3 ≤ 2 ^ 64 - 1 ∧ parseDecimal true (decimal 5 3) 3 = .ok (some 5) ∧
      (decimal 5 3).toList = ['0', '.', '0', '0', '5'] :=
  ⟨by decide, decimal_inverse.1 true 3 5 (by decide) (by decide), by decide⟩

end DogeIndexer.Mapi
