import Mathlib.Algebra.Group.Int.Defs
import Mathlib.Algebra.GroupWithZero.Nat
import Mathlib.Data.List.Induction
import Mathlib.Data.Nat.Basic
import Mathlib.Order.Lattice

/-!
# Decimal digits in text

The value of a string of digits, reading an unsigned integer of a fixed width as `str::parse` does, and text split
at a separator.

* `value_append`, `value_lt` — positional value.
* `parseUInt_digits` — what is parsed from digits.
* `splitOn_cases` — text splits into one part, two parts, or more, by how often the separator occurs.
-/

set_option autoImplicit false

namespace DogeIndexer.Digits

/-! ## Values -/

/-- Positional value of decimal digits. -/
def value (l : List Char) : Nat := Nat.ofDigitChars 10 l 0

def AreDigits (l : List Char) : Prop := ∀ c ∈ l, c.isDigit = true

@[simp] theorem value_nil : value [] = 0 := rfl

theorem value_append (a b : List Char) : value (a ++ b) = value a * 10 ^ b.length + value b := by
  unfold value
  rw [Nat.ofDigitChars_append, Nat.ofDigitChars_eq_ofDigitChars_zero, Nat.mul_comm]

@[simp] theorem value_replicate_zero (k : Nat) : value (List.replicate k '0') = 0 := by
  unfold value
  rw [Nat.ofDigitChars_replicate_zero, Nat.mul_zero]

@[simp] theorem value_toDigits (n : Nat) : value (Nat.toDigits 10 n) = n := Nat.ofDigitChars_ten_toDigits

theorem areDigits_toDigits (n : Nat) : AreDigits (Nat.toDigits 10 n) :=
  fun _ hc => Nat.isDigit_of_mem_toDigits (by decide) (by decide) hc

theorem areDigits_append {a b : List Char} (ha : AreDigits a) (hb : AreDigits b) : AreDigits (a ++ b) := by
  intro c hc
  rcases List.mem_append.mp hc with h | h
  · exact ha c h
  · exact hb c h

theorem areDigits_replicate_zero (k : Nat) : AreDigits (List.replicate k '0') := by
  intro c hc
  rw [List.eq_of_mem_replicate hc]
  rfl

/-- A digit is worth at most nine. -/
theorem digit_le {c : Char} (h : c.isDigit = true) : c.toNat - '0'.toNat ≤ 9 := by
  have hc := Char.isDigit_iff_toNat.mp h
  have h9 : '9'.toNat = 57 := rfl
  have h0 : '0'.toNat = 48 := rfl
  omega

/-- **As many digits as a power of ten has zeros stay below it.** -/
theorem value_lt {l : List Char} (h : AreDigits l) : value l < 10 ^ l.length := by
  induction l using List.reverseRecOn with
  | nil => decide
  | append_singleton l c ih =>
    have hl := ih fun d hd => h d (List.mem_append_left _ hd)
    have hc : value [c] ≤ 9 := by
      have := digit_le (h c (by simp))
      simpa [value, Nat.ofDigitChars_cons] using this
    rw [value_append, List.length_append, List.length_singleton, Nat.pow_one, Nat.pow_succ]
    omega

/-! ## Reading an integer -/

/-- `str::parse` to an unsigned integer below `n`: a leading plus sign is allowed. -/
def parseUInt (n : Nat) (s : List Char) : Option (Fin n) :=
  let digits := if s.head? = some '+' then s.tail else s
  if h : (digits ≠ [] ∧ digits.all Char.isDigit) ∧ value digits < n then some ⟨value digits, h.2⟩ else none

/-- Digits are read as their value, when there are any and the value fits. -/
theorem parseUInt_digits {n : Nat} {s : List Char} (hs : AreDigits s) :
    parseUInt n s = if h : s ≠ [] ∧ value s < n then some ⟨value s, h.2⟩ else none := by
  have hplus : ¬ s.head? = some '+' := by
    intro h
    have := hs '+' (List.mem_of_mem_head? h)
    exact absurd this (by decide)
  have hall : s.all Char.isDigit = true := List.all_eq_true.mpr hs
  unfold parseUInt
  simp only [if_neg hplus]
  by_cases h : s ≠ [] ∧ value s < n
  · rw [dif_pos h, dif_pos ⟨⟨h.1, hall⟩, h.2⟩]
  · rw [dif_neg h, dif_neg fun hc => h ⟨hc.1.1, hc.2⟩]

theorem parseUInt_of_lt {n : Nat} {s : List Char} (hs : AreDigits s) (hne : s ≠ []) (hlt : value s < n) :
    parseUInt n s = some ⟨value s, hlt⟩ := by
  rw [parseUInt_digits hs, dif_pos ⟨hne, hlt⟩]

/-! ## Splitting -/

variable {α : Type} [BEq α] [LawfulBEq α]

/-- **The parts of a text** are counted by its separators. -/
theorem splitOn_cases (sep : α) (m : List α) :
    (sep ∉ m ∧ m.splitOn sep = [m]) ∨
    (∃ a b, m = a ++ sep :: b ∧ sep ∉ a ∧ sep ∉ b ∧ m.splitOn sep = [a, b]) ∨
    (2 ≤ m.count sep ∧ 2 < (m.splitOn sep).length) := by
  by_cases hm : sep ∈ m
  · obtain ⟨a, b, rfl, ha⟩ := List.eq_append_cons_of_mem hm
    have hsplit : (a ++ sep :: b).splitOn sep = a :: b.splitOn sep :=
      List.splitOn_append_cons_self_of_not_mem ha b
    by_cases hb : sep ∈ b
    · obtain ⟨c, d, rfl, hc⟩ := List.eq_append_cons_of_mem hb
      have hd := List.length_pos_iff.mpr (List.splitOn_ne_nil sep d)
      refine .inr (.inr ⟨?_, ?_⟩)
      · simp only [List.count_append, List.count_cons_self]
        omega
      · rw [hsplit, List.splitOn_append_cons_self_of_not_mem hc d]
        simp only [List.length_cons]
        omega
    · exact .inr (.inl ⟨a, b, rfl, ha, hb, by rw [hsplit, List.splitOn_eq_singleton hb]⟩)
  · exact .inl ⟨hm, List.splitOn_eq_singleton hm⟩

end DogeIndexer.Digits
