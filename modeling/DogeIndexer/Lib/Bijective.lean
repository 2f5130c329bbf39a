import Mathlib.Algebra.Group.Int.Defs
import Mathlib.Algebra.GroupWithZero.Nat
import Mathlib.Data.Fin.Basic
import Mathlib.Data.List.Induction
import Mathlib.Order.Lattice
import Mathlib.Tactic.Ring

/-!
# Bijective numeration

Words over `b` letters as numbers: the empty word is zero, the words of one letter are `1` to `b`, and every number is
the value of exactly one word.  The first letter of a word counts most.

* `value_word`, `word_value` — numbers and words are in bijection.
* `value_lt_append`, `pow_le_value` — a longer word has a larger value, and how large it is at least.
-/

set_option autoImplicit false

namespace DogeIndexer.Bijective

variable {b : Nat}

/-- The value of a word. -/
def value (l : List (Fin b)) : Nat := l.foldl (fun x d => x * b + d.val + 1) 0

@[simp] theorem value_nil : value ([] : List (Fin b)) = 0 := rfl

@[simp] theorem value_append_singleton (l : List (Fin b)) (d : Fin b) : value (l ++ [d]) = value l * b + d.val + 1 := by
  simp [value]

/-- The word of a number. -/
def word (b : Nat) [NeZero b] : Nat → List (Fin b)
  | 0 => []
  | n + 1 => word b (n / b) ++ [Fin.ofNat b n]
  termination_by n => n
  decreasing_by exact Nat.lt_succ_of_le (Nat.div_le_self n b)

theorem word_zero [NeZero b] : word b 0 = [] := by
  rw [word]

theorem word_succ [NeZero b] (n : Nat) : word b (n + 1) = word b (n / b) ++ [Fin.ofNat b n] := by
  rw [word]

/-- **The word of a number has its value.** -/
theorem value_word (b : Nat) [NeZero b] (n : Nat) : value (word b n) = n := by
  induction n using Nat.strong_induction_on with
  | _ n ih =>
    cases n with
    | zero => rw [word_zero, value_nil]
    | succ n =>
      have hrest := ih (n / b) (Nat.lt_succ_of_le (Nat.div_le_self n b))
      rw [word_succ, value_append_singleton, hrest]
      show n / b * b + n % b + 1 = n + 1
      rw [Nat.mul_comm, Nat.div_add_mod]

/-- **A word is the word of its value.** -/
theorem word_value [NeZero b] (l : List (Fin b)) : word b (value l) = l := by
  induction l using List.reverseRecOn with
  | nil => rw [value_nil, word_zero]
  | append_singleton l d ih =>
    have hpos : 0 < b := Nat.pos_of_neZero b
    have hdiv : (value l * b + d.val) / b = value l := by
      rw [Nat.mul_comm, Nat.mul_add_div hpos, Nat.div_eq_of_lt d.isLt, Nat.add_zero]
    have hmod : Fin.ofNat b (value l * b + d.val) = d := by
      refine Fin.ext ?_
      show (value l * b + d.val) % b = d.val
      rw [Nat.mul_comm, Nat.mul_add_mod, Nat.mod_eq_of_lt d.isLt]
    rw [value_append_singleton, word_succ, hdiv, hmod, ih]

theorem value_injective [NeZero b] {l l' : List (Fin b)} (h : value l = value l') : l = l' := by
  rw [← word_value l, h, word_value]

/-- Another letter makes the value larger. -/
theorem value_lt_append_singleton [NeZero b] (l : List (Fin b)) (d : Fin b) : value l < value (l ++ [d]) := by
  rw [value_append_singleton]
  have hle : value l ≤ value l * b := Nat.le_mul_of_pos_right _ (Nat.pos_of_neZero b)
  omega

/-- **A longer word has a larger value.** -/
theorem value_lt_append [NeZero b] (l : List (Fin b)) {t : List (Fin b)} (ht : t ≠ []) : value l < value (l ++ t) := by
  induction t using List.reverseRecOn with
  | nil => exact absurd rfl ht
  | append_singleton t d ih =>
    rw [← List.append_assoc]
    by_cases hnil : t = []
    · rw [hnil, List.append_nil]
      exact value_lt_append_singleton l d
    · exact Nat.lt_trans (ih hnil) (value_lt_append_singleton _ d)

/-- A word of a given length has at least the value that its length forces. -/
theorem pow_le_value (l : List (Fin b)) : b ^ l.length ≤ value l * b + 1 := by
  induction l using List.reverseRecOn with
  | nil => simp
  | append_singleton l d ih =>
    rw [List.length_append, List.length_singleton, Nat.pow_succ, value_append_singleton]
    calc b ^ l.length * b
        ≤ (value l * b + 1) * b := Nat.mul_le_mul_right b ih
      _ ≤ (value l * b + d.val + 1) * b + 1 :=
          Nat.le_succ_of_le (Nat.mul_le_mul_right b (by omega))

end DogeIndexer.Bijective
