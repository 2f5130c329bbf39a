import Mathlib.Algebra.Group.Int.Defs
import Mathlib.Algebra.GroupWithZero.Nat
import Mathlib.Data.Fin.Basic
import Mathlib.Data.List.Induction
import Mathlib.Data.Nat.Basic
import Mathlib.Order.Lattice

/-!
# Fixed-width unsigned integers

Addition and subtraction as a Rust build performs them: with overflow checks a result out of
range is a panic (`none`), without them it wraps around.  `checks` selects the build profile.

* `add_sub`, `sub_add` — in both profiles a completed operation is undone by its opposite.
* `ofBE_toBE`, `toBE_ofBE` — big-endian bytes of a value and back.
-/

set_option autoImplicit false

namespace DogeIndexer

abbrev Byte := Fin 256
abbrev U64 := Fin (2 ^ 64)
abbrev U128 := Fin (2 ^ 128)

namespace Machine

/-! ## Widths -/

-- named, so that numerals of these types do not carry a proof of their own
instance (priority := 2000) neZero_byte : NeZero 256 := ⟨by decide⟩
instance (priority := 2000) neZero_16 : NeZero (2 ^ 16) := ⟨by decide⟩
instance (priority := 2000) neZero_32 : NeZero (2 ^ 32) := ⟨by decide⟩
instance (priority := 2000) neZero_64 : NeZero (2 ^ 64) := ⟨by decide⟩
instance (priority := 2000) neZero_128 : NeZero (2 ^ 128) := ⟨by decide⟩
instance (priority := 2000) neZero_160 : NeZero (2 ^ 160) := ⟨by decide⟩
instance (priority := 2000) neZero_256 : NeZero (2 ^ 256) := ⟨by decide⟩
instance (priority := 2000) neZero_bytes (w : Nat) : NeZero (256 ^ w) := ⟨Nat.pos_iff_ne_zero.mp (Nat.pow_pos (by decide))⟩

theorem length_zeros : (List.replicate 32 (0 : Byte)).length = 32 := rfl

/-! ## Operations -/

variable {n : Nat}

/-- `a + b`. -/
def add (checks : Bool) (a b : Fin n) : Option (Fin n) :=
  if checks && decide (n ≤ a.val + b.val) then none else some (a + b)

/-- `a - b`. -/
def sub (checks : Bool) (a b : Fin n) : Option (Fin n) :=
  if checks && decide (a.val < b.val) then none else some (a - b)

/-- `a * b`. -/
def mul (checks : Bool) (a b : Fin n) : Option (Fin n) :=
  if checks && decide (n ≤ a.val * b.val) then none else some (a * b)

theorem add_eq_some {checks : Bool} {a b c : Fin n} (h : add checks a b = some c) : c = a + b := by
  unfold add at h
  split at h
  · cases h
  · exact (Option.some.inj h).symm

theorem sub_eq_some {checks : Bool} {a b c : Fin n} (h : sub checks a b = some c) : c = a - b := by
  unfold sub at h
  split at h
  · cases h
  · exact (Option.some.inj h).symm

/-- An addition that does not leave the range succeeds and is exact. -/
theorem add_of_lt (checks : Bool) {a b : Fin n} (h : a.val + b.val < n) :
    add checks a b = some ⟨a.val + b.val, h⟩ := by
  unfold add
  rw [if_neg (by simp; omega)]
  congr 1
  exact Fin.ext (by rw [Fin.val_add, Nat.mod_eq_of_lt h])

/-- A subtraction that does not underflow succeeds and is exact. -/
theorem sub_of_le (checks : Bool) {a b : Fin n} (h : b.val ≤ a.val) :
    sub checks a b = some ⟨a.val - b.val, by omega⟩ := by
  unfold sub
  rw [if_neg (by simp; omega)]
  congr 1
  refine Fin.ext ?_
  rw [Fin.coe_sub_iff_le.mpr (Fin.le_def.mpr h)]

/-- A multiplication that does not leave the range succeeds and is exact. -/
theorem mul_of_lt (checks : Bool) {a b : Fin n} (h : a.val * b.val < n) :
    mul checks a b = some ⟨a.val * b.val, h⟩ := by
  unfold mul
  rw [if_neg (by simp; omega)]
  congr 1
  exact Fin.ext (by rw [Fin.val_mul, Nat.mod_eq_of_lt h])

/-- A completed addition that does not leave the range completes with overflow checks, and is exact. -/
theorem add_checked {checks : Bool} {a b c : Fin n} (h : add checks a b = some c) (hlt : a.val + b.val < n) :
    add true a b = some c ∧ c.val = a.val + b.val := by
  rw [add_of_lt checks hlt] at h
  cases h
  exact ⟨add_of_lt true hlt, rfl⟩

/-- A completed subtraction that does not underflow completes with overflow checks, and is exact. -/
theorem sub_checked {checks : Bool} {a b c : Fin n} (h : sub checks a b = some c) (hle : b.val ≤ a.val) :
    sub true a b = some c ∧ c.val = a.val - b.val := by
  rw [sub_of_le checks hle] at h
  cases h
  exact ⟨sub_of_le true hle, rfl⟩

/-- With overflow checks a sum is exact. -/
theorem add_exact {a b c : Fin n} (h : add true a b = some c) : c.val = a.val + b.val := by
  by_cases hlt : a.val + b.val < n
  · exact (add_checked h hlt).2
  · unfold add at h
    rw [if_pos (by simpa using not_lt.mp hlt)] at h
    cases h

/-- What completes with overflow checks completes without them. -/
theorem add_unchecked {checks : Bool} {a b c : Fin n} (h : add true a b = some c) : add checks a b = some c := by
  cases checks with
  | true => exact h
  | false =>
    rw [add_eq_some h]
    rfl

theorem sub_unchecked {checks : Bool} {a b c : Fin n} (h : sub true a b = some c) : sub checks a b = some c := by
  cases checks with
  | true => exact h
  | false =>
    rw [sub_eq_some h]
    rfl

/-- A sum within the range is at least its summands. -/
theorem le_of_add {a b c : Fin n} (h : add true a b = some c) : b ≤ c := by
  have hc := add_eq_some h
  unfold add at h
  split at h
  · cases h
  · rename_i hlt
    have hlt : a.val + b.val < n := by simpa using hlt
    rw [hc, Fin.le_def, Fin.val_add, Nat.mod_eq_of_lt hlt]
    exact Nat.le_add_left _ _

@[simp] theorem sub_zero [NeZero n] (a : Fin n) : a - 0 = a := by
  refine Fin.ext ?_
  rw [Fin.coe_sub_iff_le.mpr (Fin.zero_le a), Fin.val_zero, Nat.sub_zero]

/-- **A completed addition is undone by the subtraction**, in either profile. -/
theorem add_sub {checks : Bool} {a b c : Fin n} (h : add checks a b = some c) :
    sub checks c b = some a := by
  have hc := add_eq_some h
  unfold add at h
  have hback : a + b - b = a := by
    refine Fin.ext ?_
    rw [Fin.sub_def, Fin.add_def]
    have ha := a.isLt
    have hb := b.isLt
    simp only
    by_cases hlt : a.val + b.val < n
    · rw [Nat.mod_eq_of_lt hlt, show n - b.val + (a.val + b.val) = a.val + n by omega,
        Nat.add_mod_right, Nat.mod_eq_of_lt ha]
    · have hwrap : (a.val + b.val) % n = a.val + b.val - n := by
        rw [Nat.mod_eq_sub_mod (by omega), Nat.mod_eq_of_lt (by omega)]
      rw [hwrap, show n - b.val + (a.val + b.val - n) = a.val by omega, Nat.mod_eq_of_lt ha]
  unfold sub
  rw [hc, hback]
  cases checks with
  | false => simp
  | true =>
    split at h
    · cases h
    · rename_i hn
      simp only [Bool.true_and, decide_eq_true_eq, not_le] at hn
      rw [if_neg]
      rw [Fin.val_add, Nat.mod_eq_of_lt hn]
      simp

/-- **A completed subtraction is undone by the addition**, in either profile. -/
theorem sub_add {checks : Bool} {a b c : Fin n} (h : sub checks a b = some c) :
    add checks c b = some a := by
  have hc := sub_eq_some h
  unfold sub at h
  have ha := a.isLt
  have hb := b.isLt
  have hback : a - b + b = a := by
    refine Fin.ext ?_
    rw [Fin.add_def, Fin.sub_def]
    simp only
    by_cases hle : b.val ≤ a.val
    · rw [show n - b.val + a.val = (a.val - b.val) + n by omega, Nat.add_mod_right,
        Nat.mod_eq_of_lt (show a.val - b.val < n by omega),
        show a.val - b.val + b.val = a.val by omega, Nat.mod_eq_of_lt ha]
    · rw [Nat.mod_eq_of_lt (show n - b.val + a.val < n by omega),
        show n - b.val + a.val + b.val = a.val + n by omega, Nat.add_mod_right,
        Nat.mod_eq_of_lt ha]
  unfold add
  rw [hc, hback]
  cases checks with
  | false => simp
  | true =>
    split at h
    · cases h
    · rename_i hn
      simp only [Bool.true_and, decide_eq_true_eq, not_lt] at hn
      rw [if_neg]
      rw [Fin.coe_sub_iff_le.mpr (Fin.le_def.mpr hn)]
      simp only [Bool.true_and, decide_eq_true_eq, not_le]
      omega

/-- `checked_sub`. -/
def checkedSub (a b : Fin n) : Option (Fin n) := if b ≤ a then some (a - b) else none

theorem checkedSub_of_le {a b : Fin n} (h : b.val ≤ a.val) :
    checkedSub a b = some ⟨a.val - b.val, by omega⟩ := by
  unfold checkedSub
  rw [if_pos (Fin.le_def.mpr h)]
  congr 1
  refine Fin.ext ?_
  rw [Fin.coe_sub_iff_le.mpr (Fin.le_def.mpr h)]

/-- `checked_add`. -/
def checkedAdd (a b : Fin n) : Option (Fin n) := if h : a.val + b.val < n then some ⟨a.val + b.val, h⟩ else none

/-- `checked_mul`. -/
def checkedMul (a b : Fin n) : Option (Fin n) := if h : a.val * b.val < n then some ⟨a.val * b.val, h⟩ else none

/-- `saturating_sub`. -/
def saturatingSub (a b : Fin n) : Fin n := ⟨a.val - b.val, Nat.lt_of_le_of_lt (Nat.sub_le _ _) a.isLt⟩

/-- `saturating_add`. -/
def saturatingAdd [NeZero n] (a b : Fin n) : Fin n :=
  if h : a.val + b.val < n then ⟨a.val + b.val, h⟩ else Fin.ofNat n (n - 1)

/-- `saturating_mul`. -/
def saturatingMul [NeZero n] (a b : Fin n) : Fin n :=
  if h : a.val * b.val < n then ⟨a.val * b.val, h⟩ else Fin.ofNat n (n - 1)

/-! ## Big-endian bytes -/

/-- `to_be_bytes` at width `w`. -/
def toBE : Nat → Nat → List Byte
  | 0, _ => []
  | w + 1, v => toBE w (v / 256) ++ [Fin.ofNat 256 v]

/-- `from_be_bytes`. -/
def ofBE (l : List Byte) : Nat := l.foldl (fun acc b => acc * 256 + b.val) 0

@[simp] theorem length_toBE : ∀ (w v : Nat), (toBE w v).length = w
  | 0, _ => rfl
  | w + 1, v => by simp [toBE, length_toBE w]

theorem toBE_add (w k v : Nat) : toBE (w + k) v = toBE w (v / 256 ^ k) ++ toBE k v := by
  induction k generalizing v with
  | zero => simp [toBE]
  | succ k ih => rw [Nat.add_succ, toBE, ih, toBE, Nat.div_div_eq_div_mul, Nat.pow_succ', List.append_assoc]

theorem ofBE_append_singleton (l : List Byte) (b : Byte) : ofBE (l ++ [b]) = ofBE l * 256 + b.val := by
  simp [ofBE]

theorem ofBE_toBE : ∀ (w v : Nat), v < 256 ^ w → ofBE (toBE w v) = v
  | 0, v, h => by
    have : v = 0 := by simpa using h
    subst this; rfl
  | w + 1, v, h => by
    have hdiv : v / 256 < 256 ^ w := by
      rw [Nat.div_lt_iff_lt_mul (by omega), ← Nat.pow_succ]; exact h
    rw [toBE, ofBE_append_singleton, ofBE_toBE w _ hdiv]
    simp only [Fin.ofNat]
    omega

theorem toBE_ofBE (l : List Byte) : toBE l.length (ofBE l) = l := by
  induction l using List.reverseRecOn with
  | nil => rfl
  | append_singleton l b ih =>
    have hb := b.isLt
    rw [List.length_append, List.length_singleton, toBE, ofBE_append_singleton]
    rw [show (ofBE l * 256 + b.val) / 256 = ofBE l by omega, ih]
    congr 2
    exact Fin.ext (by simp only [Fin.ofNat]; omega)

theorem ofBE_lt (l : List Byte) : ofBE l < 256 ^ l.length := by
  induction l using List.reverseRecOn with
  | nil => decide
  | append_singleton l b ih =>
    have hb := b.isLt
    rw [ofBE_append_singleton, List.length_append, List.length_singleton, Nat.pow_succ]
    omega

end Machine

end DogeIndexer
