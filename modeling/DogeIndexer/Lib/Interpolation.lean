import Mathlib.Algebra.Group.Int.Defs
import Mathlib.Algebra.GroupWithZero.Nat
import Mathlib.Data.Nat.Basic
import Mathlib.Order.Lattice

/-!
# Linear interpolation between decreasing steps

A value that falls from one step to the next over an interval, in whole numbers with the quotient rounded down.

* `step_le_interpolate`, `interpolate_le_step` — the value lies between the steps of its interval.
* `interpolate_antitone` — it never rises, across the borders of the intervals as well.
-/

set_option autoImplicit false

namespace DogeIndexer.Interpolation

/-- The value at `x`, from step `x / interval` towards the next one. -/
def interpolate (step : Nat → Nat) (interval x : Nat) : Nat :=
  step (x / interval) - (step (x / interval) - step (x / interval + 1)) * (x % interval) / interval

variable {step : Nat → Nat} {interval : Nat}

/-- What is taken off a step is at most the way to the next one. -/
theorem fall_le (step : Nat → Nat) {interval : Nat} (hpos : 0 < interval) (x : Nat) :
    (step (x / interval) - step (x / interval + 1)) * (x % interval) / interval ≤
      step (x / interval) - step (x / interval + 1) := by
  refine Nat.div_le_of_le_mul ?_
  rw [Nat.mul_comm interval]
  exact Nat.mul_le_mul_left _ (Nat.le_of_lt (Nat.mod_lt x hpos))

theorem interpolate_le_step (step : Nat → Nat) (interval x : Nat) :
    interpolate step interval x ≤ step (x / interval) := Nat.sub_le _ _

theorem step_le_interpolate (hstep : Antitone step) (hpos : 0 < interval) (x : Nat) :
    step (x / interval + 1) ≤ interpolate step interval x := by
  have hfall := fall_le step hpos x
  have hnext : step (x / interval + 1) ≤ step (x / interval) := hstep (Nat.le_succ _)
  unfold interpolate
  omega

/-- **The value never rises.**  Within an interval more is taken off; from one interval to a later one the next step
lies between. -/
theorem interpolate_antitone (hstep : Antitone step) (hpos : 0 < interval) : Antitone (interpolate step interval) := by
  intro x y hxy
  have hdiv : x / interval ≤ y / interval := Nat.div_le_div_right hxy
  rcases Nat.lt_or_eq_of_le hdiv with hlater | hsame
  · calc interpolate step interval y
        ≤ step (y / interval) := interpolate_le_step step interval y
      _ ≤ step (x / interval + 1) := hstep hlater
      _ ≤ interpolate step interval x := step_le_interpolate hstep hpos x
  · have hmod : x % interval ≤ y % interval := by
      have hx := Nat.div_add_mod x interval
      have hy := Nat.div_add_mod y interval
      rw [← hsame] at hy
      omega
    unfold interpolate
    rw [← hsame]
    exact Nat.sub_le_sub_left (Nat.div_le_div_right (Nat.mul_le_mul_left _ hmod)) _

/-- At the beginning nothing is taken off. -/
theorem interpolate_zero (step : Nat → Nat) (interval : Nat) : interpolate step interval 0 = step 0 := by
  unfold interpolate
  rw [Nat.zero_mod, Nat.mul_zero, Nat.zero_div, Nat.sub_zero]

/-- From the last step on nothing is left. -/
theorem interpolate_of_zero {x : Nat} (h : step (x / interval) = 0) : interpolate step interval x = 0 :=
  Nat.eq_zero_of_le_zero (h ▸ interpolate_le_step step interval x)

end DogeIndexer.Interpolation
