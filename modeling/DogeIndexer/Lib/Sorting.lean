import Mathlib.Algebra.Group.Int.Defs
import Mathlib.Algebra.GroupWithZero.Nat
import Mathlib.Data.List.Basic
import Mathlib.Order.Lattice

/-!
# Sorting by a key

`sortByKey` is a stable sort by the key of each element, as `sort_by_key` is.

* `sortByKey_head`, `sortByKey_getLast` — the first and the last element have the smallest and the
  largest key.
-/

set_option autoImplicit false

namespace DogeIndexer

variable {α κ : Type} [LinearOrder κ]

def sortByKey (key : α → κ) (l : List α) : List α := l.mergeSort (fun a b => decide (key a ≤ key b))

theorem mem_sortByKey {key : α → κ} {l : List α} {a : α} : a ∈ sortByKey key l ↔ a ∈ l := List.mem_mergeSort

theorem sortByKey_pairwise (key : α → κ) (l : List α) : (sortByKey key l).Pairwise (fun a b => key a ≤ key b) := by
  have htrans : ∀ a b c : α, decide (key a ≤ key b) = true → decide (key b ≤ key c) = true →
      decide (key a ≤ key c) = true :=
    fun a b c hab hbc => decide_eq_true (le_trans (of_decide_eq_true hab) (of_decide_eq_true hbc))
  have htotal : ∀ a b : α, (decide (key a ≤ key b) || decide (key b ≤ key a)) = true := by
    intro a b
    simpa using le_total (key a) (key b)
  exact (List.pairwise_mergeSort htrans htotal l).imp (fun hab => of_decide_eq_true hab)

/-- The first element has the smallest key. -/
theorem sortByKey_head {key : α → κ} {l : List α} {a : α} (h : (sortByKey key l).head? = some a) :
    a ∈ l ∧ ∀ b ∈ l, key a ≤ key b := by
  obtain ⟨rest, hrest⟩ := List.head?_eq_some_iff.mp h
  have hsorted := sortByKey_pairwise key l
  rw [hrest, List.pairwise_cons] at hsorted
  refine ⟨mem_sortByKey.mp (hrest ▸ List.mem_cons_self), fun b hb => ?_⟩
  have hmem : b ∈ a :: rest := hrest ▸ mem_sortByKey.mpr hb
  rcases List.mem_cons.mp hmem with rfl | hb
  · exact le_rfl
  · exact hsorted.1 b hb

/-- The last element has the largest key. -/
theorem sortByKey_getLast {key : α → κ} {l : List α} {a : α} (h : (sortByKey key l).getLast? = some a) :
    a ∈ l ∧ ∀ b ∈ l, key b ≤ key a := by
  obtain ⟨front, hfront⟩ := List.getLast?_eq_some_iff.mp h
  have hsorted := sortByKey_pairwise key l
  rw [hfront, List.pairwise_append] at hsorted
  refine ⟨mem_sortByKey.mp (hfront ▸ List.mem_append_right _ List.mem_cons_self), fun b hb => ?_⟩
  have hmem : b ∈ front ++ [a] := hfront ▸ mem_sortByKey.mpr hb
  rcases List.mem_append.mp hmem with hb | hb
  · exact hsorted.2.2 b hb a List.mem_cons_self
  · rw [List.mem_singleton.mp hb]

theorem sortByKey_eq_nil {key : α → κ} {l : List α} : sortByKey key l = [] ↔ l = [] := by
  rw [← List.length_eq_zero_iff, ← List.length_eq_zero_iff, sortByKey, List.length_mergeSort]

end DogeIndexer
