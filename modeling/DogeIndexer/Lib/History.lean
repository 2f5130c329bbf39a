import DogeIndexer.Lib.Effect
import Mathlib.Data.List.Induction

/-!
# Histories that can be undone

The steps that led to a state, most recent last, where states count only up to a relation `R`: what an
undo restores need not be the state itself, as long as it reads the same.

* `History.induct` — invariants of states that are reached by steps and undone steps.
* `History.unwind` — undoing the most recent steps leaves the history of the others.
-/

set_option autoImplicit false

namespace DogeIndexer

open Fallible

universe u

variable {S A X ε : Type u}

/-- The steps that lead from `init` to a state, each with the states before and after it. -/
inductive History (R : S → S → Prop) (Step : S → A → S → Prop) (init : S) : List (S × A × S) → S → Prop
  | nil {s : S} (h : R s init) : History R Step init [] s
  | push {l : List (S × A × S)} {s₀ s₁ s : S} {a : A} (before : History R Step init l s₀) (step : Step s₀ a s₁)
      (h : R s s₁) : History R Step init (l ++ [(s₀, a, s₁)]) s

namespace History

variable {R : S → S → Prop} {Step : S → A → S → Prop} {init s s' : S} {l : List (S × A × S)} {a : A}

/-- States that read the same have the same history. -/
theorem congr (htrans : ∀ a b c, R a b → R b c → R a c) (hs : R s' s) (h : History R Step init l s) :
    History R Step init l s' := by
  cases h with
  | nil h => exact .nil (htrans _ _ _ hs h)
  | push before step h => exact .push before step (htrans _ _ _ hs h)

/-- The last step, and the history before it. -/
theorem last {e : S × A × S} (h : History R Step init (l ++ [e]) s) :
    History R Step init l e.1 ∧ Step e.1 e.2.1 e.2.2 ∧ R s e.2.2 := by
  generalize hl : l ++ [e] = l' at h
  cases h with
  | nil h => simp at hl
  | push before step h =>
    obtain ⟨rfl, heq⟩ := List.append_inj' hl rfl
    cases heq
    exact ⟨before, step, h⟩

/-- The steps of a history are steps. -/
theorem mem_step {e : S × A × S} (h : History R Step init l s) (he : e ∈ l) : Step e.1 e.2.1 e.2.2 := by
  induction h with
  | nil h => cases he
  | push before step h ih =>
    rcases List.mem_append.mp he with he | he
    · exact ih he
    · rw [List.mem_singleton.mp he]
      exact step

/-- **Invariant rule**: what holds at first, is kept by every step, and does not tell apart states that
read the same, holds of the state and of all states of its history. -/
theorem induct {P : S → Prop} (h : History R Step init l s) (hinit : P init)
    (hcongr : ∀ s s', R s' s → P s → P s') (hstep : ∀ s₀ a s₁, P s₀ → Step s₀ a s₁ → P s₁) :
    P s ∧ ∀ e ∈ l, P e.1 := by
  induction h with
  | nil h => exact ⟨hcongr _ _ h hinit, fun e he => (List.not_mem_nil he).elim⟩
  | @push l s₀ s₁ s a before step h ih =>
    refine ⟨hcongr _ _ h (hstep _ _ _ ih.1 step), fun e he => ?_⟩
    rcases List.mem_append.mp he with he | he
    · exact ih.2 e he
    · rw [List.mem_singleton.mp he]
      exact ih.1

section

variable {proj : X → S} {undo : X → A → Except ε X} {x x' : X}

/-- **Undoing the most recent steps**, last first, leaves the history of those before them. -/
theorem unwind (htrans : ∀ a b c, R a b → R b c → R a c)
    (hundo : ∀ l s₀ a s₁ x x', History R Step init l s₀ → Step s₀ a s₁ → R (proj x) s₁ → undo x a = .ok x' →
      R (proj x') s₀)
    {undone : List (S × A × S)} (h : History R Step init (l ++ undone) (proj x))
    (hrun : (undone.map fun e => e.2.1).reverse.foldlM undo x = .ok x') :
    History R Step init l (proj x') ∧ ∀ e, undone.head? = some e → R (proj x') e.1 := by
  induction undone using List.reverseRecOn generalizing x with
  | nil =>
    cases hrun
    rw [List.append_nil] at h
    exact ⟨h, fun e he => (by cases he)⟩
  | append_singleton undone e ih =>
    rw [← List.append_assoc] at h
    obtain ⟨hbefore, hstep, hread⟩ := h.last
    rw [List.map_append, List.reverse_append] at hrun
    obtain ⟨x₁, hone, hrest⟩ := foldlM_cons_eq_ok.mp hrun
    have hx₁ := hundo _ _ _ _ _ _ hbefore hstep hread hone
    obtain ⟨hkept, hhead⟩ := ih (hbefore.congr htrans hx₁) hrest
    refine ⟨hkept, fun e' he' => ?_⟩
    cases undone with
    | nil =>
      cases he'
      cases hrest
      exact hx₁
    | cons e₀ undone => exact hhead e' he'

end

end History

end DogeIndexer
