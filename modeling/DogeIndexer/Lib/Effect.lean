import Mathlib.Algebra.Group.Int.Defs
import Mathlib.Algebra.GroupWithZero.Nat
import Mathlib.Order.Lattice

/-!
# Programs that may fail and keep what they did

Inversion and invariant rules for `EStateM`, whose errors keep the state reached.

* `bind_eq_ok` — a completed sequence is two completed steps.
* `forM_induct` — a loop that completes preserves what each of its steps preserves.
* `bind_eq_error`, `forM_eq_error` — where a sequence and a loop fail.
* `Keeps` — what a program preserves even when it fails.
* `Raises` — what is known of the errors of a program.
* `RunAlike` — programs with the same outcome on related states.
* `Fallible.bind_eq_ok`, `Fallible.foldlM_induct` — the same for `Except`.
-/

set_option autoImplicit false

namespace DogeIndexer.Effect

universe u

variable {ε σ α β : Type u}

theorem bind_eq_ok {x : EStateM ε σ α} {f : α → EStateM ε σ β} {s s'' : σ} {b : β} :
    (x >>= f) s = .ok b s'' ↔ ∃ a s', x s = .ok a s' ∧ f a s' = .ok b s'' := by
  change (match x s with
    | .ok a s => f a s
    | .error e s => .error e s) = _ ↔ _
  cases x s with
  | ok a s' =>
    constructor
    · intro h
      exact ⟨a, s', rfl, h⟩
    · rintro ⟨a', s₁, hx, hf⟩
      cases hx
      exact hf
  | error e s' =>
    constructor
    · intro h
      cases h
    · rintro ⟨a', s₁, hx, -⟩
      cases hx

theorem pure_eq_ok {a b : α} {s s' : σ} :
    (pure a : EStateM ε σ α) s = .ok b s' ↔ a = b ∧ s = s' := by
  constructor
  · intro h
    cases h
    exact ⟨rfl, rfl⟩
  · rintro ⟨rfl, rfl⟩
    rfl

theorem modify_eq_ok {f : σ → σ} {s s' : σ} {b : PUnit} :
    (modify f : EStateM ε σ PUnit) s = .ok b s' ↔ s' = f s := by
  constructor
  · intro h
    cases h
    rfl
  · rintro rfl
    rfl

theorem bind_of_ok {x : EStateM ε σ α} {f : α → EStateM ε σ β} {s s' : σ} {a : α} (h : x s = .ok a s') :
    (x >>= f) s = f a s' := by
  change (match x s with
    | .ok a s => f a s
    | .error e s => .error e s) = _
  rw [h]

theorem get_bind {f : σ → EStateM ε σ β} {s : σ} : ((get : EStateM ε σ σ) >>= f) s = f s s := rfl

theorem modify_bind {g : σ → σ} {f : PUnit → EStateM ε σ β} {s : σ} :
    ((modify g : EStateM ε σ PUnit) >>= f) s = f ⟨⟩ (g s) := rfl

theorem throw_ne_ok {e : ε} {s s' : σ} {a : α} : (throw e : EStateM ε σ α) s ≠ .ok a s' := by
  intro h
  cases h

/-- **Loop rule.** -/
theorem forM_induct {f : α → EStateM ε σ PUnit} {P : List α → σ → Prop} {l : List α} {s s' : σ}
    (hstep : ∀ a l s s', P (a :: l) s → f a s = .ok ⟨⟩ s' → P l s') (h : P l s)
    (hrun : l.forM f s = .ok ⟨⟩ s') : P [] s' := by
  induction l generalizing s with
  | nil =>
    cases hrun
    exact h
  | cons a l ih =>
    obtain ⟨_, s₁, h₁, h₂⟩ := bind_eq_ok.mp hrun
    exact ih (hstep a l s s₁ h h₁) h₂

/-! ## Failures -/

theorem bind_eq_error {x : EStateM ε σ α} {f : α → EStateM ε σ β} {s s'' : σ} {e : ε} :
    (x >>= f) s = .error e s'' ↔
      x s = .error e s'' ∨ ∃ a s', x s = .ok a s' ∧ f a s' = .error e s'' := by
  change (match x s with
    | .ok a s => f a s
    | .error e s => .error e s) = _ ↔ _
  cases x s with
  | ok a s' =>
    constructor
    · intro h
      exact Or.inr ⟨a, s', rfl, h⟩
    · rintro (h | ⟨a', s₁, hx, hf⟩)
      · cases h
      · cases hx
        exact hf
  | error e' s' =>
    constructor
    · intro h
      cases h
      exact Or.inl rfl
    · rintro (h | ⟨a', s₁, hx, -⟩)
      · cases h
        rfl
      · cases hx

theorem pure_ne_error {a : α} {s s' : σ} {e : ε} : (pure a : EStateM ε σ α) s ≠ .error e s' := by
  intro h
  cases h

theorem modify_ne_error {f : σ → σ} {s s' : σ} {e : ε} :
    (modify f : EStateM ε σ PUnit) s ≠ .error e s' := by
  intro h
  cases h

theorem throw_eq_error {e e' : ε} {s s' : σ} :
    (throw e : EStateM ε σ α) s = .error e' s' ↔ e = e' ∧ s = s' := by
  constructor
  · intro h
    cases h
    exact ⟨rfl, rfl⟩
  · rintro ⟨rfl, rfl⟩
    rfl

/-- **A loop that fails** completed some of its steps and failed in the next. -/
theorem forM_eq_error {f : α → EStateM ε σ PUnit} {l : List α} {s s' : σ} {e : ε}
    (h : l.forM f s = .error e s') :
    ∃ done a rest s₁, l = done ++ a :: rest ∧ done.forM f s = .ok ⟨⟩ s₁ ∧ f a s₁ = .error e s' := by
  induction l generalizing s with
  | nil => cases h
  | cons a l ih =>
    rcases bind_eq_error.mp h with h | ⟨_, s₁, h₁, h₂⟩
    · exact ⟨[], a, l, s, rfl, rfl, h⟩
    · obtain ⟨done, b, rest, s₂, rfl, hdone, hb⟩ := ih h₂
      exact ⟨a :: done, b, rest, s₂, rfl, bind_eq_ok.mpr ⟨⟨⟩, s₁, h₁, hdone⟩, hb⟩

/-! ## Either outcome -/

/-- The state in which a program ends, completed or not. -/
def endState : EStateM.Result ε σ α → σ
  | .ok _ s => s
  | .error _ s => s

/-- The program completes. -/
def completed : EStateM.Result ε σ α → Bool
  | .ok _ _ => true
  | .error _ _ => false

theorem exists_of_completed {r : EStateM.Result ε σ α} (h : completed r = true) : ∃ a s, r = .ok a s := by
  cases r with
  | ok a s => exact ⟨a, s, rfl⟩
  | error e s => cases h

/-- The end of a sequence is that of its first step, when it fails, or that of the second. -/
theorem endState_bind {Q : σ → Prop} {x : EStateM ε σ α} {f : α → EStateM ε σ β} {s : σ}
    (hfail : ∀ e s', x s = .error e s' → Q s') (hok : ∀ a s', x s = .ok a s' → Q (endState (f a s'))) :
    Q (endState ((x >>= f) s)) := by
  cases hrun : x s with
  | ok a s' =>
    rw [bind_of_ok hrun]
    exact hok a s' hrun
  | error e s' =>
    rw [bind_eq_error.mpr (Or.inl hrun)]
    exact hfail e s' hrun

/-- The program leads from states with `Q` to states with `Q`, completed or not. -/
def Keeps (Q : σ → Prop) (x : EStateM ε σ α) : Prop := ∀ s, Q s → Q (endState (x s))

section

variable {Q : σ → Prop}

theorem Keeps.pure (a : α) : Keeps Q (pure a : EStateM ε σ α) := fun _ h => h

theorem Keeps.throw (e : ε) : Keeps Q (throw e : EStateM ε σ α) := fun _ h => h

theorem Keeps.get : Keeps Q (get : EStateM ε σ σ) := fun _ h => h

theorem Keeps.modify {f : σ → σ} (hf : ∀ s, Q s → Q (f s)) : Keeps Q (modify f : EStateM ε σ PUnit) := hf

theorem Keeps.bind {x : EStateM ε σ α} {f : α → EStateM ε σ β} (hx : Keeps Q x) (hf : ∀ a, Keeps Q (f a)) :
    Keeps Q (x >>= f) := by
  intro s h
  have hend := hx s h
  change Q (endState (match x s with
    | .ok a s => f a s
    | .error e s => .error e s))
  cases hrun : x s with
  | ok a s' =>
    rw [hrun] at hend
    exact hf a s' hend
  | error e s' =>
    rw [hrun] at hend
    exact hend

/-- A program that reads its state may use what holds there. -/
theorem Keeps.get_bind {f : σ → EStateM ε σ β} (hf : ∀ s, Q s → Q (endState (f s s))) :
    Keeps Q ((MonadState.get : EStateM ε σ σ) >>= f) := hf

theorem Keeps.forM {f : α → EStateM ε σ PUnit} {l : List α} (hf : ∀ a ∈ l, Keeps Q (f a)) :
    Keeps Q (l.forM f) := by
  induction l with
  | nil => exact Keeps.pure _
  | cons a l ih =>
    exact Keeps.bind (hf a List.mem_cons_self) (fun _ => ih (fun b hb => hf b (List.mem_cons_of_mem _ hb)))

end

/-! ## Errors -/

/-- Every error of the program satisfies `P`. -/
def Raises (P : ε → Prop) (x : EStateM ε σ α) : Prop := ∀ s e s', x s = .error e s' → P e

section

variable {P : ε → Prop}

theorem Raises.pure (a : α) : Raises P (pure a : EStateM ε σ α) := fun _ _ _ h => (pure_ne_error h).elim

theorem Raises.throw {e : ε} (he : P e) : Raises P (throw e : EStateM ε σ α) := by
  intro s e' s' h
  obtain ⟨rfl, -⟩ := throw_eq_error.mp h
  exact he

theorem Raises.get : Raises P (get : EStateM ε σ σ) := by
  intro s e s' h
  cases h

theorem Raises.modify (f : σ → σ) : Raises P (modify f : EStateM ε σ PUnit) :=
  fun _ _ _ h => (modify_ne_error h).elim

theorem Raises.bind {x : EStateM ε σ α} {f : α → EStateM ε σ β} (hx : Raises P x) (hf : ∀ a, Raises P (f a)) :
    Raises P (x >>= f) := by
  intro s e s' h
  rcases bind_eq_error.mp h with h | ⟨a, s₁, -, h⟩
  · exact hx s e s' h
  · exact hf a s₁ e s' h

theorem Raises.forM {f : α → EStateM ε σ PUnit} (hf : ∀ a, Raises P (f a)) (l : List α) :
    Raises P (l.forM f) := by
  intro s e s' h
  obtain ⟨_, a, _, s₁, -, -, ha⟩ := forM_eq_error h
  exact hf a s₁ e s' ha

end

/-! ## Two programs side by side -/

/-- The same value, and states related by `J`; or the same error, and states related by `E`. -/
inductive Alike (J E : σ → σ → Prop) : EStateM.Result ε σ α → EStateM.Result ε σ α → Prop
  | ok {a : α} {s s' : σ} (h : J s s') : Alike J E (.ok a s) (.ok a s')
  | error {e : ε} {s s' : σ} (h : E s s') : Alike J E (.error e s) (.error e s')

/-- Programs that run alike from states related by `I`. -/
def RunAlike (I J E : σ → σ → Prop) (x y : EStateM ε σ α) : Prop := ∀ s s', I s s' → Alike J E (x s) (y s')

section

variable {I J K E : σ → σ → Prop}

theorem RunAlike.pure (a : α) (h : ∀ s s', I s s' → J s s') :
    RunAlike I J E (pure a : EStateM ε σ α) (pure a) := fun s s' hs => .ok (h s s' hs)

theorem RunAlike.throw (e : ε) (h : ∀ s s', I s s' → E s s') :
    RunAlike I J E (throw e : EStateM ε σ α) (throw e) := fun s s' hs => .error (h s s' hs)

theorem RunAlike.modify {f g : σ → σ} (h : ∀ s s', I s s' → J (f s) (g s')) :
    RunAlike I J E (modify f : EStateM ε σ PUnit) (modify g) := fun s s' hs => .ok (h s s' hs)

theorem RunAlike.bind {x y : EStateM ε σ α} {f g : α → EStateM ε σ β} (hx : RunAlike I J E x y)
    (hf : ∀ a, RunAlike J K E (f a) (g a)) : RunAlike I K E (x >>= f) (y >>= g) := by
  intro s s' hs
  have hrun := hx s s' hs
  change Alike K E (match x s with
    | .ok a s => f a s
    | .error e s => .error e s) (match y s' with
    | .ok a s => g a s
    | .error e s => .error e s)
  generalize x s = r at hrun
  generalize y s' = r' at hrun
  cases hrun with
  | ok h => exact hf _ _ _ h
  | error h => exact .error h

/-- A program that reads its state may use how the states are related. -/
theorem RunAlike.get_bind {f g : σ → EStateM ε σ β} (h : ∀ s s', I s s' → Alike J E (f s s) (g s' s')) :
    RunAlike I J E ((MonadState.get : EStateM ε σ σ) >>= f) ((MonadState.get : EStateM ε σ σ) >>= g) := h

theorem RunAlike.weaken {x y : EStateM ε σ α} (h : RunAlike J K E x y) (hI : ∀ s s', I s s' → J s s') :
    RunAlike I K E x y := fun s s' hs => h s s' (hI s s' hs)

/-- **Loop rule**, where each step uses up a part of a budget. -/
theorem RunAlike.forM {B : Nat → σ → σ → Prop} {f g : α → EStateM ε σ PUnit} {w : α → Nat} {l : List α}
    (h : ∀ a ∈ l, ∀ b, RunAlike (B (w a + b)) (B b) E (f a) (g a)) (b : Nat) :
    RunAlike (B ((l.map w).sum + b)) (B b) E (l.forM f) (l.forM g) := by
  induction l with
  | nil =>
    rw [List.map_nil, List.sum_nil, Nat.zero_add]
    exact RunAlike.pure _ (fun _ _ hs => hs)
  | cons a l ih =>
    rw [List.map_cons, List.sum_cons, Nat.add_assoc]
    exact RunAlike.bind (h a List.mem_cons_self _) (fun _ => ih (fun a' ha' => h a' (List.mem_cons_of_mem _ ha')))

end

end DogeIndexer.Effect

/-! ## Computations that may fail -/

namespace DogeIndexer.Fallible

universe u v

variable {ε : Type u} {α β γ : Type v}

theorem ok_bind (a : α) (f : α → Except ε β) : (Except.ok a >>= f) = f a := rfl

theorem error_bind (e : ε) (f : α → Except ε β) : (Except.error e >>= f) = .error e := rfl

theorem bind_eq_ok {x : Except ε α} {f : α → Except ε β} {b : β} :
    (x >>= f) = .ok b ↔ ∃ a, x = .ok a ∧ f a = .ok b := by
  cases x with
  | ok a =>
    constructor
    · intro h
      exact ⟨a, rfl, h⟩
    · rintro ⟨a', hx, hf⟩
      cases hx
      exact hf
  | error e =>
    constructor
    · intro h
      cases h
    · rintro ⟨a', hx, -⟩
      cases hx

/-- A result is passed on. -/
theorem exists_bind {x : Except ε α} {f : α → Except ε β} {a : α} (hx : x = .ok a) (h : ∃ b, f a = .ok b) :
    ∃ b, (x >>= f) = .ok b := by
  subst hx
  exact h

theorem map_eq_ok {f : α → β} {x : Except ε α} {b : β} :
    x.map f = .ok b ↔ ∃ a, x = .ok a ∧ f a = b := by
  cases x with
  | ok a =>
    constructor
    · intro h
      cases h
      exact ⟨a, rfl, rfl⟩
    · rintro ⟨a', hx, rfl⟩
      cases hx
      rfl
  | error e =>
    constructor
    · intro h
      cases h
    · rintro ⟨a', hx, -⟩
      cases hx

/-- **Fold rule.** -/
theorem foldlM_induct {f : β → α → Except ε β} {P : List α → β → Prop} {l : List α} {b b' : β}
    (hstep : ∀ a l b b', P (a :: l) b → f b a = .ok b' → P l b') (h : P l b)
    (hrun : l.foldlM f b = .ok b') : P [] b' := by
  induction l generalizing b with
  | nil =>
    cases hrun
    exact h
  | cons a l ih =>
    rw [List.foldlM_cons] at hrun
    obtain ⟨b₁, h₁, h₂⟩ := bind_eq_ok.mp hrun
    exact ih (hstep a l b b₁ h h₁) h₂

theorem foldlM_cons_eq_ok {f : β → α → Except ε β} {a : α} {l : List α} {b b' : β} :
    (a :: l).foldlM f b = .ok b' ↔ ∃ b₁, f b a = .ok b₁ ∧ l.foldlM f b₁ = .ok b' := by
  rw [List.foldlM_cons]
  exact bind_eq_ok

/-- A fold whose steps also succeed elsewhere succeeds there. -/
theorem foldlM_of_ok {f g : β → α → Except ε β} (hstep : ∀ b a b', f b a = .ok b' → g b a = .ok b') {l : List α}
    {b b' : β} (h : l.foldlM f b = .ok b') : l.foldlM g b = .ok b' := by
  induction l generalizing b with
  | nil => exact h
  | cons a l ih =>
    obtain ⟨b₁, h₁, h₂⟩ := foldlM_cons_eq_ok.mp h
    exact foldlM_cons_eq_ok.mpr ⟨b₁, hstep b a b₁ h₁, ih h₂⟩

/-- Every error of the computation satisfies `P`. -/
def Raises (P : ε → Prop) (x : Except ε α) : Prop := ∀ e, x = .error e → P e

theorem Raises.ok {P : ε → Prop} (a : α) : Raises P (.ok a : Except ε α) := by
  intro e h
  cases h

theorem Raises.error {P : ε → Prop} {e : ε} (he : P e) : Raises P (.error e : Except ε α) := by
  intro e' h
  cases h
  exact he

theorem Raises.bind {P : ε → Prop} {x : Except ε α} {f : α → Except ε β} (hx : Raises P x)
    (hf : ∀ a, Raises P (f a)) : Raises P (x >>= f) := by
  intro e h
  cases x with
  | ok a => exact hf a e h
  | error e' =>
    cases h
    exact hx e rfl

theorem Raises.map {P : ε → Prop} {x : Except ε α} (f : α → β) (hx : Raises P x) : Raises P (x.map f) := by
  intro e h
  cases x with
  | ok a => cases h
  | error e' =>
    cases h
    exact hx e rfl

theorem Raises.ite {P : ε → Prop} {c : Prop} [Decidable c] {x y : Except ε α} (hx : Raises P x)
    (hy : Raises P y) : Raises P (if c then x else y) := by
  split
  · exact hx
  · exact hy

theorem Raises.foldlM {P : ε → Prop} {f : β → α → Except ε β} (hf : ∀ b a, Raises P (f b a)) (l : List α) (b : β) :
    Raises P (l.foldlM f b) := by
  induction l generalizing b with
  | nil => exact Raises.ok b
  | cons a l ih =>
    rw [List.foldlM_cons]
    exact (hf b a).bind ih

theorem Raises.mapM {P : ε → Prop} {f : α → Except ε β} (hf : ∀ a, Raises P (f a)) (l : List α) :
    Raises P (l.mapM f) := by
  induction l with
  | nil => exact Raises.ok []
  | cons a l ih =>
    rw [List.mapM_cons]
    exact (hf a).bind fun b => ih.bind fun bs => Raises.ok (b :: bs)

theorem foldlM_append_eq_ok {f : β → α → Except ε β} {l₁ l₂ : List α} {b b' : β} :
    (l₁ ++ l₂).foldlM f b = .ok b' ↔ ∃ b₁, l₁.foldlM f b = .ok b₁ ∧ l₂.foldlM f b₁ = .ok b' := by
  rw [List.foldlM_append]
  exact bind_eq_ok

end DogeIndexer.Fallible
