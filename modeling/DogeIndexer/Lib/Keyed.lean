import DogeIndexer.Lib.Table
import Mathlib.Data.List.Nodup
import Mathlib.Data.List.Perm.Basic

/-!
# Sequences of keyed updates

An update names one key and maps the reading at that key to a new reading (`none` outside
stands for an abort).  A run folds a list of updates over a table.

* `run_eq_some_iff` — a run decomposes by key: at each key it is the fold of the updates of
  that key over the reading there.
* `run_get_of_mem`, `run_get_of_notMem` — what such a run leaves at each key.
* `Overwrites.run_absorb`, `Overwrites.run_repeat`, `Overwrites.run_redo` — a run of overwriting
  updates hides earlier updates of its keys, and any of its updates may be made again.
-/

set_option autoImplicit false

namespace DogeIndexer

universe u v w

namespace Table

variable {K : Type u} {V : Type v} [LinearOrder K]

/-- Make the reading at `k` be `o`. -/
def assign (t : Table K V) (k : K) : Option V → Table K V
  | some v => t.insert k v
  | none => t.erase k

@[simp] theorem get_assign (t : Table K V) (k k' : K) (o : Option V) :
    (t.assign k o).get k' = if k' = k then o else t.get k' := by
  cases o with
  | some v => exact get_insert t k k' v
  | none => exact get_erase t k k'

theorem assign_get (t : Table K V) (k : K) : t.assign k (t.get k) = t := by
  refine ext_get (fun k' => ?_)
  rw [get_assign]
  split
  · rename_i hk; rw [hk]
  · rfl

end Table

namespace Keyed

variable {K : Type u} {V : Type v} {A : Type w} [LinearOrder K]
variable (key : A → K) (effect : A → Option V → Option (Option V))

/-- One update. -/
def step (t : Table K V) (a : A) : Option (Table K V) :=
  (effect a (t.get (key a))).map (t.assign (key a))

/-- A list of updates, in order. -/
def run (t : Table K V) (l : List A) : Option (Table K V) := l.foldlM (step key effect) t

/-- The same updates seen from a single key. -/
def at_ (l : List A) (o : Option V) : Option (Option V) := l.foldlM (fun o a => effect a o) o

/-- The updates of one key. -/
def of (l : List A) (k : K) : List A := l.filter (fun a => key a = k)

variable {key effect}

theorem run_cons (t : Table K V) (a : A) (l : List A) :
    run key effect t (a :: l) = (step key effect t a).bind (fun t' => run key effect t' l) := by
  simp [run, List.foldlM_cons]

theorem run_append (t : Table K V) (l₁ l₂ : List A) :
    run key effect t (l₁ ++ l₂) = (run key effect t l₁).bind (fun t' => run key effect t' l₂) := by
  simp [run, List.foldlM_append]

theorem at_cons (a : A) (l : List A) (o : Option V) :
    at_ effect (a :: l) o = (effect a o).bind (at_ effect l) := by
  simp only [at_, List.foldlM_cons, Option.bind_eq_bind]
  rfl

@[simp] theorem at_nil (o : Option V) : at_ effect [] o = some o := rfl

theorem of_append (l₁ l₂ : List A) (k : K) : of key (l₁ ++ l₂) k = of key l₁ k ++ of key l₂ k :=
  List.filter_append ..

theorem step_eq_some {t t' : Table K V} {a : A} (h : step key effect t a = some t') :
    ∃ o, effect a (t.get (key a)) = some o ∧ t' = t.assign (key a) o := by
  unfold step at h
  cases he : effect a (t.get (key a)) with
  | none => rw [he] at h; cases h
  | some o =>
    rw [he] at h
    exact ⟨o, rfl, (Option.some.inj h).symm⟩

/-- **A run decomposes by key.** -/
theorem run_eq_some_iff {l : List A} {t t' : Table K V} :
    run key effect t l = some t' ↔
      ∀ k, at_ effect (of key l k) (t.get k) = some (t'.get k) := by
  induction l generalizing t with
  | nil =>
    simp only [run, List.foldlM_nil, of, List.filter_nil, at_nil, Option.some.injEq]
    constructor
    · intro h k
      cases h; rfl
    · intro h
      exact congrArg some (Table.ext_get h)
  | cons a l ih =>
    rw [run_cons]
    constructor
    · intro h k
      cases hs : step key effect t a with
      | none => rw [hs] at h; cases h
      | some t₁ =>
        rw [hs, Option.bind_some] at h
        obtain ⟨o, ho, rfl⟩ := step_eq_some hs
        have hk := ih.mp h k
        rw [Table.get_assign] at hk
        by_cases hak : key a = k
        · subst hak
          rw [if_pos rfl] at hk
          rw [of, List.filter_cons_of_pos (by simp), at_cons, ho, Option.bind_some]
          exact hk
        · rw [if_neg (Ne.symm hak)] at hk
          rw [of, List.filter_cons_of_neg (by simp [hak])]
          exact hk
    · intro h
      have ha := h (key a)
      rw [of, List.filter_cons_of_pos (by simp), at_cons] at ha
      cases ho : effect a (t.get (key a)) with
      | none => rw [ho] at ha; cases ha
      | some o =>
        rw [ho, Option.bind_some] at ha
        have hs : step key effect t a = some (t.assign (key a) o) := by simp [step, ho]
        rw [hs, Option.bind_some]
        refine ih.mpr (fun k => ?_)
        rw [Table.get_assign]
        by_cases hak : key a = k
        · subst hak
          rw [if_pos rfl]
          exact ha
        · have hk := h k
          rw [of, List.filter_cons_of_neg (by simp [hak])] at hk
          rw [if_neg (Ne.symm hak)]
          exact hk

/-- **A run completes when it does at every key.** -/
theorem exists_run_of_at {l : List A} {t : Table K V} (h : ∀ k, ∃ o, at_ effect (of key l k) (t.get k) = some o) :
    ∃ t', run key effect t l = some t' := by
  induction l generalizing t with
  | nil => exact ⟨t, rfl⟩
  | cons a l ih =>
    obtain ⟨o', ha⟩ := h (key a)
    rw [of, List.filter_cons_of_pos (by simp), at_cons] at ha
    obtain ⟨o, ho, hrest⟩ := Option.bind_eq_some_iff.mp ha
    have hs : step key effect t a = some (t.assign (key a) o) := by simp [step, ho]
    rw [run_cons, hs, Option.bind_some]
    refine ih fun k => ?_
    rw [Table.get_assign]
    by_cases hak : k = key a
    · subst hak
      rw [if_pos rfl]
      exact ⟨o', hrest⟩
    · obtain ⟨p, hp⟩ := h k
      rw [of, List.filter_cons_of_neg (by simpa using Ne.symm hak)] at hp
      rw [if_neg hak]
      exact ⟨p, hp⟩

/-! ## Distinct keys -/

theorem of_eq_nil {l : List A} {k : K} (h : k ∉ l.map key) : of key l k = [] := by
  refine List.filter_eq_nil_iff.mpr (fun a ha => ?_)
  simp only [decide_eq_true_eq]
  exact fun hk => h (List.mem_map.mpr ⟨a, ha, hk⟩)

theorem of_eq_singleton {l : List A} (hn : (l.map key).Nodup) {a : A} (ha : a ∈ l) :
    of key l (key a) = [a] := by
  induction l with
  | nil => cases ha
  | cons b l ih =>
    simp only [List.map_cons, List.nodup_cons] at hn
    rcases List.mem_cons.mp ha with rfl | ha
    · rw [of, List.filter_cons_of_pos (by simp)]
      exact congrArg (a :: ·) (of_eq_nil hn.1)
    · have hne : key b ≠ key a := fun h => hn.1 (h ▸ List.mem_map.mpr ⟨a, ha, rfl⟩)
      rw [of, List.filter_cons_of_neg (by simp [hne])]
      exact ih hn.2 ha

/-- A run over distinct keys leaves at each updated key the effect of its update. -/
theorem run_get_of_mem {l : List A} {t t' : Table K V} (hn : (l.map key).Nodup)
    (h : run key effect t l = some t') {a : A} (ha : a ∈ l) :
    effect a (t.get (key a)) = some (t'.get (key a)) := by
  have hk := run_eq_some_iff.mp h (key a)
  rw [of_eq_singleton hn ha, at_cons] at hk
  cases ho : effect a (t.get (key a)) with
  | none => rw [ho] at hk; cases hk
  | some o => rw [ho] at hk; exact hk

/-- A run leaves every other key as it was. -/
theorem run_get_of_notMem {l : List A} {t t' : Table K V} (h : run key effect t l = some t') {k : K}
    (hk : k ∉ l.map key) : t'.get k = t.get k := by
  have := run_eq_some_iff.mp h k
  rw [of_eq_nil hk] at this
  exact (Option.some.inj this).symm

/-- The reading a run over distinct keys leaves, when no update aborts. -/
theorem exists_run {l : List A} {t : Table K V} (hn : (l.map key).Nodup)
    (h : ∀ a ∈ l, ∃ o, effect a (t.get (key a)) = some o) : ∃ t', run key effect t l = some t' := by
  induction l generalizing t with
  | nil => exact ⟨t, rfl⟩
  | cons a l ih =>
    simp only [List.map_cons, List.nodup_cons] at hn
    obtain ⟨o, ho⟩ := h a List.mem_cons_self
    have hs : step key effect t a = some (t.assign (key a) o) := by simp [step, ho]
    rw [run_cons, hs, Option.bind_some]
    refine ih hn.2 (fun b hb => ?_)
    have hne : key b ≠ key a := fun hk => hn.1 (hk ▸ List.mem_map.mpr ⟨b, hb, rfl⟩)
    rw [Table.get_assign, if_neg hne]
    exact h b (List.mem_cons_of_mem _ hb)

/-- A run over distinct keys that changes nothing. -/
theorem run_eq_self_iff {l : List A} {t : Table K V} (hn : (l.map key).Nodup) :
    run key effect t l = some t ↔ ∀ a ∈ l, effect a (t.get (key a)) = some (t.get (key a)) := by
  constructor
  · intro h a ha
    exact run_get_of_mem hn h ha
  · intro h
    obtain ⟨t', ht'⟩ := exists_run hn (fun a ha => ⟨_, h a ha⟩)
    have hsame : t' = t := by
      refine Table.ext_get (fun k => ?_)
      by_cases hk : k ∈ l.map key
      · obtain ⟨a, ha, rfl⟩ := List.mem_map.mp hk
        have hget := run_get_of_mem hn ht' ha
        rw [h a ha] at hget
        exact (Option.some.inj hget).symm
      · exact run_get_of_notMem ht' hk
    rw [ht', hsame]

/-- A run over distinct keys aborts exactly when one of its updates does. -/
theorem run_eq_none_iff {l : List A} {t : Table K V} (hn : (l.map key).Nodup) :
    run key effect t l = none ↔ ∃ a ∈ l, effect a (t.get (key a)) = none := by
  constructor
  · intro h
    by_contra hne
    obtain ⟨t', ht'⟩ : ∃ t', run key effect t l = some t' := exists_run hn (fun a ha => by
      cases ho : effect a (t.get (key a)) with
      | none => exact absurd ⟨a, ha, ho⟩ hne
      | some o => exact ⟨o, rfl⟩)
    rw [h] at ht'
    cases ht'
  · rintro ⟨a, ha, ho⟩
    cases hr : run key effect t l with
    | none => rfl
    | some t' =>
      have := run_get_of_mem hn hr ha
      rw [ho] at this
      cases this

/-! ## Invariants of a run -/

/-- **What every update preserves, a run preserves at every key.** -/
theorem run_forall {P : Option V → Prop} {l : List A} {t t' : Table K V}
    (hstep : ∀ a ∈ l, ∀ o o', P o → effect a o = some o' → P o') (h : run key effect t l = some t')
    (ht : ∀ k, P (t.get k)) (k : K) : P (t'.get k) := by
  induction l generalizing t with
  | nil =>
    cases h
    exact ht k
  | cons a l ih =>
    rw [run_cons] at h
    obtain ⟨t₁, hs, hrun⟩ := Option.bind_eq_some_iff.mp h
    obtain ⟨o, ho, rfl⟩ := step_eq_some hs
    refine ih (fun b hb => hstep b (List.mem_cons_of_mem _ hb)) hrun (fun k' => ?_)
    rw [Table.get_assign]
    split
    · exact hstep a List.mem_cons_self _ _ (ht _) ho
    · exact ht k'

/-! ## Updates that overwrite -/

/-- Every update of the list sets its key, whatever stood there. -/
def Overwrites (effect : A → Option V → Option (Option V)) (l : List A) : Prop :=
  ∀ a ∈ l, ∃ o', ∀ o, effect a o = some o'

theorem Overwrites.of_subset {l l' : List A} (h : Overwrites effect l) (hsub : l' ⊆ l) :
    Overwrites effect l' := fun a ha => h a (hsub ha)

/-- Some update of the list hides what stood there before. -/
theorem Overwrites.at_congr {l : List A} (h : Overwrites effect l) (hne : l ≠ []) (o o' : Option V) :
    at_ effect l o = at_ effect l o' := by
  cases l with
  | nil => exact absurd rfl hne
  | cons a l =>
    obtain ⟨o₁, ho₁⟩ := h a List.mem_cons_self
    rw [at_cons, at_cons, ho₁ o, ho₁ o']

/-- Overwriting updates never abort. -/
theorem Overwrites.exists_run {l : List A} (h : Overwrites effect l) (t : Table K V) :
    ∃ t', run key effect t l = some t' := by
  induction l generalizing t with
  | nil => exact ⟨t, rfl⟩
  | cons a l ih =>
    obtain ⟨o, ho⟩ := h a List.mem_cons_self
    have hs : step key effect t a = some (t.assign (key a) o) := by simp [step, ho]
    rw [run_cons, hs, Option.bind_some]
    exact ih (fun b hb => h b (List.mem_cons_of_mem _ hb)) _

theorem of_ne_nil {l : List A} {k : K} (h : k ∈ l.map key) : of key l k ≠ [] := by
  obtain ⟨a, ha, rfl⟩ := List.mem_map.mp h
  exact List.ne_nil_of_mem (List.mem_filter.mpr ⟨ha, by simp⟩)

/-- **A run hides earlier updates of its own keys.** -/
theorem Overwrites.run_absorb {l pre : List A} {t t₁ t' : Table K V} (h : Overwrites effect l)
    (hkeys : ∀ k ∈ pre.map key, k ∈ l.map key) (hpre : run key effect t pre = some t₁)
    (hrun : run key effect t l = some t') : run key effect t₁ l = some t' := by
  refine run_eq_some_iff.mpr (fun k => ?_)
  have hk := run_eq_some_iff.mp hrun k
  by_cases hmem : k ∈ l.map key
  · rw [← hk]
    exact Overwrites.at_congr (h.of_subset (List.filter_subset_self _)) (of_ne_nil hmem) _ _
  · rw [run_get_of_notMem hpre (fun hp => hmem (hkeys k hp))]
    exact hk

/-- **Repeating the end of a run changes nothing.** -/
theorem Overwrites.run_repeat {pre l : List A} {t t' : Table K V} (h : Overwrites effect l)
    (hrun : run key effect t (pre ++ l) = some t') : run key effect t' l = some t' := by
  rw [run_append] at hrun
  obtain ⟨t₁, hpre, hl⟩ := Option.bind_eq_some_iff.mp hrun
  exact h.run_absorb (fun _ hk => hk) hl hl

/-- **Some overwriting updates of a run may have been made before.** -/
theorem Overwrites.run_redo {l pre : List A} {t t₁ : Table K V} (hpre : Overwrites effect pre)
    (hsub : ∀ a ∈ pre, a ∈ l) (hn : (l.map key).Nodup) (hrun : run key effect t pre = some t₁) :
    run key effect t₁ l = run key effect t l := by
  refine Option.ext (fun t' => ?_)
  change run key effect t₁ l = some t' ↔ run key effect t l = some t'
  rw [run_eq_some_iff, run_eq_some_iff]
  refine forall_congr' (fun k => ?_)
  by_cases hk : k ∈ pre.map key
  · obtain ⟨a, ha, rfl⟩ := List.mem_map.mp hk
    obtain ⟨o, ho⟩ := hpre a ha
    rw [of_eq_singleton hn (hsub a ha), at_cons, at_cons, ho, ho]
  · rw [run_get_of_notMem hrun hk]

end Keyed

end DogeIndexer
