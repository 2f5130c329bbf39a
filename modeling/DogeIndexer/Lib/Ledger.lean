import DogeIndexer.Lib.Table
import Mathlib.Data.List.Induction

/-!
# Items that come and go, and the indexes over them

A ledger is a table of items.  An event spends an item that is there or produces one under a free
reference.  Each item contributes entries to an index; an event deletes or writes the entries of
its item.

* `Valid.filter`, `run_filter` — leaving out the events of some references leaves out their items.
* `get_run_of_spent` — what is produced once and spent is gone.
* `append_comm` — events at different references commute.
* `reading_updates` — an index follows the ledger at every key that one item at a time contributes
  to.
* `reading_assignments` — what is read of values that are only written.
* `total_apply` — a weighted total moves by the weight of the event's item.
-/

set_option autoImplicit false

namespace DogeIndexer.Ledger

universe u v w x

variable {R : Type u} {U : Type v}

inductive Event (R : Type u) (U : Type v) where
  | spend (r : R) (u : U)
  | produce (r : R) (u : U)

namespace Event

def ref : Event R U → R
  | spend r _ => r
  | produce r _ => r

end Event

variable [LinearOrder R]

namespace Event

def apply (t : Table R U) : Event R U → Table R U
  | spend r _ => t.erase r
  | produce r u => t.insert r u

/-- What is spent is there, and what is produced is not. -/
def Valid (t : Table R U) : Event R U → Prop
  | spend r u => t.get r = some u
  | produce r _ => t.get r = none

end Event

def run (t : Table R U) (l : List (Event R U)) : Table R U := l.foldl (fun t e => e.apply t) t

def Valid : Table R U → List (Event R U) → Prop
  | _, [] => True
  | t, e :: l => e.Valid t ∧ Valid (e.apply t) l

/-- `P` holds before the first event and after each one. -/
def Along (P : Table R U → Prop) : Table R U → List (Event R U) → Prop
  | t, [] => P t
  | t, e :: l => P t ∧ Along P (e.apply t) l

instance [DecidableEq U] (t : Table R U) : (e : Event R U) → Decidable (e.Valid t)
  | .spend r u => inferInstanceAs (Decidable (t.get r = some u))
  | .produce r _ => inferInstanceAs (Decidable (t.get r = none))

instance decidableValid [DecidableEq U] : (t : Table R U) → (l : List (Event R U)) → Decidable (Valid t l)
  | _, [] => isTrue trivial
  | t, e :: l =>
    have := decidableValid (e.apply t) l
    inferInstanceAs (Decidable (_ ∧ _))

instance decidableAlong (P : Table R U → Prop) [DecidablePred P] : (t : Table R U) → (l : List (Event R U)) →
    Decidable (Along P t l)
  | t, [] => inferInstanceAs (Decidable (P t))
  | t, e :: l =>
    have := decidableAlong P (e.apply t) l
    inferInstanceAs (Decidable (_ ∧ _))

variable {t : Table R U} {l l₁ l₂ : List (Event R U)} {P Q : Table R U → Prop}

theorem run_cons (t : Table R U) (e : Event R U) (l : List (Event R U)) : run t (e :: l) = run (e.apply t) l := rfl

theorem run_append (t : Table R U) (l₁ l₂ : List (Event R U)) : run t (l₁ ++ l₂) = run (run t l₁) l₂ :=
  List.foldl_append ..

theorem get_apply_of_ne {r : R} {e : Event R U} (h : e.ref ≠ r) : (e.apply t).get r = t.get r := by
  cases e with
  | spend r' u => exact (Table.get_erase t r' r).trans (if_neg (Ne.symm h))
  | produce r' u => exact (Table.get_insert t r' r u).trans (if_neg (Ne.symm h))

/-- An item that is there after an event was there before, or is what the event produces. -/
theorem get_apply_cases {r : R} {u : U} {e : Event R U} (h : (e.apply t).get r = some u) :
    (e.ref ≠ r ∧ t.get r = some u) ∨ e = .produce r u := by
  by_cases hr : e.ref = r
  · cases e with
    | spend r' u' =>
      have hgone : (t.erase r').get r = none := (Table.get_erase t r' r).trans (if_pos hr.symm)
      rw [Event.apply, hgone] at h
      cases h
    | produce r' u' =>
      have hnew : (t.insert r' u').get r = some u' := (Table.get_insert t r' r u').trans (if_pos hr.symm)
      rw [Event.apply, hnew] at h
      cases h
      exact Or.inr (congrArg (Event.produce · u) hr)
  · exact Or.inl ⟨hr, (get_apply_of_ne hr).symm.trans h⟩

theorem valid_append : Valid t (l₁ ++ l₂) ↔ Valid t l₁ ∧ Valid (run t l₁) l₂ := by
  induction l₁ generalizing t with
  | nil => exact ⟨fun h => ⟨trivial, h⟩, fun h => h.2⟩
  | cons e l₁ ih =>
    simp only [List.cons_append, Valid, run_cons, ih]
    exact and_assoc.symm

theorem Along.head (h : Along P t l) : P t := by
  cases l with
  | nil => exact h
  | cons e l => exact h.1

theorem Along.last (h : Along P t l) : P (run t l) := by
  induction l generalizing t with
  | nil => exact h
  | cons e l ih => exact ih h.2

theorem Along.imp (hPQ : ∀ t, P t → Q t) (h : Along P t l) : Along Q t l := by
  induction l generalizing t with
  | nil => exact hPQ t h
  | cons e l ih => exact ⟨hPQ t h.1, ih h.2⟩

theorem along_append : Along P t (l₁ ++ l₂) ↔ Along P t l₁ ∧ Along P (run t l₁) l₂ := by
  induction l₁ generalizing t with
  | nil => exact ⟨fun h => ⟨h.head, h⟩, fun h => h.2⟩
  | cons e l₁ ih =>
    simp only [List.cons_append, Along, run_cons, ih]
    exact and_assoc.symm

/-- What holds before every suffix of the events holds along them. -/
theorem along_iff : Along P t l ↔ ∀ done rest, l = done ++ rest → P (run t done) := by
  constructor
  · rintro h done rest rfl
    exact (along_append.mp h).1.last
  · intro h
    induction l generalizing t with
    | nil => exact h [] [] rfl
    | cons e l ih =>
      refine ⟨h [] (e :: l) rfl, ih fun done rest hl => ?_⟩
      exact h (e :: done) rest (by rw [hl, List.cons_append])

/-- What holds of the items that are there and of those that are produced holds of every item. -/
theorem along_items {Q : R → U → Prop} (ht : ∀ r u, t.get r = some u → Q r u)
    (hl : ∀ r u, Event.produce r u ∈ l → Q r u) : Along (fun t => ∀ r u, t.get r = some u → Q r u) t l := by
  induction l generalizing t with
  | nil => exact ht
  | cons e l ih =>
    refine ⟨ht, ih (fun r u hget => ?_) fun r u hmem => hl r u (List.mem_cons_of_mem _ hmem)⟩
    rcases get_apply_cases hget with ⟨-, hget⟩ | rfl
    · exact ht r u hget
    · exact hl r u List.mem_cons_self

/-! ## Leaving out references -/

/-- The items under some references. -/
def restrict (p : R → Bool) (t : Table R U) : Table R U := t.filter fun r _ => p r

theorem get_restrict (p : R → Bool) (t : Table R U) (r : R) :
    (restrict p t).get r = if p r then t.get r else none := by
  unfold restrict
  rw [Table.get_filter]
  cases ht : t.get r with
  | none => simp
  | some u => cases p r <;> simp [Option.filter]

theorem restrict_apply (p : R → Bool) (t : Table R U) (e : Event R U) :
    restrict p (e.apply t) = if p e.ref then e.apply (restrict p t) else restrict p t := by
  refine Table.ext_get fun r => ?_
  rw [get_restrict]
  cases e with
  | spend r' u =>
    simp only [Event.apply, Event.ref, Table.get_erase]
    by_cases hr : r = r'
    · subst hr
      by_cases hp : p r = true
      · simp [hp]
      · simp [hp, get_restrict]
    · by_cases hp' : p r' = true
      · simp [hr, hp', get_restrict]
      · simp [hr, hp', get_restrict]
  | produce r' u =>
    simp only [Event.apply, Event.ref, Table.get_insert]
    by_cases hr : r = r'
    · subst hr
      by_cases hp : p r = true
      · simp [hp]
      · simp [hp, get_restrict]
    · by_cases hp' : p r' = true
      · simp [hr, hp', get_restrict]
      · simp [hr, hp', get_restrict]

theorem run_filter (p : R → Bool) (t : Table R U) (l : List (Event R U)) :
    run (restrict p t) (l.filter fun e => p e.ref) = restrict p (run t l) := by
  induction l generalizing t with
  | nil => rfl
  | cons e l ih =>
    rw [run_cons, ← ih, restrict_apply]
    by_cases hp : p e.ref = true
    · rw [List.filter_cons_of_pos (by simpa using hp), run_cons, if_pos hp]
    · rw [List.filter_cons_of_neg (by simpa using hp), if_neg hp]

theorem Valid.filter (p : R → Bool) (h : Valid t l) : Valid (restrict p t) (l.filter fun e => p e.ref) := by
  induction l generalizing t with
  | nil => exact trivial
  | cons e l ih =>
    have hrest := ih h.2
    rw [restrict_apply] at hrest
    by_cases hp : p e.ref = true
    · rw [List.filter_cons_of_pos (by simpa using hp)]
      rw [if_pos hp] at hrest
      refine ⟨?_, hrest⟩
      have hvalid := h.1
      cases e with
      | spend r u => exact (get_restrict p t r).trans ((if_pos hp).trans hvalid)
      | produce r u => exact (get_restrict p t r).trans ((if_pos hp).trans hvalid)
    · rw [List.filter_cons_of_neg (by simpa using hp)]
      rw [if_neg hp] at hrest
      exact hrest

/-- Items that are all kept. -/
theorem restrict_eq_self {p : R → Bool} (h : ∀ r u, t.get r = some u → p r = true) : restrict p t = t := by
  refine Table.ext_get fun r => ?_
  rw [get_restrict]
  split
  · rfl
  · rename_i hp
    cases ht : t.get r with
    | none => rfl
    | some u => exact absurd (h r u ht) hp

/-! ## References that events name -/

/-- An item was there, or was produced. -/
theorem get_run_cases {r : R} {u : U} (h : (run t l).get r = some u) : t.get r = some u ∨ Event.produce r u ∈ l := by
  induction l generalizing t with
  | nil => exact Or.inl h
  | cons e l ih =>
    rcases ih h with hget | hmem
    · rcases get_apply_cases hget with ⟨-, hget⟩ | rfl
      · exact Or.inl hget
      · exact Or.inr List.mem_cons_self
    · exact Or.inr (List.mem_cons_of_mem _ hmem)

/-- An item stays, or is spent. -/
theorem get_run_or_spent {r : R} {u : U} (hv : Valid t l) (hget : t.get r = some u) :
    (run t l).get r = some u ∨ Event.spend r u ∈ l := by
  induction l generalizing t with
  | nil => exact Or.inl hget
  | cons e l ih =>
    have hkept : e.ref ≠ r → (run t (e :: l)).get r = some u ∨ Event.spend r u ∈ e :: l := fun hne =>
      (ih hv.2 ((get_apply_of_ne hne).trans hget)).imp id fun hmem => List.mem_cons_of_mem _ hmem
    cases e with
    | spend r' u' =>
      have hthere : t.get r' = some u' := hv.1
      by_cases hr : r' = r
      · subst hr
        rw [hget] at hthere
        cases hthere
        exact Or.inr List.mem_cons_self
      · exact hkept hr
    | produce r' u' =>
      have hfree : t.get r' = none := hv.1
      refine hkept ?_
      rintro rfl
      rw [show t.get r' = some u from hget] at hfree
      cases hfree

/-- What is produced and not spent stays. -/
theorem get_run_of_produced {r : R} {u : U} (hv : Valid t l) (hmem : Event.produce r u ∈ l)
    (hspent : Event.spend r u ∉ l) : (run t l).get r = some u := by
  obtain ⟨before, after, rfl⟩ := List.append_of_mem hmem
  rw [run_append, run_cons]
  refine (get_run_or_spent (valid_append.mp hv).2.2 ((Table.get_insert _ r r u).trans (if_pos rfl))).resolve_right ?_
  exact fun h => hspent (List.mem_append_right _ (List.mem_cons_of_mem _ h))

/-- What is spent was there, or is produced. -/
theorem get_or_produced_of_spent {r : R} {u : U} (hv : Valid t l) (hmem : Event.spend r u ∈ l) :
    t.get r = some u ∨ Event.produce r u ∈ l := by
  obtain ⟨before, after, rfl⟩ := List.append_of_mem hmem
  have hthere : (run t before).get r = some u := (valid_append.mp hv).2.1
  exact (get_run_cases hthere).imp id fun h => List.mem_append_left _ h

/-- Events on fewer items leave fewer items, but for those in `Q`. -/
theorem get_run_imp {t' : Table R U} {Q : R → U → Prop} (h : ∀ r u, t'.get r = some u → t.get r = some u ∨ Q r u)
    (l : List (Event R U)) : ∀ r u, (run t' l).get r = some u → (run t l).get r = some u ∨ Q r u := by
  induction l generalizing t t' with
  | nil => exact h
  | cons e l ih =>
    refine ih fun r u hget => ?_
    rcases get_apply_cases hget with ⟨hne, hget⟩ | rfl
    · exact (h r u hget).imp (fun hget' => (get_apply_of_ne hne).trans hget') id
    · exact Or.inl ((Table.get_insert t r r u).trans (if_pos rfl))

/-- The references that events produce. -/
def produced : List (Event R U) → List R
  | [] => []
  | .spend _ _ :: l => produced l
  | .produce r _ :: l => r :: produced l

omit [LinearOrder R] in
theorem produced_append (l₁ l₂ : List (Event R U)) : produced (l₁ ++ l₂) = produced l₁ ++ produced l₂ := by
  induction l₁ with
  | nil => rfl
  | cons e l₁ ih =>
    cases e with
    | spend r u => exact ih
    | produce r u => exact congrArg (r :: ·) ih

omit [LinearOrder R] in
theorem produced_flatMap {α : Type w} (l : List α) (f : α → List (Event R U)) :
    produced (l.flatMap f) = l.flatMap fun a => produced (f a) := by
  induction l with
  | nil => rfl
  | cons a l ih => rw [List.flatMap_cons, produced_append, ih, List.flatMap_cons]

omit [LinearOrder R] in
theorem produced_spends (l : List (R × U)) : produced (l.map fun e => Event.spend e.1 e.2) = [] := by
  induction l with
  | nil => rfl
  | cons e l ih => exact ih

omit [LinearOrder R] in
theorem produced_produces (l : List (R × U)) : produced (l.map fun e => Event.produce e.1 e.2) = l.map Prod.fst := by
  induction l with
  | nil => rfl
  | cons e l ih => exact congrArg (e.1 :: ·) ih

/-- What is not there and not produced is not there afterwards. -/
theorem get_run_of_notProduced {r : R} (hget : t.get r = none) (h : r ∉ produced l) : (run t l).get r = none := by
  induction l generalizing t with
  | nil => exact hget
  | cons e l ih =>
    rw [run_cons]
    cases e with
    | spend r' u =>
      refine ih ?_ h
      rw [Event.apply, Table.get_erase]
      split
      · rfl
      · exact hget
    | produce r' u =>
      have hne : r ≠ r' := fun heq => h (heq ▸ List.mem_cons_self)
      refine ih ?_ fun hmem => h (List.mem_cons_of_mem _ hmem)
      rw [Event.apply, Table.get_insert, if_neg hne]
      exact hget

/-- **What is produced once and spent is gone.** -/
theorem get_run_of_spent {r : R} {u : U} (hv : Valid t l) (hnodup : (produced l).Nodup)
    (hfree : r ∈ produced l → t.get r = none) (hspent : Event.spend r u ∈ l) : (run t l).get r = none := by
  induction l generalizing t with
  | nil => cases hspent
  | cons e l ih =>
    rw [run_cons]
    cases e with
    | spend r' u' =>
      by_cases hr : r' = r
      · subst hr
        have hthere : t.get r' = some u' := hv.1
        refine get_run_of_notProduced ?_ fun hmem => ?_
        · rw [Event.apply, Table.get_erase, if_pos rfl]
        · rw [hfree hmem] at hthere
          cases hthere
      · refine ih hv.2 hnodup (fun hmem => ?_) ?_
        · rw [Event.apply, Table.get_erase, if_neg (Ne.symm hr)]
          exact hfree hmem
        · rcases List.mem_cons.mp hspent with heq | hmem
          · cases heq
            exact absurd rfl hr
          · exact hmem
    | produce r' u' =>
      have hnodup' : r' ∉ produced l ∧ (produced l).Nodup := List.nodup_cons.mp hnodup
      refine ih hv.2 hnodup'.2 (fun hmem => ?_) ?_
      · have hne : r ≠ r' := fun heq => hnodup'.1 (heq ▸ hmem)
        rw [Event.apply, Table.get_insert, if_neg hne]
        exact hfree (List.mem_cons_of_mem _ hmem)
      · rcases List.mem_cons.mp hspent with heq | hmem
        · cases heq
        · exact hmem

/-! ## Events that commute, and events of one kind -/

theorem apply_comm {e e' : Event R U} (h : e.ref ≠ e'.ref) : e'.apply (e.apply t) = e.apply (e'.apply t) := by
  refine Table.ext_get fun r => ?_
  by_cases hr : e.ref = r
  · have hr' : e'.ref ≠ r := fun heq => h (hr.trans heq.symm)
    rw [get_apply_of_ne hr']
    subst hr
    cases e with
    | spend r u => exact (Table.get_erase _ r r).trans ((if_pos rfl).trans
        ((Table.get_erase (e'.apply t) r r).trans (if_pos rfl)).symm)
    | produce r u => exact (Table.get_insert _ r r u).trans ((if_pos rfl).trans
        ((Table.get_insert (e'.apply t) r r u).trans (if_pos rfl)).symm)
  · rw [get_apply_of_ne (e := e) hr]
    cases e' with
    | spend r' u =>
      change (Table.erase _ r').get r = (Table.erase _ r').get r
      rw [Table.get_erase, Table.get_erase, get_apply_of_ne hr]
    | produce r' u =>
      change (Table.insert _ r' u).get r = (Table.insert _ r' u).get r
      rw [Table.get_insert, Table.get_insert, get_apply_of_ne hr]

/-- An event at another reference does not matter to an event. -/
theorem valid_apply {e e' : Event R U} (h : e.ref ≠ e'.ref) : e'.Valid (e.apply t) ↔ e'.Valid t := by
  cases e' with
  | spend r u => exact iff_of_eq (congrArg (· = some u) (get_apply_of_ne h))
  | produce r u => exact iff_of_eq (congrArg (· = none) (get_apply_of_ne h))

/-- An event can be put off behind events at other references. -/
theorem cons_comm {e : Event R U} (h : ∀ e' ∈ l, e.ref ≠ e'.ref) :
    (Valid t (e :: l) ↔ Valid t (l ++ [e])) ∧ run t (e :: l) = run t (l ++ [e]) := by
  induction l generalizing t with
  | nil => exact ⟨Iff.rfl, rfl⟩
  | cons e' l ih =>
    have hne := h e' List.mem_cons_self
    obtain ⟨hvalid, hrun⟩ := ih (t := e'.apply t) fun x hx => h x (List.mem_cons_of_mem _ hx)
    constructor
    · have hv : Valid t (e' :: (l ++ [e])) ↔ e'.Valid t ∧ e.Valid (e'.apply t) ∧ Valid (e.apply (e'.apply t)) l :=
        and_congr_right fun _ => hvalid.symm
      rw [List.cons_append, hv, valid_apply (Ne.symm hne)]
      change e.Valid t ∧ e'.Valid (e.apply t) ∧ Valid (e'.apply (e.apply t)) l ↔ _
      rw [valid_apply hne, apply_comm hne]
      exact and_left_comm
    · have hswap : run t (e :: e' :: l) = run (e'.apply t) (e :: l) := by
        rw [run_cons, run_cons, run_cons, apply_comm hne]
      rw [hswap, hrun, List.cons_append, run_cons]

/-- **Events at different references commute.** -/
theorem append_comm (h : ∀ e ∈ l₁, ∀ e' ∈ l₂, e.ref ≠ e'.ref) :
    (Valid t (l₁ ++ l₂) ↔ Valid t (l₂ ++ l₁)) ∧ run t (l₁ ++ l₂) = run t (l₂ ++ l₁) := by
  induction l₁ generalizing t with
  | nil =>
    rw [List.nil_append, List.append_nil]
    exact ⟨Iff.rfl, rfl⟩
  | cons e l₁ ih =>
    obtain ⟨hvalid, hrun⟩ := ih (t := e.apply t) fun x hx => h x (List.mem_cons_of_mem _ hx)
    obtain ⟨hvalid', hrun'⟩ := cons_comm (t := t) (h e List.mem_cons_self)
    have hcons : l₂ ++ e :: l₁ = l₂ ++ [e] ++ l₁ := by rw [List.append_assoc, List.singleton_append]
    have hsplit : Valid t (l₂ ++ [e] ++ l₁) ↔ Valid t (l₂ ++ [e]) ∧ Valid (run t (l₂ ++ [e])) l₁ := valid_append
    constructor
    · rw [hcons, hsplit, ← hvalid', ← hrun']
      change e.Valid t ∧ Valid (e.apply t) (l₁ ++ l₂) ↔ (e.Valid t ∧ Valid (e.apply t) l₂) ∧ Valid (run (e.apply t) l₂) l₁
      rw [hvalid, valid_append, and_assoc]
    · rw [hcons, run_append t (l₂ ++ [e]), ← hrun', List.cons_append, run_cons, hrun, run_append, run_cons]

/-- Items that are there, spent one after another. -/
theorem spends {l : List (R × U)} (hnodup : (l.map Prod.fst).Nodup) (h : ∀ e ∈ l, t.get e.1 = some e.2) :
    Valid t (l.map fun e => Event.spend e.1 e.2) ∧
      run t (l.map fun e => Event.spend e.1 e.2) = t.eraseAll (l.map Prod.fst) := by
  induction l generalizing t with
  | nil => exact ⟨trivial, rfl⟩
  | cons e l ih =>
    rw [List.map_cons, List.nodup_cons] at hnodup
    obtain ⟨hvalid, hrun⟩ := ih (t := t.erase e.1) hnodup.2 fun x hx => by
      have hne : x.1 ≠ e.1 := fun heq => hnodup.1 (List.mem_map.mpr ⟨x, hx, heq⟩)
      rw [Table.get_erase, if_neg hne]
      exact h x (List.mem_cons_of_mem _ hx)
    exact ⟨⟨h e List.mem_cons_self, hvalid⟩, hrun⟩

/-- Items produced one after another under free references. -/
theorem produces {l : List (R × U)} (hnodup : (l.map Prod.fst).Nodup) (h : ∀ e ∈ l, t.get e.1 = none) :
    Valid t (l.map fun e => Event.produce e.1 e.2) ∧ run t (l.map fun e => Event.produce e.1 e.2) = t.insertAll l := by
  induction l generalizing t with
  | nil => exact ⟨trivial, rfl⟩
  | cons e l ih =>
    rw [List.map_cons, List.nodup_cons] at hnodup
    obtain ⟨hvalid, hrun⟩ := ih (t := t.insert e.1 e.2) hnodup.2 fun x hx => by
      have hne : x.1 ≠ e.1 := fun heq => hnodup.1 (List.mem_map.mpr ⟨x, hx, heq⟩)
      rw [Table.get_insert, if_neg hne]
      exact h x (List.mem_cons_of_mem _ hx)
    exact ⟨⟨h e List.mem_cons_self, hvalid⟩, hrun⟩

/-- Spending leaves fewer items. -/
theorem get_run_spends {l : List (R × U)} {r : R} {u : U}
    (h : (run t (l.map fun e => Event.spend e.1 e.2)).get r = some u) : t.get r = some u := by
  refine (get_run_cases h).resolve_right fun hmem => ?_
  obtain ⟨e, -, heq⟩ := List.mem_map.mp hmem
  cases heq

/-- Producing keeps the items. -/
theorem get_run_produces {l : List (R × U)} {r : R} {u : U} (hv : Valid t (l.map fun e => Event.produce e.1 e.2))
    (h : t.get r = some u) : (run t (l.map fun e => Event.produce e.1 e.2)).get r = some u := by
  refine (get_run_or_spent hv h).resolve_right fun hmem => ?_
  obtain ⟨e, -, heq⟩ := List.mem_map.mp hmem
  cases heq

/-- **What holds of fewer items, too, holds along a transaction** when it holds before and after it. -/
theorem along_spends_produces {s p : List (R × U)} (hP : ∀ t t', (∀ r u, t'.get r = some u → t.get r = some u) → P t → P t')
    (hv : Valid t ((s.map fun e => Event.spend e.1 e.2) ++ p.map fun e => Event.produce e.1 e.2)) (hbefore : P t)
    (hafter : P (run t ((s.map fun e => Event.spend e.1 e.2) ++ p.map fun e => Event.produce e.1 e.2))) :
    Along P t ((s.map fun e => Event.spend e.1 e.2) ++ p.map fun e => Event.produce e.1 e.2) := by
  rw [along_append, along_iff, along_iff]
  constructor
  · intro done rest hsplit
    obtain ⟨s₁, s₂, rfl, hdone, -⟩ := List.map_eq_append_iff.mp hsplit
    rw [← hdone]
    exact hP t _ (fun r u hget => get_run_spends hget) hbefore
  · intro done rest hsplit
    obtain ⟨p₁, p₂, rfl, hdone, -⟩ := List.map_eq_append_iff.mp hsplit
    have hvp := (valid_append.mp hv).2
    rw [List.map_append, valid_append] at hvp
    rw [List.map_append, run_append, run_append] at hafter
    rw [← hdone]
    exact hP _ _ (fun r u hget => get_run_produces hvp.2 hget) hafter

/-! ## Indexes -/

section Index

variable {K : Type w} {V : Type x} (f : R → U → List (K × V))

/-- An event deletes or writes the entries of its item. -/
def updates : Event R U → List (K × Option V)
  | .spend r u => (f r u).map fun e => (e.1, none)
  | .produce r u => (f r u).map fun e => (e.1, some e.2)

/-- An item of the ledger contributes the entry. -/
def Lists (t : Table R U) (k : K) (v : V) : Prop := ∃ r u, t.get r = some u ∧ (k, v) ∈ f r u

/-- At most one entry is contributed at a key. -/
def Single (k : K) (t : Table R U) : Prop :=
  ∀ r u v r' u' v', t.get r = some u → (k, v) ∈ f r u → t.get r' = some u' → (k, v') ∈ f r' u' → r = r' ∧ v = v'

variable {f} {k : K} {o : Option V}

/-- Entries whose keys name the item are contributed once. -/
theorem single_of_injective
    (hkey : ∀ r u v r' u' v', t.get r = some u → t.get r' = some u' → (k, v) ∈ f r u → (k, v') ∈ f r' u' → r = r')
    (hnodup : ∀ r u, t.get r = some u → ((f r u).map Prod.fst).Nodup) : Single f k t := by
  intro r u v r' u' v' hget hmem hget' hmem'
  obtain rfl := hkey r u v r' u' v' hget hget' hmem hmem'
  rw [hget] at hget'
  cases hget'
  exact ⟨rfl, congrArg Prod.snd (List.inj_on_of_nodup_map (hnodup r u hget) hmem hmem' rfl)⟩

variable [DecidableEq K]

/-- The reading at a key after a list of updates. -/
def reading (k : K) (o : Option V) (l : List (K × Option V)) : Option V :=
  l.foldl (fun o e => if e.1 = k then e.2 else o) o

theorem reading_append (k : K) (o : Option V) (l₁ l₂ : List (K × Option V)) :
    reading k o (l₁ ++ l₂) = reading k (reading k o l₁) l₂ :=
  List.foldl_append ..

theorem reading_of_notMem {l : List (K × Option V)} (h : k ∉ l.map Prod.fst) : reading k o l = o := by
  induction l generalizing o with
  | nil => rfl
  | cons e l ih =>
    rw [List.map_cons, List.mem_cons, not_or] at h
    have hstep : reading k o (e :: l) = reading k (if e.1 = k then e.2 else o) l := rfl
    rw [hstep, if_neg (Ne.symm h.1), ih h.2]

/-- Updates of a key that all agree. -/
theorem reading_of_mem {l : List (K × Option V)} {p : Option V} (h : k ∈ l.map Prod.fst)
    (hall : ∀ e ∈ l, e.1 = k → e.2 = p) : reading k o l = p := by
  induction l generalizing o with
  | nil => cases h
  | cons e l ih =>
    have hstep : reading k o (e :: l) = reading k (if e.1 = k then e.2 else o) l := rfl
    have hrest : ∀ e' ∈ l, e'.1 = k → e'.2 = p := fun e' he' => hall e' (List.mem_cons_of_mem _ he')
    rw [hstep]
    by_cases hmem : k ∈ l.map Prod.fst
    · exact ih hmem hrest
    · rw [reading_of_notMem hmem]
      have hk : e.1 = k := by
        rcases List.mem_cons.mp h with hk | hk
        · exact hk.symm
        · exact absurd hk hmem
      rw [if_pos hk]
      exact hall e List.mem_cons_self hk

/-- One event. -/
theorem reading_updates_event {e : Event R U} (hv : e.Valid t) (hs : Single f k t) (hs' : Single f k (e.apply t))
    (ho : ∀ v, o = some v ↔ Lists f t k v) (v : V) :
    reading k o (updates f e) = some v ↔ Lists f (e.apply t) k v := by
  cases e with
  | spend r u =>
    have hget : t.get r = some u := hv
    have hkeys : (updates f (.spend r u)).map Prod.fst = (f r u).map Prod.fst := by
      unfold updates
      rw [List.map_map]
      rfl
    by_cases hk : k ∈ (f r u).map Prod.fst
    · rw [reading_of_mem (hkeys ▸ hk) (p := none)]
      · -- nothing else contributed at the key
        obtain ⟨⟨k', v₀⟩, hmem, hk'⟩ := List.mem_map.mp hk
        cases hk'
        refine iff_of_false (by simp) ?_
        rintro ⟨r', u', hget', hmem'⟩
        have hne : r' ≠ r := by
          rintro rfl
          simp [Event.apply] at hget'
        have hget'' : t.get r' = some u' := by
          rw [← hget']
          exact ((Table.get_erase t r r').trans (if_neg hne)).symm
        exact hne (hs r' u' v r u v₀ hget'' hmem' hget hmem).1
      · intro e he _
        obtain ⟨e', -, rfl⟩ := List.mem_map.mp he
        rfl
    · rw [reading_of_notMem (hkeys ▸ hk), ho v]
      constructor
      · rintro ⟨r', u', hget', hmem'⟩
        have hne : r' ≠ r := by
          rintro rfl
          rw [hget] at hget'
          cases hget'
          exact hk (List.mem_map.mpr ⟨_, hmem', rfl⟩)
        exact ⟨r', u', ((Table.get_erase t r r').trans (if_neg hne)).trans hget', hmem'⟩
      · rintro ⟨r', u', hget', hmem'⟩
        have hne : r' ≠ r := by
          rintro rfl
          simp [Event.apply] at hget'
        exact ⟨r', u', ((Table.get_erase t r r').trans (if_neg hne)).symm.trans hget', hmem'⟩
  | produce r u =>
    have hfree : t.get r = none := hv
    have hnew : (Event.apply t (.produce r u)).get r = some u := (Table.get_insert t r r u).trans (if_pos rfl)
    have hother : ∀ r', r' ≠ r → (Event.apply t (.produce r u)).get r' = t.get r' :=
      fun r' hne => (Table.get_insert t r r' u).trans (if_neg hne)
    have hkeys : (updates f (.produce r u)).map Prod.fst = (f r u).map Prod.fst := by
      unfold updates
      rw [List.map_map]
      rfl
    by_cases hk : k ∈ (f r u).map Prod.fst
    · obtain ⟨⟨k', v₀⟩, hmem, hk'⟩ := List.mem_map.mp hk
      cases hk'
      rw [reading_of_mem (hkeys ▸ hk) (p := some v₀)]
      · constructor
        · intro heq
          cases heq
          exact ⟨r, u, hnew, hmem⟩
        · rintro ⟨r', u', hget', hmem'⟩
          rw [(hs' r' u' v r u v₀ hget' hmem' hnew hmem).2]
      · intro e he hek
        obtain ⟨e', he', rfl⟩ := List.mem_map.mp he
        have hfst : e'.1 = k' := hek
        have hmem' : (k', e'.2) ∈ f r u := by
          rw [← hfst]
          exact he'
        exact congrArg some (hs' r u e'.2 r u v₀ hnew hmem' hnew hmem).2
    · rw [reading_of_notMem (hkeys ▸ hk), ho v]
      constructor
      · rintro ⟨r', u', hget', hmem'⟩
        have hne : r' ≠ r := by
          rintro rfl
          rw [hfree] at hget'
          cases hget'
        exact ⟨r', u', (hother r' hne).trans hget', hmem'⟩
      · rintro ⟨r', u', hget', hmem'⟩
        have hne : r' ≠ r := by
          rintro rfl
          rw [hnew] at hget'
          cases hget'
          exact hk (List.mem_map.mpr ⟨_, hmem', rfl⟩)
        exact ⟨r', u', (hother r' hne).symm.trans hget', hmem'⟩

/-- **An index follows the ledger** at a key that one item at a time contributes to. -/
theorem reading_updates (hv : Valid t l) (hs : Along (Single f k) t l) (ho : ∀ v, o = some v ↔ Lists f t k v) (v : V) :
    reading k o (l.flatMap (updates f)) = some v ↔ Lists f (run t l) k v := by
  induction l generalizing t o with
  | nil => exact ho v
  | cons e l ih =>
    rw [List.flatMap_cons, reading_append, run_cons]
    exact ih hv.2 hs.2 (reading_updates_event hv.1 hs.1 hs.2.head ho)

end Index

/-! ## Assignments -/

section Assignments

variable {K : Type w} {V : Type x} [DecidableEq K] {l : List (K × V)} {k : K} {v : V}

/-- Updates that only write. -/
def assignments (l : List (K × V)) : List (K × Option V) := l.map fun e => (e.1, some e.2)

/-- What is read was written last, after some other writes. -/
theorem reading_assignments_append (l : List (K × V)) (e : K × V) :
    reading k none (assignments (l ++ [e])) = if e.1 = k then some e.2 else reading k none (assignments l) := by
  unfold assignments
  rw [List.map_append, reading_append]
  rfl

theorem mem_of_reading_assignments (h : reading k none (assignments l) = some v) : (k, v) ∈ l := by
  induction l using List.reverseRecOn with
  | nil => cases h
  | append_singleton l e ih =>
    rw [reading_assignments_append] at h
    split at h
    · rename_i hk
      cases h
      rw [← hk]
      exact List.mem_append_right _ (List.mem_singleton_self e)
    · exact List.mem_append_left _ (ih h)

theorem isSome_reading_assignments (h : (k, v) ∈ l) : ∃ v', reading k none (assignments l) = some v' := by
  induction l using List.reverseRecOn with
  | nil => cases h
  | append_singleton l e ih =>
    rw [reading_assignments_append]
    split
    · exact ⟨_, rfl⟩
    · rename_i hk
      rcases List.mem_append.mp h with h | h
      · exact ih h
      · exact absurd (by rw [← List.mem_singleton.mp h]) hk

/-- **Keys that always get the same value** read what is written. -/
theorem reading_assignments (h : ∀ v v', (k, v) ∈ l → (k, v') ∈ l → v = v') (v : V) :
    reading k none (assignments l) = some v ↔ (k, v) ∈ l := by
  refine ⟨mem_of_reading_assignments, fun hmem => ?_⟩
  obtain ⟨v', hv'⟩ := isSome_reading_assignments hmem
  rw [hv', h v v' hmem (mem_of_reading_assignments hv')]

end Assignments

/-! ## Totals -/

/-- **A total moves by the weight of the event's item.** -/
theorem total_apply (weight : R → U → Nat) {e : Event R U} (hv : e.Valid t) :
    match e with
    | .spend r u => (e.apply t).total weight + weight r u = t.total weight
    | .produce r u => (e.apply t).total weight = t.total weight + weight r u := by
  cases e with
  | spend r u =>
    have h := Table.total_erase weight t r
    rwa [Table.weightAt_of_get (show t.get r = some u from hv)] at h
  | produce r u =>
    have h := Table.total_insert weight t r u
    rwa [Table.weightAt_of_none (show t.get r = none from hv), add_zero] at h

end DogeIndexer.Ledger
