import Mathlib.Algebra.BigOperators.Group.List.Basic
import Mathlib.Algebra.Group.Int.Defs
import Mathlib.Algebra.GroupWithZero.Nat
import Mathlib.Data.List.Basic
import Mathlib.Data.List.Sort
import Mathlib.Order.Lattice

/-!
# Ordered key-value tables

A table is a list of entries with strictly increasing keys, so that two tables with the
same readings are equal and a scan in key order is the entry list itself.

* `get_insert`, `get_erase` — reading after a write.
* `ext_get` — a table is determined by its readings.
* `total` — the sum of a weight over the entries, with its update rules `total_insert` and
  `total_erase`; `total_of_getD` for tables that read the same up to a default.
* `entriesFrom` — the ascending scan from a key.
* `eraseAll`, `insertAll` — bulk writes, with their readings and totals.
-/

set_option autoImplicit false

namespace DogeIndexer

universe u v w

variable {K : Type u} {V : Type v}

namespace Entries

/-! ## Raw entry lists -/

variable [LinearOrder K]

/-- Strictly increasing keys. -/
def Sorted (l : List (K × V)) : Prop := l.Pairwise (fun a b => a.1 < b.1)

def get : List (K × V) → K → Option V
  | [], _ => none
  | (a, b) :: l, k => if a = k then some b else get l k

def insert : List (K × V) → K → V → List (K × V)
  | [], k, v => [(k, v)]
  | (a, b) :: l, k, v =>
    if k < a then (k, v) :: (a, b) :: l
    else if k = a then (k, v) :: l
    else (a, b) :: insert l k v

def erase (l : List (K × V)) (k : K) : List (K × V) := l.filter (fun e => e.1 ≠ k)

theorem get_eq_none {l : List (K × V)} {k : K} (h : ∀ e ∈ l, e.1 ≠ k) : get l k = none := by
  induction l with
  | nil => rfl
  | cons e l ih =>
    obtain ⟨a, b⟩ := e
    have ha : a ≠ k := h (a, b) (by simp)
    simp only [get, if_neg ha]
    exact ih (fun e he => h e (by simp [he]))

theorem Sorted.tail {e : K × V} {l : List (K × V)} (h : Sorted (e :: l)) : Sorted l :=
  (List.pairwise_cons.mp h).2

theorem Sorted.head_lt {e : K × V} {l : List (K × V)} (h : Sorted (e :: l)) :
    ∀ x ∈ l, e.1 < x.1 :=
  (List.pairwise_cons.mp h).1

theorem get_of_mem {l : List (K × V)} (h : Sorted l) {k : K} {v : V} (hm : (k, v) ∈ l) :
    get l k = some v := by
  induction l with
  | nil => cases hm
  | cons e l ih =>
    obtain ⟨a, b⟩ := e
    simp only [get]
    rcases List.mem_cons.mp hm with he | hm
    · cases he; simp
    · have hlt : a < k := h.head_lt _ hm
      rw [if_neg (ne_of_lt hlt)]
      exact ih h.tail hm

theorem mem_of_get {l : List (K × V)} {k : K} {v : V} (h : get l k = some v) : (k, v) ∈ l := by
  induction l with
  | nil => cases h
  | cons e l ih =>
    obtain ⟨a, b⟩ := e
    simp only [get] at h
    split at h
    · rename_i hak
      cases h; subst hak; simp
    · exact List.mem_cons_of_mem _ (ih h)

theorem get_insert (l : List (K × V)) (k k' : K) (v : V) (hs : Sorted l) :
    get (insert l k v) k' = if k' = k then some v else get l k' := by
  induction l with
  | nil => simp only [insert, get, eq_comm]
  | cons e l ih =>
    obtain ⟨a, b⟩ := e
    simp only [insert]
    split
    · simp only [get, eq_comm]
    · rename_i hlt
      split
      · rename_i hka
        subst hka
        by_cases hk : k' = k
        · simp [get, hk]
        · simp [get, hk, Ne.symm hk]
      · rename_i hka
        simp only [get, ih hs.tail]
        by_cases hak : a = k'
        · subst hak; simp [Ne.symm hka]
        · simp [hak]

theorem mem_insert {l : List (K × V)} {k : K} {v : V} {e : K × V} (h : e ∈ insert l k v) :
    e = (k, v) ∨ e ∈ l := by
  induction l with
  | nil => simpa [insert] using h
  | cons x l ih =>
    obtain ⟨a, b⟩ := x
    simp only [insert] at h
    split at h
    · simpa using h
    · split at h
      · rcases List.mem_cons.mp h with h | h
        · exact Or.inl h
        · exact Or.inr (List.mem_cons_of_mem _ h)
      · rcases List.mem_cons.mp h with h | h
        · exact Or.inr (by simp [h])
        · rcases ih h with h | h
          · exact Or.inl h
          · exact Or.inr (List.mem_cons_of_mem _ h)

theorem insert_sorted {l : List (K × V)} (hs : Sorted l) (k : K) (v : V) :
    Sorted (insert l k v) := by
  induction l with
  | nil => simp [insert, Sorted]
  | cons e l ih =>
    obtain ⟨a, b⟩ := e
    simp only [insert]
    split
    · rename_i hlt
      refine List.pairwise_cons.mpr ⟨?_, hs⟩
      intro x hx
      rcases List.mem_cons.mp hx with rfl | hx
      · exact hlt
      · exact lt_trans hlt (hs.head_lt x hx)
    · rename_i hlt
      split
      · rename_i hka
        subst hka
        exact List.pairwise_cons.mpr ⟨hs.head_lt, hs.tail⟩
      · rename_i hka
        refine List.pairwise_cons.mpr ⟨?_, ih hs.tail⟩
        intro x hx
        rcases mem_insert hx with rfl | hx
        · exact lt_of_le_of_ne (not_lt.mp hlt) (Ne.symm hka)
        · exact hs.head_lt x hx

theorem erase_sorted {l : List (K × V)} (hs : Sorted l) (k : K) : Sorted (erase l k) :=
  List.Pairwise.filter _ hs

theorem get_erase (l : List (K × V)) (k k' : K) :
    get (erase l k) k' = if k' = k then none else get l k' := by
  induction l with
  | nil => simp [erase, get]
  | cons e l ih =>
    obtain ⟨a, b⟩ := e
    by_cases hak : a = k
    · subst hak
      have herase : erase ((a, b) :: l) a = erase l a := by simp [erase]
      rw [herase, ih]
      by_cases hk : k' = a
      · simp [hk]
      · simp [get, hk, Ne.symm hk]
    · have herase : erase ((a, b) :: l) k = (a, b) :: erase l k := by simp [erase, hak]
      rw [herase]
      simp only [get, ih]
      by_cases hk : a = k'
      · subst hk; simp [hak]
      · simp [hk]

/-- Sorted entry lists with the same readings are equal. -/
theorem ext_get : ∀ {l₁ l₂ : List (K × V)}, Sorted l₁ → Sorted l₂ →
    (∀ k, get l₁ k = get l₂ k) → l₁ = l₂
  | [], [], _, _, _ => rfl
  | [], (a, b) :: l, _, _, h => by simpa [get] using h a
  | (a, b) :: l, [], _, _, h => by simpa [get] using h a
  | (a, b) :: l₁, (c, d) :: l₂, h₁, h₂, h => by
    -- the smaller head would be read in one list and not in the other
    have hac : a = c := by
      rcases lt_trichotomy a c with hlt | heq | hgt
      · have hnone : get ((c, d) :: l₂) a = none :=
          get_eq_none (fun e he => by
            rcases List.mem_cons.mp he with rfl | he
            · exact Ne.symm (ne_of_lt hlt)
            · exact Ne.symm (ne_of_lt (lt_trans hlt (h₂.head_lt e he))))
        have := h a
        rw [hnone] at this
        simp [get] at this
      · exact heq
      · have hnone : get ((a, b) :: l₁) c = none :=
          get_eq_none (fun e he => by
            rcases List.mem_cons.mp he with rfl | he
            · exact Ne.symm (ne_of_lt hgt)
            · exact Ne.symm (ne_of_lt (lt_trans hgt (h₁.head_lt e he))))
        have := h c
        rw [hnone] at this
        simp [get] at this
    subst hac
    have hbd : b = d := by simpa [get] using h a
    subst hbd
    have htail : l₁ = l₂ := by
      refine ext_get h₁.tail h₂.tail (fun k => ?_)
      by_cases hk : a = k
      · subst hk
        rw [get_eq_none (fun e he => Ne.symm (ne_of_lt (h₁.head_lt e he))),
          get_eq_none (fun e he => Ne.symm (ne_of_lt (h₂.head_lt e he)))]
      · simpa [get, hk] using h k
    rw [htail]

end Entries

/-- A table: entries with strictly increasing keys. -/
structure Table (K : Type u) (V : Type v) [LinearOrder K] where
  entries : List (K × V)
  sorted : Entries.Sorted entries

namespace Table

variable [LinearOrder K]

instance [DecidableEq V] : DecidableEq (Table K V) := fun t₁ t₂ =>
  decidable_of_iff (t₁.entries = t₂.entries)
    ⟨fun h => by cases t₁; cases t₂; simp only at h; subst h; rfl, fun h => h ▸ rfl⟩

def empty : Table K V := ⟨[], List.Pairwise.nil⟩

instance : Inhabited (Table K V) := ⟨empty⟩

/-- Point read. -/
def get (t : Table K V) (k : K) : Option V := Entries.get t.entries k

/-- Upsert. -/
def insert (t : Table K V) (k : K) (v : V) : Table K V :=
  ⟨Entries.insert t.entries k v, Entries.insert_sorted t.sorted k v⟩

def erase (t : Table K V) (k : K) : Table K V :=
  ⟨Entries.erase t.entries k, Entries.erase_sorted t.sorted k⟩

/-- Read with a default for absent keys. -/
def getD (t : Table K V) (k : K) (d : V) : V := (t.get k).getD d

@[simp] theorem get_empty (k : K) : (empty : Table K V).get k = none := rfl

@[simp, grind =] theorem get_insert (t : Table K V) (k k' : K) (v : V) :
    (t.insert k v).get k' = if k' = k then some v else t.get k' :=
  Entries.get_insert _ _ _ _ t.sorted

@[simp, grind =] theorem get_erase (t : Table K V) (k k' : K) :
    (t.erase k).get k' = if k' = k then none else t.get k' :=
  Entries.get_erase _ _ _

theorem getD_insert (t : Table K V) (k k' : K) (v d : V) :
    (t.insert k v).getD k' d = if k' = k then v else t.getD k' d := by
  unfold getD
  rw [get_insert]
  split <;> rfl

/-- A table is determined by its readings. -/
theorem ext_get {t₁ t₂ : Table K V} (h : ∀ k, t₁.get k = t₂.get k) : t₁ = t₂ := by
  have he : t₁.entries = t₂.entries := Entries.ext_get t₁.sorted t₂.sorted h
  cases t₁; cases t₂
  simp only at he
  subst he
  rfl

theorem mem_entries {t : Table K V} {k : K} {v : V} : (k, v) ∈ t.entries ↔ t.get k = some v :=
  ⟨Entries.get_of_mem t.sorted, Entries.mem_of_get⟩

theorem mem_keys {t : Table K V} {k : K} : k ∈ t.entries.map Prod.fst ↔ ∃ v, t.get k = some v := by
  rw [List.mem_map]
  constructor
  · rintro ⟨⟨k', v⟩, hmem, rfl⟩
    exact ⟨v, mem_entries.mp hmem⟩
  · rintro ⟨v, hget⟩
    exact ⟨(k, v), mem_entries.mpr hget, rfl⟩

/-- There is nothing to delete at an absent key. -/
theorem erase_of_none {t : Table K V} {k : K} (h : t.get k = none) : t.erase k = t := by
  refine ext_get (fun k' => ?_)
  rw [get_erase]
  split
  · rename_i hk; rw [hk, h]
  · rfl

/-- Writing back what an absent key held leaves the table as it was. -/
theorem erase_insert {t : Table K V} {k : K} {v : V} (h : t.get k = none) :
    (t.insert k v).erase k = t := by
  refine ext_get (fun k' => ?_)
  rw [get_erase, get_insert]
  split
  · rename_i hk; rw [hk, h]
  · rfl

/-- Keep the entries that satisfy a test. -/
def filter (p : K → V → Bool) (t : Table K V) : Table K V :=
  ⟨t.entries.filter (fun e => p e.1 e.2), List.Pairwise.filter _ t.sorted⟩

theorem get_filter (p : K → V → Bool) (t : Table K V) (k : K) :
    (t.filter p).get k = (t.get k).filter (p k) := by
  cases hg : t.get k with
  | none =>
    cases hf : (t.filter p).get k with
    | none => rfl
    | some v =>
      have hmem := List.mem_of_mem_filter (mem_entries.mpr hf)
      rw [mem_entries.mp hmem] at hg
      cases hg
  | some v =>
    rw [Option.filter_some]
    split
    · rename_i hp
      exact mem_entries.mp (List.mem_filter.mpr ⟨mem_entries.mpr hg, hp⟩)
    · rename_i hp
      cases hf : (t.filter p).get k with
      | none => rfl
      | some v' =>
        obtain ⟨hmem, hp'⟩ := List.mem_filter.mp (mem_entries.mpr hf)
        have heq : v = v' := Option.some.inj (hg.symm.trans (mem_entries.mp hmem))
        rw [heq] at hp
        exact absurd hp' hp

/-! ## Bulk writes -/

/-- Delete a list of keys. -/
def eraseAll (t : Table K V) (keys : List K) : Table K V := keys.foldl erase t

/-- Upsert a list of entries, in order. -/
def insertAll (t : Table K V) (entries : List (K × V)) : Table K V :=
  entries.foldl (fun t e => t.insert e.1 e.2) t

theorem get_eraseAll (t : Table K V) (keys : List K) (k : K) :
    (t.eraseAll keys).get k = if k ∈ keys then none else t.get k := by
  induction keys generalizing t with
  | nil => simp [eraseAll]
  | cons a keys ih =>
    change ((t.erase a).eraseAll keys).get k = _
    rw [ih, get_erase]
    by_cases hka : k = a
    · simp [hka]
    · simp [hka]

theorem get_insertAll_of_notMem {t : Table K V} {entries : List (K × V)} {k : K}
    (h : k ∉ entries.map Prod.fst) : (t.insertAll entries).get k = t.get k := by
  induction entries generalizing t with
  | nil => rfl
  | cons e entries ih =>
    rw [List.map_cons, List.mem_cons, not_or] at h
    change ((t.insert e.1 e.2).insertAll entries).get k = _
    rw [ih h.2, get_insert, if_neg h.1]

/-- With distinct keys every entry is read back. -/
theorem get_insertAll_of_mem {t : Table K V} {entries : List (K × V)} (hn : (entries.map Prod.fst).Nodup)
    {k : K} {v : V} (h : (k, v) ∈ entries) : (t.insertAll entries).get k = some v := by
  induction entries generalizing t with
  | nil => cases h
  | cons e entries ih =>
    rw [List.map_cons, List.nodup_cons] at hn
    change ((t.insert e.1 e.2).insertAll entries).get k = _
    rcases List.mem_cons.mp h with rfl | h
    · rw [get_insertAll_of_notMem hn.1, get_insert, if_pos rfl]
    · exact ih hn.2 h

/-- At its keys a bulk upsert does not depend on the table. -/
theorem get_insertAll_congr {t t' : Table K V} {entries : List (K × V)} {k : K}
    (h : k ∈ entries.map Prod.fst) : (t.insertAll entries).get k = (t'.insertAll entries).get k := by
  induction entries generalizing t t' with
  | nil => cases h
  | cons e entries ih =>
    by_cases hk : k ∈ entries.map Prod.fst
    · exact ih hk
    · rw [List.map_cons, List.mem_cons] at h
      have hke : k = e.1 := h.resolve_right hk
      change ((t.insert e.1 e.2).insertAll entries).get k = ((t'.insert e.1 e.2).insertAll entries).get k
      rw [get_insertAll_of_notMem hk, get_insertAll_of_notMem hk, get_insert, get_insert, if_pos hke, if_pos hke]

/-- Upserts and deletions of different keys commute. -/
theorem eraseAll_insertAll {t : Table K V} {entries : List (K × V)} {keys : List K}
    (h : ∀ k ∈ keys, k ∉ entries.map Prod.fst) :
    (t.insertAll entries).eraseAll keys = (t.eraseAll keys).insertAll entries := by
  refine ext_get (fun k => ?_)
  rw [get_eraseAll]
  by_cases hk : k ∈ keys
  · rw [if_pos hk, get_insertAll_of_notMem (h k hk), get_eraseAll, if_pos hk]
  · rw [if_neg hk]
    by_cases he : k ∈ entries.map Prod.fst
    · exact get_insertAll_congr he
    · rw [get_insertAll_of_notMem he, get_insertAll_of_notMem he, get_eraseAll, if_neg hk]

/-- Bulk upserts of different keys commute. -/
theorem insertAll_comm {t : Table K V} {a b : List (K × V)}
    (h : ∀ k ∈ a.map Prod.fst, k ∉ b.map Prod.fst) :
    (t.insertAll a).insertAll b = (t.insertAll b).insertAll a := by
  refine ext_get (fun k => ?_)
  by_cases ha : k ∈ a.map Prod.fst
  · rw [get_insertAll_of_notMem (h k ha)]
    exact get_insertAll_congr ha
  · rw [get_insertAll_of_notMem ha]
    by_cases hb : k ∈ b.map Prod.fst
    · exact get_insertAll_congr hb
    · rw [get_insertAll_of_notMem hb, get_insertAll_of_notMem hb, get_insertAll_of_notMem ha]

/-- A reading after a bulk upsert is an entry of it or an old one. -/
theorem get_insertAll {t : Table K V} {entries : List (K × V)} {k : K} {v : V}
    (h : (t.insertAll entries).get k = some v) :
    (k, v) ∈ entries ∨ (k ∉ entries.map Prod.fst ∧ t.get k = some v) := by
  induction entries generalizing t with
  | nil => exact Or.inr ⟨List.not_mem_nil, h⟩
  | cons e entries ih =>
    rcases ih (t := t.insert e.1 e.2) h with hm | ⟨hk, hg⟩
    · exact Or.inl (List.mem_cons_of_mem _ hm)
    · rw [get_insert] at hg
      split at hg
      · rename_i hke
        cases hg
        exact Or.inl (by rw [hke]; exact List.mem_cons_self)
      · rename_i hke
        refine Or.inr ⟨?_, hg⟩
        rw [List.map_cons, List.mem_cons, not_or]
        exact ⟨hke, hk⟩

/-- With distinct keys the order of a bulk upsert does not matter. -/
theorem insertAll_perm {t : Table K V} {a b : List (K × V)} (hn : (a.map Prod.fst).Nodup) (h : a.Perm b) :
    t.insertAll a = t.insertAll b := by
  have hn' : (b.map Prod.fst).Nodup := (h.map Prod.fst).nodup_iff.mp hn
  refine ext_get fun k => ?_
  by_cases hk : k ∈ a.map Prod.fst
  · obtain ⟨⟨key, v⟩, hmem, rfl⟩ := List.mem_map.mp hk
    rw [get_insertAll_of_mem hn hmem, get_insertAll_of_mem hn' (h.mem_iff.mp hmem)]
  · have hk' : k ∉ b.map Prod.fst := fun hmem => hk ((h.map Prod.fst).mem_iff.mpr hmem)
    rw [get_insertAll_of_notMem hk, get_insertAll_of_notMem hk']

theorem keys_nodup (t : Table K V) : (t.entries.map Prod.fst).Nodup := by
  have hlt : (t.entries.map Prod.fst).Pairwise (· < ·) := List.pairwise_map.mpr t.sorted
  exact hlt.imp fun h => ne_of_lt h

/-- Reading a bulk upsert of mapped values. -/
theorem get_insertAll_map {W : Type v} (f : V → W) (t : Table K W) (l : List (K × V)) (k : K) :
    (t.insertAll (l.map fun e => (e.1, f e.2))).get k =
      if k ∈ l.map Prod.fst then (((empty : Table K V).insertAll l).get k).map f else t.get k := by
  induction l generalizing t with
  | nil => rfl
  | cons e l ih =>
    change ((t.insert e.1 (f e.2)).insertAll (l.map fun e => (e.1, f e.2))).get k = _
    rw [ih]
    change _ = if k ∈ e.1 :: l.map Prod.fst then
      ((((empty : Table K V).insert e.1 e.2).insertAll l).get k).map f else t.get k
    by_cases hk : k ∈ l.map Prod.fst
    · rw [if_pos hk, if_pos (List.mem_cons_of_mem _ hk)]
      exact congrArg (Option.map f) (get_insertAll_congr hk)
    · rw [if_neg hk, get_insertAll_of_notMem hk, get_insert, get_insert]
      by_cases hke : k = e.1
      · rw [if_pos hke, if_pos hke, if_pos (hke ▸ List.mem_cons_self)]
        rfl
      · rw [if_neg hke, if_neg (fun hmem => (List.mem_cons.mp hmem).elim hke hk)]

/-- The keys of a bulk upsert are there afterwards. -/
theorem exists_get_insertAll {t : Table K V} {l : List (K × V)} {k : K} (h : k ∈ l.map Prod.fst) :
    ∃ v, (t.insertAll l).get k = some v := by
  induction l generalizing t with
  | nil => cases h
  | cons e l ih =>
    by_cases hk : k ∈ l.map Prod.fst
    · exact ih hk
    · have hke : k = e.1 := (List.mem_cons.mp h).resolve_right hk
      refine ⟨e.2, ?_⟩
      change ((t.insert e.1 e.2).insertAll l).get k = some e.2
      rw [get_insertAll_of_notMem hk, get_insert, if_pos hke]

/-- A table is its entries. -/
theorem insertAll_entries (t : Table K V) : (empty : Table K V).insertAll t.entries = t := by
  refine ext_get fun k => ?_
  cases hget : t.get k with
  | none =>
    refine get_insertAll_of_notMem fun hmem => ?_
    obtain ⟨v, hv⟩ := mem_keys.mp hmem
    rw [hget] at hv
    cases hv
  | some v => exact get_insertAll_of_mem (keys_nodup t) (mem_entries.mpr hget)

/-- A list gathered in a table first is upserted alike. -/
theorem insertAll_collect {W : Type v} (f : V → W) (t : Table K W) (l : List (K × V)) :
    t.insertAll (((empty : Table K V).insertAll l).entries.map fun e => (e.1, f e.2)) =
      t.insertAll (l.map fun e => (e.1, f e.2)) := by
  refine ext_get fun k => ?_
  have hkeys : k ∈ ((empty : Table K V).insertAll l).entries.map Prod.fst ↔ k ∈ l.map Prod.fst := by
    rw [mem_keys]
    constructor
    · rintro ⟨v, hv⟩
      rcases get_insertAll hv with hmem | ⟨-, hnone⟩
      · exact List.mem_map_of_mem hmem
      · cases hnone
    · exact exists_get_insertAll
  rw [get_insertAll_map, get_insertAll_map, insertAll_entries]
  simp only [hkeys]

/-! ## Scans -/

/-- Ascending scan from a key. -/
def entriesFrom (t : Table K V) (k : K) : List (K × V) := t.entries.filter (fun e => k ≤ e.1)

/-- The entry with the greatest key. -/
def lastEntry (t : Table K V) : Option (K × V) := t.entries.getLast?

theorem mem_entriesFrom {t : Table K V} {k k' : K} {v : V} :
    (k', v) ∈ t.entriesFrom k ↔ k ≤ k' ∧ t.get k' = some v := by
  simp only [entriesFrom, List.mem_filter, mem_entries, decide_eq_true_eq]
  exact and_comm

theorem entriesFrom_sorted (t : Table K V) (k : K) : Entries.Sorted (t.entriesFrom k) :=
  List.Pairwise.filter _ t.sorted

/-- A scan from a key reads the end of the table. -/
theorem entriesFrom_suffix (t : Table K V) (k : K) : t.entriesFrom k <:+ t.entries := by
  have hsplit : ∀ {l : List (K × V)}, Entries.Sorted l → l.filter (fun e => k ≤ e.1) <:+ l := by
    intro l hs
    induction l with
    | nil => exact List.suffix_refl []
    | cons e l ih =>
      by_cases hle : k ≤ e.1
      · have hall : ∀ e' ∈ l, decide (k ≤ e'.1) = true :=
          fun e' he' => decide_eq_true (le_of_lt (lt_of_le_of_lt hle (hs.head_lt e' he')))
        refine ⟨[], ?_⟩
        rw [List.nil_append, List.filter_cons_of_pos (by simpa using hle), List.filter_eq_self.mpr hall]
      · rw [List.filter_cons_of_neg (by simpa using hle)]
        exact (ih hs.tail).trans (List.suffix_cons e l)
  exact hsplit t.sorted

/-- A key above all others comes last. -/
theorem entries_insert_last {t : Table K V} {k : K} (v : V) (h : ∀ e ∈ t.entries, e.1 < k) :
    (t.insert k v).entries = t.entries ++ [(k, v)] := by
  have hend : ∀ {l : List (K × V)}, (∀ e ∈ l, e.1 < k) → Entries.insert l k v = l ++ [(k, v)] := by
    intro l hl
    induction l with
    | nil => rfl
    | cons e l ih =>
      have hlt := hl e List.mem_cons_self
      unfold Entries.insert
      rw [if_neg (not_lt_of_gt hlt), if_neg (ne_of_gt hlt), ih (fun e' he' => hl e' (List.mem_cons_of_mem _ he'))]
      rfl
  exact hend h

/-- A scan from the greatest key reads its entry. -/
theorem entriesFrom_lastEntry {t : Table K V} {k : K} {v : V} (h : t.lastEntry = some (k, v)) :
    t.entriesFrom k = [(k, v)] := by
  obtain ⟨l, hl⟩ := List.getLast?_eq_some_iff.mp h
  have hs : (l ++ [(k, v)]).Pairwise (fun a b => a.1 < b.1) := by
    rw [← hl]
    exact t.sorted
  have hbelow : ∀ e ∈ l, ¬ decide (k ≤ e.1) = true := by
    intro e he hle
    have hlt := (List.pairwise_append.mp hs).2.2 e he _ (List.mem_singleton_self _)
    exact absurd (of_decide_eq_true hle) (not_le_of_gt hlt)
  unfold entriesFrom
  rw [hl, List.filter_append, List.filter_eq_nil_iff.mpr hbelow]
  simp

/-- A key above all others is read last. -/
theorem entriesFrom_insert_last {t : Table K V} {k k' : K} (v : V) (h : ∀ e ∈ t.entries, e.1 < k') (hle : k ≤ k') :
    (t.insert k' v).entriesFrom k = t.entriesFrom k ++ [(k', v)] := by
  unfold entriesFrom
  rw [entries_insert_last v h, List.filter_append]
  simp [hle]

/-- The entries above the key of an entry are those after it. -/
theorem filter_lt_eq_drop {l : List (K × V)} (hs : Entries.Sorted l) {j : Nat} {e : K × V} (h : l[j]? = some e) :
    l.filter (fun e' => e.1 < e'.1) = l.drop (j + 1) := by
  induction l generalizing j with
  | nil => cases h
  | cons e' l ih =>
    cases j with
    | zero =>
      cases h
      rw [List.filter_cons_of_neg (by simp)]
      exact List.filter_eq_self.mpr fun e' he' => decide_eq_true (hs.head_lt e' he')
    | succ j =>
      have hlt := hs.head_lt e (List.mem_of_getElem? h)
      rw [List.filter_cons_of_neg (by simpa using le_of_lt hlt)]
      exact ih hs.tail h

/-- A scan from the key of an entry starts with it. -/
theorem entriesFrom_eq_drop {t : Table K V} {j : Nat} {e : K × V} (h : t.entries[j]? = some e) :
    t.entriesFrom e.1 = t.entries.drop j := by
  have hsplit : ∀ {l : List (K × V)}, Entries.Sorted l → ∀ {j : Nat}, l[j]? = some e →
      l.filter (fun e' => e.1 ≤ e'.1) = l.drop j := by
    intro l hs
    induction l with
    | nil => intro j h; cases h
    | cons e' l ih =>
      intro j h
      cases j with
      | zero =>
        cases h
        refine List.filter_eq_self.mpr fun e' he' => decide_eq_true ?_
        rcases List.mem_cons.mp he' with rfl | he'
        · exact le_refl _
        · exact le_of_lt (hs.head_lt e' he')
      | succ j =>
        have hlt := hs.head_lt e (List.mem_of_getElem? h)
        rw [List.filter_cons_of_neg (by simpa using hlt)]
        exact ih hs.tail h
  exact hsplit t.sorted h

/-- Tables with the same keys list them alike. -/
theorem keys_eq {W : Type v} {t : Table K V} {t' : Table K W} (h : ∀ k, (t.get k).isSome = (t'.get k).isSome) :
    t.entries.map Prod.fst = t'.entries.map Prod.fst := by
  have hsorted : (t.entries.map Prod.fst).Pairwise (· < ·) := List.pairwise_map.mpr t.sorted
  have hsorted' : (t'.entries.map Prod.fst).Pairwise (· < ·) := List.pairwise_map.mpr t'.sorted
  refine hsorted.eq_of_mem_iff hsorted' fun k => ?_
  rw [mem_keys, mem_keys, ← Option.isSome_iff_exists, ← Option.isSome_iff_exists, h k]

/-- Keys above all others, in order, come last. -/
theorem entries_insertAll_last {t : Table K V} {l : List (K × V)} (hl : Entries.Sorted l)
    (h : ∀ e ∈ t.entries, ∀ e' ∈ l, e.1 < e'.1) : (t.insertAll l).entries = t.entries ++ l := by
  induction l generalizing t with
  | nil => exact (List.append_nil _).symm
  | cons e l ih =>
    have hlast := entries_insert_last e.2 fun e' he' => h e' he' e List.mem_cons_self
    change ((t.insert e.1 e.2).insertAll l).entries = _
    rw [ih hl.tail, hlast, List.append_assoc]
    · rfl
    · intro e₁ he₁ e₂ he₂
      rw [hlast] at he₁
      rcases List.mem_append.mp he₁ with he₁ | he₁
      · exact h e₁ he₁ e₂ (List.mem_cons_of_mem _ he₂)
      · rw [List.mem_singleton.mp he₁]
        exact hl.head_lt e₂ he₂

theorem entries_eraseAll (t : Table K V) (keys : List K) :
    (t.eraseAll keys).entries = t.entries.filter fun e => e.1 ∉ keys := by
  induction keys generalizing t with
  | nil => exact (List.filter_eq_self.mpr (by simp)).symm
  | cons k keys ih =>
    change ((t.erase k).eraseAll keys).entries = _
    rw [ih]
    change (t.entries.filter fun e => e.1 ≠ k).filter _ = _
    rw [List.filter_filter]
    refine List.filter_congr fun e _ => ?_
    simp [Bool.and_comm]

/-- The two halves of a table have no key in common. -/
theorem keys_disjoint {t : Table K V} {a b : List (K × V)} (h : t.entries = a ++ b) :
    ∀ e ∈ a, ∀ e' ∈ b, e.1 ≠ e'.1 := by
  have hs : (a ++ b).Pairwise fun e e' => e.1 < e'.1 := by
    rw [← h]
    exact t.sorted
  exact fun e he e' he' => ne_of_lt ((List.pairwise_append.mp hs).2.2 e he e' he')

/-- Deleting the first entries leaves the others. -/
theorem entries_eraseAll_left {t : Table K V} {a b : List (K × V)} (h : t.entries = a ++ b) :
    (t.eraseAll (a.map Prod.fst)).entries = b := by
  have hne := keys_disjoint h
  rw [entries_eraseAll, h, List.filter_append, List.filter_eq_nil_iff.mpr, List.filter_eq_self.mpr, List.nil_append]
  · intro e he
    refine decide_eq_true fun hmem => ?_
    obtain ⟨e', he', heq⟩ := List.mem_map.mp hmem
    exact hne e' he' e he heq
  · intro e he hnot
    exact of_decide_eq_true hnot (List.mem_map_of_mem he)

/-- Deleting the last entries leaves the others. -/
theorem entries_eraseAll_right {t : Table K V} {a b : List (K × V)} (h : t.entries = a ++ b) :
    (t.eraseAll (b.map Prod.fst)).entries = a := by
  have hne := keys_disjoint h
  rw [entries_eraseAll, h, List.filter_append, List.filter_eq_self.mpr, List.filter_eq_nil_iff.mpr, List.append_nil]
  · intro e he hnot
    exact of_decide_eq_true hnot (List.mem_map_of_mem he)
  · intro e he
    refine decide_eq_true fun hmem => ?_
    obtain ⟨e', he', heq⟩ := List.mem_map.mp hmem
    exact hne e he e' he' heq.symm

/-! ## Weighted totals -/

variable {M : Type w} [AddCommMonoid M]

/-- Sum of a weight over all entries. -/
def total (f : K → V → M) (t : Table K V) : M := (t.entries.map (fun e => f e.1 e.2)).sum

/-- Weight of what is read at a key, `0` when nothing is. -/
def weightAt (f : K → V → M) (t : Table K V) (k : K) : M :=
  match t.get k with
  | some v => f k v
  | none => 0

theorem total_entries_insert (f : K → V → M) :
    ∀ (l : List (K × V)) (k : K) (v : V), Entries.Sorted l →
      ((Entries.insert l k v).map (fun e => f e.1 e.2)).sum +
          (match Entries.get l k with | some v' => f k v' | none => 0) =
        (l.map (fun e => f e.1 e.2)).sum + f k v
  | [], k, v, _ => by simp [Entries.insert, Entries.get]
  | (a, b) :: l, k, v, hs => by
    simp only [Entries.insert]
    split
    · rename_i hlt
      have hnone : Entries.get ((a, b) :: l) k = none :=
        Entries.get_eq_none (fun e he => by
          rcases List.mem_cons.mp he with rfl | he
          · exact Ne.symm (ne_of_lt hlt)
          · exact Ne.symm (ne_of_lt (lt_trans hlt (hs.head_lt e he))))
      rw [hnone]
      simp [add_comm, add_left_comm]
    · split
      · rename_i hka
        subst hka
        simp [Entries.get, add_comm, add_left_comm]
      · rename_i hka
        have ih := total_entries_insert f l k v hs.tail
        simp only [List.map_cons, List.sum_cons, Entries.get, if_neg (Ne.symm hka), add_assoc]
        rw [ih]

/-- **Total after an upsert**: the old weight at the key is replaced by the new one. -/
theorem total_insert (f : K → V → M) (t : Table K V) (k : K) (v : V) :
    total f (t.insert k v) + weightAt f t k = total f t + f k v :=
  total_entries_insert f t.entries k v t.sorted

theorem total_entries_erase (f : K → V → M) :
    ∀ (l : List (K × V)) (k : K), Entries.Sorted l →
      ((Entries.erase l k).map (fun e => f e.1 e.2)).sum +
          (match Entries.get l k with | some v' => f k v' | none => 0) =
        (l.map (fun e => f e.1 e.2)).sum
  | [], k, _ => by simp [Entries.erase, Entries.get]
  | (a, b) :: l, k, hs => by
    have ih := total_entries_erase f l k hs.tail
    by_cases hak : a = k
    · subst hak
      have hnone : Entries.get l a = none :=
        Entries.get_eq_none (fun e he => Ne.symm (ne_of_lt (hs.head_lt e he)))
      rw [hnone] at ih
      have herase : Entries.erase ((a, b) :: l) a = Entries.erase l a := by simp [Entries.erase]
      rw [herase]
      simp only [Entries.get, if_true, List.map_cons, List.sum_cons]
      rw [← ih, add_zero, add_comm]
    · have herase : Entries.erase ((a, b) :: l) k = (a, b) :: Entries.erase l k := by
        simp [Entries.erase, hak]
      rw [herase]
      simp only [Entries.get, if_neg hak, List.map_cons, List.sum_cons, add_assoc]
      rw [ih]

/-- **Total after a deletion**: the weight at the key is gone. -/
theorem total_erase (f : K → V → M) (t : Table K V) (k : K) :
    total f (t.erase k) + weightAt f t k = total f t :=
  total_entries_erase f t.entries k t.sorted

@[simp] theorem total_empty (f : K → V → M) : total f (empty : Table K V) = 0 := rfl

theorem weightAt_of_get {f : K → V → M} {t : Table K V} {k : K} {v : V} (h : t.get k = some v) :
    weightAt f t k = f k v := by
  unfold weightAt
  rw [h]

theorem weightAt_of_none {f : K → V → M} {t : Table K V} {k : K} (h : t.get k = none) :
    weightAt f t k = 0 := by
  unfold weightAt
  rw [h]

/-- Deleting distinct keys takes their weights away. -/
theorem total_eraseAll (f : K → V → M) (t : Table K V) {keys : List K} (hn : keys.Nodup) :
    total f (t.eraseAll keys) + (keys.map (weightAt f t)).sum = total f t := by
  induction keys generalizing t with
  | nil => simp [eraseAll]
  | cons a keys ih =>
    rw [List.nodup_cons] at hn
    have hrest : keys.map (weightAt f (t.erase a)) = keys.map (weightAt f t) := by
      refine List.map_congr_left (fun k hk => ?_)
      have hka : k ≠ a := fun h => hn.1 (h ▸ hk)
      unfold weightAt
      rw [get_erase, if_neg hka]
    have hih := ih (t.erase a) hn.2
    rw [hrest] at hih
    rw [List.map_cons, List.sum_cons, add_comm (weightAt f t a), ← add_assoc]
    change total f ((t.erase a).eraseAll keys) + _ + _ = _
    rw [hih, total_erase]

/-- The total of a table over its keys. -/
theorem total_of_keys (f : K → V → M) {t : Table K V} {keys : List K} (hn : keys.Nodup)
    (hall : ∀ k v, t.get k = some v → k ∈ keys) : total f t = (keys.map (weightAt f t)).sum := by
  have hempty : t.eraseAll keys = empty := by
    refine ext_get (fun k => ?_)
    rw [get_eraseAll, get_empty]
    split
    · rfl
    · rename_i hk
      cases hg : t.get k with
      | none => rfl
      | some v => exact absurd (hall k v hg) hk
  have htotal := total_eraseAll f t hn
  rw [hempty, total_empty, zero_add] at htotal
  exact htotal.symm

/-- Entries at fresh, distinct keys add their weights. -/
theorem total_insertAll (f : K → V → M) (t : Table K V) {entries : List (K × V)}
    (hn : (entries.map Prod.fst).Nodup) (hfresh : ∀ e ∈ entries, t.get e.1 = none) :
    total f (t.insertAll entries) = total f t + (entries.map fun e => f e.1 e.2).sum := by
  induction entries generalizing t with
  | nil => simp [insertAll]
  | cons e entries ih =>
    rw [List.map_cons, List.nodup_cons] at hn
    have hins := total_insert f t e.1 e.2
    rw [weightAt_of_none (hfresh e List.mem_cons_self), add_zero] at hins
    change total f ((t.insert e.1 e.2).insertAll entries) = _
    rw [ih _ hn.2, hins, List.map_cons, List.sum_cons, add_assoc]
    intro x hx
    have hne : x.1 ≠ e.1 := fun h => hn.1 (h ▸ List.mem_map_of_mem hx)
    rw [get_insert, if_neg hne]
    exact hfresh x (List.mem_cons_of_mem _ hx)

/-- Weights that agree on what a table holds have the same total. -/
theorem total_congr {f g : K → V → M} {t : Table K V} (h : ∀ k v, t.get k = some v → f k v = g k v) :
    total f t = total g t := by
  unfold total
  refine congrArg List.sum (List.map_congr_left fun e he => h e.1 e.2 (mem_entries.mp he))

theorem total_add (f g : K → V → M) (t : Table K V) :
    total (fun k v => f k v + g k v) t = total f t + total g t := by
  unfold total
  exact List.sum_map_add

theorem total_filter (f : K → V → M) (p : K → V → Bool) (t : Table K V) :
    total f (t.filter p) = total (fun k v => if p k v then f k v else 0) t := by
  change ((t.entries.filter fun e => p e.1 e.2).map fun e => f e.1 e.2).sum = _
  unfold total
  induction t.entries with
  | nil => rfl
  | cons e l ih =>
    rw [List.filter_cons, List.map_cons, List.sum_cons, ← ih]
    cases hp : p e.1 e.2 with
    | true => simp only [hp, if_true, List.map_cons, List.sum_cons]
    | false => simp only [hp, Bool.false_eq_true, if_false, zero_add]

/-! ### Tables with a default

An absent value reads as `d`, which weighs nothing. -/

section

variable {f : K → V → M} {d : V}

theorem weightAt_eq_getD (hd : ∀ k, f k d = 0) (t : Table K V) (k : K) : weightAt f t k = f k (t.getD k d) := by
  unfold weightAt getD
  cases t.get k with
  | none => exact (hd k).symm
  | some v => rfl

/-- **Tables that read the same have the same total.** -/
theorem total_of_getD (hd : ∀ k, f k d = 0) {t t' : Table K V} (h : ∀ k, t.getD k d = t'.getD k d) :
    total f t = total f t' := by
  have hkeys : ∀ {s : Table K V} {k : K} {v : V}, s.get k = some v → k ∈ s.entries.map Prod.fst :=
    fun {s k v} hget => List.mem_map_of_mem (f := Prod.fst) (mem_entries.mpr hget)
  have hall : ((t.entries.map Prod.fst) ∪ (t'.entries.map Prod.fst)).Nodup := List.Nodup.union _ t'.keys_nodup
  rw [total_of_keys f hall (fun k v hget => List.mem_union_iff.mpr (Or.inl (hkeys hget))),
    total_of_keys f hall (fun k v hget => List.mem_union_iff.mpr (Or.inr (hkeys hget)))]
  refine congrArg List.sum (List.map_congr_left fun k _ => ?_)
  rw [weightAt_eq_getD hd, weightAt_eq_getD hd, h k]

theorem total_insert_getD (hd : ∀ k, f k d = 0) (t : Table K V) (k : K) (v : V) :
    total f (t.insert k v) + f k (t.getD k d) = total f t + f k v := by
  rw [← weightAt_eq_getD hd, total_insert]

end

/-- What is read at a key is part of the total. -/
theorem getD_le_total {f : K → V → Nat} {d : V} (hd : ∀ k, f k d = 0) (t : Table K V) (k : K) :
    f k (t.getD k d) ≤ total f t := by
  have herase := total_erase f t k
  rw [weightAt_eq_getD hd] at herase
  omega

end Table

end DogeIndexer
