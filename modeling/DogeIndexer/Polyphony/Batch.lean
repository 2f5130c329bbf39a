import DogeIndexer.Polyphony.Execute

/-!
# The sync batcher

Model of `SyncBatcher` of `polyphony-xdg/src/storage/tikv.rs`: actions are merged per key as
blocks are pushed, and the merged actions are executed together.  The order in which the
source's hash map yields its values is a parameter (`HashOrder`).

* `pushActions_eq_run` — pushing is a keyed run of `merge`.
* `flush_get`, `exists_flush` — what executing the merged actions leaves at each key.
* `batched_eq_oneByOne` — any cut into batches, each executed in any order, gives the values
  that executing the actions one by one gives; nothing panics on the way.
-/

set_option autoImplicit false

namespace DogeIndexer.Polyphony

/-- An iteration order of a hash map's values. -/
structure HashOrder where
  values : List StorageAction → List StorageAction
  perm : ∀ l, (values l).Perm l

/-- The order in which the entries are listed. -/
def HashOrder.listed : HashOrder := ⟨id, fun l => List.Perm.refl l⟩

structure SyncBatcher where
  batchActions : Table Key StorageAction
  maxLen : Nat
  currentLen : Nat
  maxBytes : Nat
  estimatedBytes : Nat

namespace SyncBatcher

def new (maxLen tikvMaxRaftEntryBytes : Nat) : SyncBatcher :=
  ⟨Table.empty, maxLen, 0, tikvMaxRaftEntryBytes, 0⟩

/-- The loop body of `push_actions`. -/
def pushAction (checks : Bool) (b : SyncBatcher) (action : StorageAction) : Option SyncBatcher :=
  let b := { b with estimatedBytes := b.estimatedBytes + action.size }
  match b.batchActions.get action.key with
  | some prev => (prev.merge checks action).map fun merged =>
      { b with batchActions := b.batchActions.insert action.key merged }
  | none => some { b with batchActions := b.batchActions.insert action.key action }

def pushActions (checks : Bool) (b : SyncBatcher) (actions : List StorageAction) :
    Option SyncBatcher :=
  (actions.foldlM (pushAction checks) b).map fun b => { b with currentLen := b.currentLen + 1 }

def wipe (b : SyncBatcher) : SyncBatcher :=
  { b with currentLen := 0, batchActions := Table.empty, estimatedBytes := 0 }

def getBatchActions (order : HashOrder) (b : SyncBatcher) : List StorageAction :=
  order.values (b.batchActions.entries.map Prod.snd)

/-- The estimated bytes with the incoming actions are over half of the raft entry limit, or the
batch holds its maximum of blocks. -/
def shouldFlush (b : SyncBatcher) (nextActions : List StorageAction) : Bool :=
  let nextSize := (nextActions.map StorageAction.size).sum
  if (b.estimatedBytes + nextSize) * 2 > b.maxBytes then true
  else b.currentLen ≥ b.maxLen

def isEmpty (b : SyncBatcher) : Bool := b.batchActions.entries.isEmpty

end SyncBatcher

/-! ## Pushing is a keyed run -/

/-- What pushing an action does to the action held for its key. -/
def mergeEffect (checks : Bool) (action : StorageAction) :
    Option StorageAction → Option (Option StorageAction)
  | some prev => (prev.merge checks action).map some
  | none => some (some action)

/-- The merged actions of a list, over those already held. -/
def mergeAll (checks : Bool) (held : Table Key StorageAction) (actions : List StorageAction) :
    Option (Table Key StorageAction) :=
  Keyed.run StorageAction.key (mergeEffect checks) held actions

theorem mergeAll_append (checks : Bool) (held : Table Key StorageAction)
    (l₁ l₂ : List StorageAction) :
    mergeAll checks held (l₁ ++ l₂) =
      (mergeAll checks held l₁).bind (fun held' => mergeAll checks held' l₂) :=
  Keyed.run_append ..

namespace SyncBatcher

variable (checks : Bool)

theorem pushAction_eq (b : SyncBatcher) (action : StorageAction) :
    pushAction checks b action =
      (Keyed.step StorageAction.key (mergeEffect checks) b.batchActions action).map (fun held =>
        { b with batchActions := held, estimatedBytes := b.estimatedBytes + action.size }) := by
  simp only [pushAction, Keyed.step]
  cases hp : b.batchActions.get action.key with
  | none => rfl
  | some prev =>
    simp only [mergeEffect, Option.map_map]
    rfl

/-- **Pushing a block's actions is a keyed run of `merge`.** -/
theorem pushActions_eq_run (b : SyncBatcher) (actions : List StorageAction) :
    pushActions checks b actions =
      (mergeAll checks b.batchActions actions).map (fun held =>
        { b with
          batchActions := held
          estimatedBytes := b.estimatedBytes + (actions.map StorageAction.size).sum
          currentLen := b.currentLen + 1 }) := by
  have hfold : ∀ (l : List StorageAction) (b : SyncBatcher),
      l.foldlM (pushAction checks) b = (mergeAll checks b.batchActions l).map (fun held =>
        { b with
          batchActions := held
          estimatedBytes := b.estimatedBytes + (l.map StorageAction.size).sum }) := by
    intro l
    induction l with
    | nil => intro b; simp [mergeAll, Keyed.run]
    | cons a l ih =>
      intro b
      rw [List.foldlM_cons, pushAction_eq, mergeAll, Keyed.run_cons]
      cases Keyed.step StorageAction.key (mergeEffect checks) b.batchActions a with
      | none => rfl
      | some held =>
        simp only [Option.map_some, Option.bind_eq_bind, Option.bind_some]
        rw [ih]
        simp only [mergeAll, List.map_cons, List.sum_cons, Nat.add_assoc]
  unfold pushActions
  rw [hfold, Option.map_map]
  rfl

end SyncBatcher

/-- Every held action is held under its own key. -/
def WellKeyed (held : Table Key StorageAction) : Prop := ∀ k a, held.get k = some a → a.key = k

theorem wellKeyed_empty : WellKeyed Table.empty := by
  intro k a h
  cases h

/-- One push keeps the keys. -/
theorem mergeEffect_key {checks : Bool} {a b c : StorageAction} {o : Option StorageAction}
    (ho : ∀ p, o = some p → p.key = a.key) (h : mergeEffect checks a o = some (some c))
    (hb : b.key = a.key) : c.key = b.key := by
  cases o with
  | none =>
    cases h
    exact hb.symm
  | some p =>
    obtain ⟨d, hm, hd⟩ := Option.map_eq_some_iff.mp h
    cases hd
    rw [StorageAction.merge_key hm, ho p rfl, hb]

theorem mergeAll_wellKeyed {checks : Bool} {held held' : Table Key StorageAction}
    {actions : List StorageAction} (hw : WellKeyed held)
    (h : mergeAll checks held actions = some held') : WellKeyed held' := by
  induction actions generalizing held with
  | nil =>
    cases h
    exact hw
  | cons a l ih =>
    rw [mergeAll, Keyed.run_cons] at h
    cases hs : Keyed.step StorageAction.key (mergeEffect checks) held a with
    | none => rw [hs] at h; cases h
    | some held₁ =>
      rw [hs] at h
      refine ih ?_ h
      obtain ⟨o, ho, rfl⟩ := Keyed.step_eq_some hs
      intro k c hc
      rw [Table.get_assign] at hc
      split at hc
      · rename_i hk
        subst hk
        subst hc
        exact mergeEffect_key (fun p hp => hw _ _ hp) ho rfl
      · exact hw k c hc

/-! ## Executing the merged actions -/

section Flush

variable {order : HashOrder} {held : Table Key StorageAction}

theorem mem_values {a : StorageAction} :
    a ∈ order.values (held.entries.map Prod.snd) ↔ ∃ k, held.get k = some a := by
  rw [(order.perm _).mem_iff, List.mem_map]
  constructor
  · rintro ⟨⟨k, b⟩, hm, rfl⟩
    exact ⟨k, Table.mem_entries.mp hm⟩
  · rintro ⟨k, hk⟩
    exact ⟨(k, a), Table.mem_entries.mpr hk, rfl⟩

/-- The merged actions have distinct keys, in whatever order they are taken. -/
theorem values_nodup (hw : WellKeyed held) :
    ((order.values (held.entries.map Prod.snd)).map StorageAction.key).Nodup := by
  have hkeys : (held.entries.map Prod.snd).map StorageAction.key = held.entries.map Prod.fst := by
    rw [List.map_map]
    refine List.map_congr_left (fun e he => ?_)
    exact hw e.1 e.2 (Table.mem_entries.mp he)
  refine (((order.perm (held.entries.map Prod.snd)).map StorageAction.key).nodup_iff).mpr ?_
  rw [hkeys]
  have hlt : (held.entries.map Prod.fst).Pairwise (· < ·) := List.pairwise_map.mpr held.sorted
  exact hlt.imp (fun h => ne_of_lt h)

variable {checks : Bool} {store : Store}

/-- **What a flush leaves**: at a key with a merged action its effect, elsewhere the old
reading. -/
theorem flush_get (hw : WellKeyed held) {store' : Store} {r : Option (List StorageAction)}
    (h : applyActions checks store (order.values (held.entries.map Prod.snd)) false =
      some (store', r)) (k : Key) :
    match held.get k with
    | some a => a.effect checks (store.get k) = some (store'.get k)
    | none => store'.get k = store.get k := by
  rw [applyActions_bulk checks (values_nodup hw)] at h
  obtain ⟨t, hrun, ht⟩ := Option.map_eq_some_iff.mp h
  cases ht
  cases hk : held.get k with
  | some a =>
    have hmem : a ∈ order.values (held.entries.map Prod.snd) := mem_values.mpr ⟨k, hk⟩
    have := Keyed.run_get_of_mem (values_nodup hw) hrun hmem
    rw [hw k a hk] at this
    exact this
  | none =>
    refine Keyed.run_get_of_notMem hrun ?_
    intro hmem
    obtain ⟨a, ha, rfl⟩ := List.mem_map.mp hmem
    obtain ⟨k', hk'⟩ := mem_values.mp ha
    rw [hw k' a hk', hk'] at hk
    cases hk

/-- A flush completes when no merged action panics. -/
theorem exists_flush (checks : Bool) (store : Store) (order : HashOrder) (hw : WellKeyed held)
    (h : ∀ k a, held.get k = some a → ∃ o, a.effect checks (store.get k) = some o) :
    ∃ store', applyActions checks store (order.values (held.entries.map Prod.snd)) false =
      some (store', none) := by
  rw [applyActions_bulk checks (values_nodup hw)]
  obtain ⟨t, ht⟩ : ∃ t, Keyed.run StorageAction.key (StorageAction.effect checks) store
      (order.values (held.entries.map Prod.snd)) = some t := by
    refine Keyed.exists_run (values_nodup hw) (fun a ha => ?_)
    obtain ⟨k, hk⟩ := mem_values.mp ha
    rw [hw k a hk]
    exact h k a hk
  exact ⟨t, by rw [ht]; rfl⟩

end Flush

/-! ## Batching does not change the index -/

/-- The actions of one block after another, executed one at a time. -/
def executeOneByOne (checks : Bool) (store : Store) (actions : List StorageAction) : Option Store :=
  actions.foldlM (fun s a => (applyActions checks s [a] false).map Prod.fst) store

/-- Batches of blocks: each is merged by a fresh batcher and flushed in its own order. -/
def executeBatches (checks : Bool) (store : Store)
    (batches : List (HashOrder × List (List StorageAction))) : Option Store :=
  batches.foldlM (fun s batch => do
    let b ← batch.2.foldlM (SyncBatcher.pushActions checks) (SyncBatcher.new 0 0)
    let (s, _) ← applyActions checks s (b.getBatchActions batch.1) false
    return s) store

/-- A counter read as a number, absent as 0. -/
def counterValue (w : Nat) : Option Value → Nat
  | some v => Machine.ofBE (v.take w)
  | none => 0

/-- Equal readings, counters being compared as numbers. -/
def SameValue : StorageAction.Family → Option Value → Option Value → Prop
  | .writes, o, o' => o = o'
  | .u64, o, o' => counterValue 8 o = counterValue 8 o'
  | .u128, o, o' => counterValue 16 o = counterValue 16 o'
  | .u128NoDelete, o, o' => counterValue 16 o = counterValue 16 o'

namespace StorageAction

/-- The action does not decrement below 0 or increment out of range. -/
def Fits : StorageAction → Option Value → Prop
  | incrementU64 _ d, o => counterValue 8 o + d.val < 2 ^ 64
  | decrementU64 _ d, o => d.val ≤ counterValue 8 o
  | incrementU128 _ d, o => counterValue 16 o + d.val < 2 ^ 128
  | decrementU128 _ d, o => d.val ≤ counterValue 16 o
  | decrementU128NoDelete _ d, o => d.val ≤ counterValue 16 o
  | _, _ => True

instance : DecidableRel Fits
  | incrementU64 _ d, o => inferInstanceAs (Decidable (counterValue 8 o + d.val < 2 ^ 64))
  | decrementU64 _ d, o => inferInstanceAs (Decidable (d.val ≤ counterValue 8 o))
  | incrementU128 _ d, o => inferInstanceAs (Decidable (counterValue 16 o + d.val < 2 ^ 128))
  | decrementU128 _ d, o => inferInstanceAs (Decidable (d.val ≤ counterValue 16 o))
  | decrementU128NoDelete _ d, o => inferInstanceAs (Decidable (d.val ≤ counterValue 16 o))
  | .set _ _, _ => isTrue trivial
  | .delete _, _ => isTrue trivial
  | .insert _ _, _ => isTrue trivial

/-- What a counter action adds. -/
def delta : StorageAction → Int
  | incrementU64 _ d => d.val
  | decrementU64 _ d => -d.val
  | incrementU128 _ d => d.val
  | decrementU128 _ d => -d.val
  | decrementU128NoDelete _ d => -d.val
  | _ => 0

/-- Width of a family's counters. -/
def Family.width : Family → Nat
  | .writes => 0
  | .u64 => 8
  | .u128 => 16
  | .u128NoDelete => 16

/-! ### Merging within a family -/

section Merge

variable {a b : StorageAction} {f : Family}

/-- Merging writes composes them. -/
theorem merge_writes (checks : Bool) (ha : a.inFamily .writes) (hb : b.inFamily .writes) (hk : a.key = b.key) :
    ∃ c, merge checks a b = some c ∧ c.inFamily .writes ∧
      ∀ o p, a.effect checks o = some p → c.effect checks o = b.effect checks p := by
  cases a <;> cases ha <;> cases b <;> cases hb <;> simp only [key] at hk <;> subst hk <;>
    simp [merge, key, inFamily, effect, isZeroDelta, effectWithInverse]

theorem add_val (checks : Bool) {n : Nat} {p q : Fin n} (h : (p.val : Int) + q.val < n) :
    ∃ r, Machine.add checks p q = some r ∧ (r.val : Int) = p.val + q.val := by
  have hlt : p.val + q.val < n := by omega
  exact ⟨_, Machine.add_of_lt checks hlt, by simp⟩

theorem sub_val {n : Nat} {p q : Fin n} (h : q ≤ p) : ((p - q).val : Int) = p.val - q.val := by
  rw [Fin.coe_sub_iff_le.mpr h]
  have := Fin.le_def.mp h
  omega

/-- Merging counter actions adds their deltas, as long as the sum is in range. -/
theorem merge_counter (checks : Bool) (hf : f ≠ .writes) (ha : a.inFamily f)
    (hb : b.inFamily f) (hk : a.key = b.key) (hlo : -(256 ^ f.width : Int) < a.delta + b.delta)
    (hhi : a.delta + b.delta < 256 ^ f.width) :
    ∃ c, merge checks a b = some c ∧ c.inFamily f ∧ c.delta = a.delta + b.delta := by
  cases f with
  | writes => exact absurd rfl hf
  | _ =>
    cases a <;> cases ha <;> cases b <;> cases hb <;> simp only [key] at hk <;> subst hk <;>
      simp only [Family.width, delta] at hlo hhi <;>
      simp only [merge, key, ne_eq, not_true_eq_false, if_false]
    all_goals first
      | -- the two move the same way
        rename_i k p q
        obtain ⟨r, hr, hv⟩ := add_val checks (p := p) (q := q) (by omega)
        exact ⟨_, by rw [hr, Option.map_some], rfl, by simp only [delta]; omega⟩
      | -- they move opposite ways: the larger one decides
        split
        · rename_i hle
          have := sub_val hle
          exact ⟨_, rfl, rfl, by simp only [delta]; omega⟩
        · rename_i hle
          have := sub_val (le_of_lt (not_le.mp hle))
          exact ⟨_, rfl, rfl, by simp only [delta]; omega⟩

end Merge

/-! ### Executing a counter action -/

/-- A present counter is long enough to be read. -/
def Decodes (w : Nat) (o : Option Value) : Prop := ∀ v, o = some v → w ≤ v.length

theorem counterValue_lt (w : Nat) (o : Option Value) : counterValue w o < 256 ^ w := by
  cases o with
  | none => exact Nat.pos_of_ne_zero (by simp)
  | some v =>
    refine lt_of_lt_of_le (Machine.ofBE_lt _) (Nat.pow_le_pow_right (by omega) ?_)
    rw [List.length_take]
    omega

section Counter

theorem counterValue_writeUInt {w n : Nat} (hn : n = 256 ^ w) (x : Fin n) :
    counterValue w (some (writeUInt w x)) = x.val := by
  rw [counterValue, writeUInt, List.take_of_length_le (by simp), Machine.ofBE_toBE w x.val (hn ▸ x.isLt)]

theorem decodes_writeUInt {w n : Nat} (x : Fin n) : Decodes w (some (writeUInt w x)) := by
  rintro v ⟨⟩
  simp [writeUInt]

variable {w n : Nat} [NeZero n] {checks : Bool} {d : Fin n} {o : Option Value}

/-- The amount read is the counter's value. -/
theorem exists_readUInt (hn : n = 256 ^ w) {v : Value} (hd : Decodes w (some v)) :
    ∃ p, readUInt w n v = some p ∧ p.val = counterValue w (some v) := by
  cases hr : readUInt w n v with
  | none =>
    have := readUInt_eq_none_iff.mp hr
    have := hd v rfl
    omega
  | some p => exact ⟨p, rfl, readUInt_val hn hr⟩

theorem incremented_value (hn : n = 256 ^ w) (hdec : Decodes w o)
    (hfit : counterValue w o + d.val < n) :
    ∃ p, incremented w checks d o = some p ∧ counterValue w p = counterValue w o + d.val ∧
      Decodes w p := by
  cases o with
  | none =>
    refine ⟨_, rfl, ?_, decodes_writeUInt d⟩
    rw [counterValue_writeUInt hn]
    exact (Nat.zero_add _).symm
  | some v =>
    obtain ⟨p, hp, hv⟩ := exists_readUInt hn hdec
    rw [← hv] at hfit ⊢
    refine ⟨some (writeUInt w ⟨p.val + d.val, hfit⟩), ?_, counterValue_writeUInt hn _,
      decodes_writeUInt _⟩
    rw [incremented, hp, Option.bind_some, Machine.add_of_lt checks hfit, Option.map_some]

theorem decremented_value (hn : n = 256 ^ w) (hdec : Decodes w o)
    (hfit : d.val ≤ counterValue w o) :
    ∃ p, decremented w d o = some p ∧ counterValue w p = counterValue w o - d.val ∧
      Decodes w p := by
  cases o with
  | none => exact ⟨none, rfl, by simp [counterValue], by intro v hv; cases hv⟩
  | some v =>
    obtain ⟨p, hp, hv⟩ := exists_readUInt hn hdec
    rw [← hv] at hfit ⊢
    simp only [decremented, hp, Option.map_some, Option.some.injEq, exists_eq_left']
    split
    · rw [counterValue_writeUInt hn, Fin.coe_sub_iff_le.mpr (Fin.le_def.mpr hfit)]
      exact ⟨rfl, decodes_writeUInt _⟩
    · rename_i hlt
      rw [Fin.lt_def] at hlt
      exact ⟨by simp only [counterValue]; omega, by intro v hv; cases hv⟩

theorem decrementedNoDelete_value (hn : n = 256 ^ w) (hdec : Decodes w o)
    (hfit : d.val ≤ counterValue w o) :
    ∃ p, decrementedNoDelete w d o = some p ∧ counterValue w p = counterValue w o - d.val ∧
      Decodes w p := by
  cases o with
  | none => exact ⟨none, rfl, by simp [counterValue], by intro v hv; cases hv⟩
  | some v =>
    obtain ⟨p, hp, hv⟩ := exists_readUInt hn hdec
    rw [← hv] at hfit ⊢
    simp only [decrementedNoDelete, hp, Option.map_some, Option.some.injEq, exists_eq_left']
    rw [if_pos (Fin.le_def.mpr hfit), counterValue_writeUInt hn,
      Fin.coe_sub_iff_le.mpr (Fin.le_def.mpr hfit)]
    exact ⟨rfl, decodes_writeUInt _⟩

end Counter

section Family

variable {checks : Bool} {a : StorageAction} {f : Family} {o : Option Value}

theorem isZeroDelta_iff (hf : f ≠ .writes) (ha : a.inFamily f) : a.isZeroDelta ↔ a.delta = 0 := by
  cases f with
  | writes => exact absurd rfl hf
  | _ =>
    cases a <;> cases ha <;>
      simp only [isZeroDelta, delta, decide_eq_true_eq, Fin.ext_iff, Fin.val_zero] <;> omega

/-- An action fits a reading exactly when the value it leads to is in range. -/
theorem fits_iff (hf : f ≠ .writes) (ha : a.inFamily f) :
    a.Fits o ↔ 0 ≤ (counterValue f.width o : Int) + a.delta ∧
      (counterValue f.width o : Int) + a.delta < 256 ^ f.width := by
  have hlt := counterValue_lt f.width o
  cases f with
  | writes => exact absurd rfl hf
  | _ =>
    cases a <;> cases ha <;> simp only [Fits, delta, Family.width] at hlt ⊢ <;> omega

/-- A non-zero delta only completes on a counter that can be read. -/
theorem decodes_of_effect (hf : f ≠ .writes) (ha : a.inFamily f) (hz : a.isZeroDelta = false)
    {p : Option Value} (h : a.effect checks o = some p) : Decodes f.width o := by
  rintro v rfl
  have hab : ¬ a.aborts checks (some v) := by
    intro hab
    rw [(effect_eq_none_iff checks a (some v)).mpr hab] at h
    cases h
  cases f with
  | writes => exact absurd rfl hf
  | _ =>
    cases a <;> cases ha <;> simp [isZeroDelta] at hz <;> simp [aborts, hz] at hab <;>
      simp only [Family.width] <;> omega

/-- **A counter action that fits moves the value by its delta.** -/
theorem effect_counter (checks : Bool) (hf : f ≠ .writes) (ha : a.inFamily f)
    (hdec : a.isZeroDelta = false → Decodes f.width o) (hfit : a.Fits o) :
    ∃ p, a.effect checks o = some p ∧
      (counterValue f.width p : Int) = counterValue f.width o + a.delta ∧
      (a.isZeroDelta = true → p = o) ∧ (a.isZeroDelta = false → Decodes f.width p) := by
  cases hz : a.isZeroDelta with
  | true =>
    have := (isZeroDelta_iff hf ha).mp hz
    exact ⟨o, effect_of_zeroDelta checks hz o, by omega, fun _ => rfl, fun h => by cases h⟩
  | false =>
    have hd := hdec hz
    rw [effect_of_not_zeroDelta checks hz]
    have hgoal : ∃ p, a.effectWithInverse checks o = some p ∧
        (counterValue f.width p : Int) = counterValue f.width o + a.delta ∧ Decodes f.width p := by
      cases f with
      | writes => exact absurd rfl hf
      | _ =>
        cases a <;> cases ha <;> simp only [Fits, Family.width] at hfit hd ⊢
        all_goals first
          | obtain ⟨p, hp, hv, hpd⟩ := incremented_value (by decide) hd hfit
            exact ⟨p, hp, by simp only [delta]; omega, hpd⟩
          | obtain ⟨p, hp, hv, hpd⟩ := decremented_value (by decide) hd hfit
            exact ⟨p, hp, by simp only [delta]; omega, hpd⟩
          | obtain ⟨p, hp, hv, hpd⟩ := decrementedNoDelete_value (by decide) hd hfit
            exact ⟨p, hp, by simp only [delta]; omega, hpd⟩
    obtain ⟨p, hp, hv, hpd⟩ := hgoal
    exact ⟨p, hp, hv, fun h => (by cases h), fun _ => hpd⟩

end Family

end StorageAction

/-! ### The batched and the one-by-one execution side by side -/

open StorageAction

/-- The counter reads `o` where batches are executed and `o'` where actions are, the batch
having `δ` still to add. -/
structure Tracks (w : Nat) (o o' : Option Value) (δ : Int) : Prop where
  value : (counterValue w o' : Int) = counterValue w o + δ
  decodes : Decodes w o' → Decodes w o
  readable : δ ≠ 0 → Decodes w o

/-- Readings at a key on which the batched execution has nothing pending. -/
def Agree : Family → Option Value → Option Value → Prop
  | .writes, o, o' => o = o'
  | f, o, o' => Tracks f.width o o' 0

/-- `o'` is what the held action is about to make of `o`. -/
def Pending (checks : Bool) (f : Family) (o : Option Value) :
    Option StorageAction → Option Value → Prop
  | none, o' => Agree f o o'
  | some m, o' => m.inFamily f ∧
      (f = .writes → m.effect checks o = some o') ∧ (f ≠ .writes → Tracks f.width o o' m.delta)

theorem agree_of_ne {f : Family} (hf : f ≠ .writes) {o o' : Option Value} :
    Agree f o o' ↔ Tracks f.width o o' 0 := by
  cases f with
  | writes => exact absurd rfl hf
  | _ => exact Iff.rfl

theorem agree_refl (f : Family) (o : Option Value) : Agree f o o := by
  cases f with
  | writes => rfl
  | _ => exact ⟨by omega, id, fun h => absurd rfl h⟩

theorem Agree.sameValue {f : Family} {o o' : Option Value} (h : Agree f o o') : SameValue f o o' := by
  cases f with
  | writes => exact h
  | _ =>
    have hv := h.value
    simp only [Family.width] at hv
    simp only [SameValue]
    omega

section Simulation

variable {checks : Bool} {f : Family} {o o' p' : Option Value} {a : StorageAction}

/-- Executing one action moves the pending delta by the action's. -/
theorem Tracks.step {δ : Int} (h : Tracks f.width o o' δ) (hf : f ≠ .writes) (ha : a.inFamily f)
    (hfit : a.Fits o') (hp : a.effect checks o' = some p') :
    Tracks f.width o p' (δ + a.delta) ∧ -(256 ^ f.width : Int) < δ + a.delta ∧
      δ + a.delta < 256 ^ f.width := by
  obtain ⟨p, hp₁, hval, hzero, hdec⟩ := effect_counter checks hf ha
    (fun hz => decodes_of_effect hf ha hz hp) hfit
  rw [hp] at hp₁
  cases hp₁
  have hv := h.value
  have hlt := counterValue_lt f.width o
  have hlt' := counterValue_lt f.width p'
  have hpow : ((256 ^ f.width : Nat) : Int) = 256 ^ f.width :=
    Int.natCast_pow 256 f.width
  refine ⟨⟨by omega, ?_, ?_⟩, by omega, by omega⟩
  · intro hd
    cases hz : a.isZeroDelta with
    | true => exact h.decodes (hzero hz ▸ hd)
    | false => exact h.decodes (decodes_of_effect hf ha hz hp)
  · intro hne
    cases hz : a.isZeroDelta with
    | true =>
      have := (isZeroDelta_iff hf ha).mp hz
      exact h.readable (by omega)
    | false => exact h.decodes (decodes_of_effect hf ha hz hp)

/-- **One action**: pushing it onto the batch keeps pace with executing it. -/
theorem Pending.push {held : Option StorageAction} (h : Pending checks f o held o')
    (ha : a.inFamily f) (hk : ∀ m, held = some m → m.key = a.key) (hfit : a.Fits o')
    (hp : a.effect checks o' = some p') :
    ∃ c, mergeEffect checks a held = some (some c) ∧ Pending checks f o (some c) p' := by
  by_cases hf : f = .writes
  · subst hf
    cases held with
    | none =>
      refine ⟨a, rfl, ha, fun _ => ?_, fun hf => absurd rfl hf⟩
      rw [show o = o' from h]
      exact hp
    | some m =>
      obtain ⟨c, hc, hcf, heff⟩ := merge_writes checks h.1 ha (hk m rfl)
      refine ⟨c, by simp [mergeEffect, hc], hcf, fun _ => ?_, fun hf => absurd rfl hf⟩
      rw [heff o o' (h.2.1 rfl)]
      exact hp
  · cases held with
    | none =>
      have hstep := (((agree_of_ne hf).mp h).step hf ha hfit hp).1
      rw [zero_add] at hstep
      exact ⟨a, rfl, ha, fun hw => absurd hw hf, fun _ => hstep⟩
    | some m =>
      obtain ⟨hstep, hlo, hhi⟩ := (h.2.2 hf).step hf ha hfit hp
      obtain ⟨c, hc, hcf, hcd⟩ := merge_counter checks hf h.1 ha (hk m rfl) hlo hhi
      exact ⟨c, by simp [mergeEffect, hc], hcf, fun hw => absurd hw hf, fun _ => hcd ▸ hstep⟩

/-- **One flush**: executing the held action catches up. -/
theorem Pending.flush {m : StorageAction} (h : Pending checks f o (some m) o') :
    ∃ p, m.effect checks o = some p ∧ Agree f p o' := by
  by_cases hf : f = .writes
  · subst hf
    exact ⟨o', h.2.1 rfl, rfl⟩
  · have ht := h.2.2 hf
    have hlt := counterValue_lt f.width o'
    have hpow : ((256 ^ f.width : Nat) : Int) = 256 ^ f.width :=
    Int.natCast_pow 256 f.width
    have hv := ht.value
    have hfit : m.Fits o := (fits_iff hf h.1).mpr ⟨by omega, by omega⟩
    obtain ⟨p, hp, hval, hzero, hdec⟩ := effect_counter checks hf h.1 (fun hz => by
      refine ht.readable (fun hd => ?_)
      rw [(isZeroDelta_iff hf h.1).mpr hd] at hz
      cases hz) hfit
    refine ⟨p, hp, (agree_of_ne hf).mpr ⟨by omega, ?_, fun hne => absurd rfl hne⟩⟩
    intro hd
    cases hz : m.isZeroDelta with
    | true => rw [hzero hz]; exact ht.decodes hd
    | false => exact hdec hz

end Simulation

/-- No step of the one-by-one execution takes a counter below 0 or out of range. -/
def StepsFit (checks : Bool) : Store → List StorageAction → Prop
  | _, [] => True
  | store, a :: l => a.Fits (store.get a.key) ∧
      match (applyActions checks store [a] false).map Prod.fst with
      | some store' => StepsFit checks store' l
      | none => True

instance decidableStepsFit (checks : Bool) :
    ∀ (store : Store) (l : List StorageAction), Decidable (StepsFit checks store l)
  | _, [] => isTrue trivial
  | store, a :: l =>
    have : Decidable (match (applyActions checks store [a] false).map Prod.fst with
      | some store' => StepsFit checks store' l
      | none => True) :=
      match (applyActions checks store [a] false).map Prod.fst with
      | some store' => decidableStepsFit checks store' l
      | none => isTrue trivial
    inferInstanceAs (Decidable (_ ∧ _))

theorem StepsFit.tail {checks : Bool} {store store' : Store} {a : StorageAction}
    {l : List StorageAction} (h : StepsFit checks store (a :: l))
    (hs : (applyActions checks store [a] false).map Prod.fst = some store') :
    StepsFit checks store' l := by
  have htail := h.2
  rw [hs] at htail
  exact htail

section Runs

variable {checks : Bool} {fam : Key → Family}

/-- An action executed alone is a keyed step. -/
theorem applyActions_single (store : Store) (a : StorageAction) :
    (applyActions checks store [a] false).map Prod.fst =
      Keyed.step StorageAction.key (StorageAction.effect checks) store a := by
  rw [applyActions_bulk checks (by simp), Option.map_map, Keyed.run_cons]
  cases Keyed.step StorageAction.key (StorageAction.effect checks) store a <;> rfl

/-- **A batch keeps pace**: pushing actions never panics, and the held actions are what the
one-by-one execution of the same actions has already done. -/
theorem pending_run (store : Store) {held : Table Key StorageAction} {l : List StorageAction}
    {store' store'' : Store} (hw : WellKeyed held) (hfam : ∀ a ∈ l, a.inFamily (fam a.key))
    (hpend : ∀ k, Pending checks (fam k) (store.get k) (held.get k) (store'.get k))
    (hfit : StepsFit checks store' l) (hone : executeOneByOne checks store' l = some store'') :
    ∃ held', mergeAll checks held l = some held' ∧
      ∀ k, Pending checks (fam k) (store.get k) (held'.get k) (store''.get k) := by
  induction l generalizing held store' with
  | nil =>
    cases hone
    exact ⟨held, rfl, hpend⟩
  | cons a l ih =>
    simp only [executeOneByOne, List.foldlM_cons, applyActions_single] at hone
    cases hs : Keyed.step StorageAction.key (StorageAction.effect checks) store' a with
    | none => rw [hs] at hone; cases hone
    | some mid =>
      simp only [hs, Option.bind_eq_bind, Option.bind_some] at hone
      have hfit' : StepsFit checks mid l := hfit.tail (by rw [applyActions_single, hs])
      obtain ⟨o, ho, rfl⟩ := Keyed.step_eq_some hs
      obtain ⟨c, hc, hpc⟩ := (hpend a.key).push (hfam a List.mem_cons_self)
        (fun m hm => hw _ _ hm) hfit.1 ho
      have hstep : mergeAll checks held [a] = some (held.assign a.key (some c)) := by
        simp only [mergeAll, Keyed.run_cons, Keyed.step, hc]
        rfl
      have hsplit : mergeAll checks held (a :: l) =
          mergeAll checks (held.assign a.key (some c)) l := by
        rw [show a :: l = [a] ++ l from rfl, mergeAll_append, hstep]
        rfl
      rw [hsplit]
      refine ih (mergeAll_wellKeyed hw hstep) (fun b hb => hfam b (List.mem_cons_of_mem _ hb))
        (fun k => ?_) hfit' (by simpa only [executeOneByOne, applyActions_single] using hone)
      rw [Table.get_assign, Table.get_assign]
      split
      · rename_i hk
        rw [hk]
        exact hpc
      · exact hpend k

/-- Pushing the blocks of a batch merges all their actions in order. -/
theorem foldlM_pushActions (b : SyncBatcher) (blocks : List (List StorageAction)) :
    (blocks.foldlM (SyncBatcher.pushActions checks) b).map SyncBatcher.batchActions =
      mergeAll checks b.batchActions blocks.flatten := by
  induction blocks generalizing b with
  | nil => rfl
  | cons block blocks ih =>
    rw [List.foldlM_cons, SyncBatcher.pushActions_eq_run, List.flatten_cons, mergeAll_append]
    cases mergeAll checks b.batchActions block with
    | none => rfl
    | some held => exact ih _

theorem executeOneByOne_append (store : Store) (l₁ l₂ : List StorageAction) :
    executeOneByOne checks store (l₁ ++ l₂) =
      (executeOneByOne checks store l₁).bind (fun s => executeOneByOne checks s l₂) := by
  simp [executeOneByOne, List.foldlM_append]

theorem StepsFit.append {store : Store} {l₁ l₂ : List StorageAction}
    (h : StepsFit checks store (l₁ ++ l₂)) :
    StepsFit checks store l₁ ∧
      ∀ s, executeOneByOne checks store l₁ = some s → StepsFit checks s l₂ := by
  induction l₁ generalizing store with
  | nil =>
    refine ⟨trivial, ?_⟩
    rintro s ⟨⟩
    exact h
  | cons a l ih =>
    cases hm : (applyActions checks store [a] false).map Prod.fst with
    | none =>
      refine ⟨⟨h.1, by rw [hm]; trivial⟩, ?_⟩
      intro s hs
      simp only [executeOneByOne, List.foldlM_cons, hm] at hs
      cases hs
    | some mid =>
      refine ⟨⟨h.1, by rw [hm]; exact (ih (h.tail hm)).1⟩, ?_⟩
      intro s hs
      simp only [executeOneByOne, List.foldlM_cons, hm] at hs
      exact (ih (h.tail hm)).2 s hs

/-- All actions of a list of batches, in order. -/
def allActions (batches : List (HashOrder × List (List StorageAction))) : List StorageAction :=
  (batches.map (fun batch => batch.2.flatten)).flatten

/-- Batched and one-by-one execution stay in agreement. -/
theorem executeBatches_agree (store : Store) {store' store₁ : Store}
    {batches : List (HashOrder × List (List StorageAction))}
    (hfam : ∀ a ∈ allActions batches, a.inFamily (fam a.key))
    (hagree : ∀ k, Agree (fam k) (store.get k) (store'.get k))
    (hfit : StepsFit checks store' (allActions batches))
    (hone : executeOneByOne checks store' (allActions batches) = some store₁) :
    ∃ store₂, executeBatches checks store batches = some store₂ ∧
      ∀ k, Agree (fam k) (store₂.get k) (store₁.get k) := by
  induction batches generalizing store store' with
  | nil =>
    cases hone
    exact ⟨store, rfl, hagree⟩
  | cons batch batches ih =>
    have hall : allActions (batch :: batches) = batch.2.flatten ++ allActions batches := by
      simp [allActions]
    rw [hall] at hfam hfit hone
    rw [executeOneByOne_append] at hone
    cases hmid : executeOneByOne checks store' batch.2.flatten with
    | none => rw [hmid] at hone; cases hone
    | some mid =>
      rw [hmid, Option.bind_some] at hone
      -- the batch: merge, then flush in its own order
      obtain ⟨held, hheld, hpend⟩ := pending_run store wellKeyed_empty
        (fun a ha => hfam a (List.mem_append_left _ ha)) hagree hfit.append.1 hmid
      have hw := mergeAll_wellKeyed wellKeyed_empty hheld
      obtain ⟨b, hb, hbheld⟩ := Option.map_eq_some_iff.mp
        ((foldlM_pushActions (SyncBatcher.new 0 0) batch.2).trans hheld)
      obtain ⟨flushed, hflush⟩ := exists_flush checks store batch.1 hw (fun k a ha => by
          have hk := hpend k
          rw [ha] at hk
          obtain ⟨p, hp, -⟩ := hk.flush
          exact ⟨p, hp⟩)
      have hget := flush_get hw hflush
      obtain ⟨store₂, hrest, hagree₂⟩ := ih flushed
        (fun a ha => hfam a (List.mem_append_right _ ha)) (fun k => by
          have hk := hpend k
          have hg := hget k
          cases ha : held.get k with
          | none =>
            rw [ha] at hk hg
            rw [hg]
            exact hk
          | some m =>
            rw [ha] at hk
            obtain ⟨p, hp, hagr⟩ := hk.flush
            simp only [ha, hp] at hg
            rw [← Option.some.inj hg]
            exact hagr) (hfit.append.2 mid hmid) hone
      refine ⟨store₂, ?_, hagree₂⟩
      simp only [executeBatches, List.foldlM_cons, hb, Option.bind_eq_bind, Option.bind_some,
        SyncBatcher.getBatchActions, hbheld, hflush]
      exact hrest

/-- **Batching does not change the index.**  When the actions of each key are of one family and
no step takes a counter below 0 or out of range, then for every cut into batches and every
order of execution within a batch, merging and executing complete without a panic and leave
at every key the value that executing the actions one by one leaves. -/
theorem batched_eq_oneByOne (checks : Bool) (store store₁ : Store) (fam : Key → Family)
    (batches : List (HashOrder × List (List StorageAction)))
    (hfam : ∀ a ∈ allActions batches, a.inFamily (fam a.key))
    (hfit : StepsFit checks store (allActions batches))
    (hone : executeOneByOne checks store (allActions batches) = some store₁) :
    ∃ store₂, executeBatches checks store batches = some store₂ ∧
      ∀ k, SameValue (fam k) (store₂.get k) (store₁.get k) := by
  obtain ⟨store₂, hrun, hagree⟩ := executeBatches_agree store hfam
    (fun k => agree_refl (fam k) _) hfit hone
  exact ⟨store₂, hrun, fun k => (hagree k).sameValue⟩

/-- Two batches over a counter and a written key. -/
def sampleBatches : List (HashOrder × List (List StorageAction)) :=
  [(.listed, [[incrementU64 [1] 5, .set [2] [9]], [decrementU64 [1] 2, .insert [2] [7]]]),
    (.listed, [[decrementU64 [1] 3]])]

/-- The counter comes back to zero, and the key that is written keeps its first value. -/
theorem batched_eq_oneByOne_sample :
    executeOneByOne true Table.empty (allActions sampleBatches) =
        some (Table.empty.insert [2] [9]) ∧
      ∃ store₂, executeBatches true Table.empty sampleBatches = some store₂ ∧
        ∀ k, SameValue (if k = [1] then .u64 else .writes) (store₂.get k)
          ((Table.empty.insert [2] [9] : Store).get k) :=
  ⟨by decide, batched_eq_oneByOne true Table.empty _ (fun k => if k = [1] then .u64 else .writes)
    sampleBatches (by decide) (by decide) (by decide)⟩

end Runs

end DogeIndexer.Polyphony
