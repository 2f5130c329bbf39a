import DogeIndexer.Polyphony.Action

/-!
# Executing storage actions in a transaction

Model of `execute_storage_op_in_txn`, `execute_storage_op_in_txn_with_inverse`,
`batch_get_required_kvs_for_batch` and `apply_actions` of `polyphony-xdg/src/storage/tikv.rs`.
A transaction is the view it reads and writes together with the map of previous values that
was read in advance; a panic is `none`, and then nothing is committed.

* `applyActions_bulk`, `applyActions_mutable` — on distinct keys both executions are keyed
  runs, of `effect` and of `effectWithInverse`, and the inverses are those of the readings before.
* `mutable_agrees_bulk_iff` — exactly when the two executions agree.
-/

set_option autoImplicit false

namespace DogeIndexer.Polyphony

abbrev Store := Table Key Value

/-- A database transaction, with the values fetched for it. -/
structure Txn where
  view : Store
  kvMap : Table Key Value

namespace Txn

def put (t : Txn) (k : Key) (v : Value) : Txn := { t with view := t.view.insert k v }
def delete (t : Txn) (k : Key) : Txn := { t with view := t.view.erase k }
/-- `kv_map.remove`. -/
def removeKv (t : Txn) (k : Key) : Txn := { t with kvMap := t.kvMap.erase k }

/-- The `IncrementU64`/`IncrementU128` arm: `w` bytes hold a value below `n`. -/
def increment (w : Nat) {n : Nat} [NeZero n] (checks : Bool) (t : Txn) (k : Key) (d : Fin n) :
    Option Txn :=
  match t.kvMap.get k with
  | some prevValue => do
    let prevAmount ← readUInt w n prevValue
    let newValue ← Machine.add checks prevAmount d
    return (t.removeKv k).put k (writeUInt w newValue)
  | none => some (t.put k (writeUInt w d))

/-- The `DecrementU64`/`DecrementU128` arm: a zero or negative result deletes the key. -/
def decrement (w : Nat) {n : Nat} [NeZero n] (t : Txn) (k : Key) (d : Fin n) : Option Txn :=
  match t.kvMap.get k with
  | some prevValue =>
    (readUInt w n prevValue).map fun prevAmount =>
      match Machine.checkedSub prevAmount d with
      | some v =>
        if v = 0 then (t.removeKv k).delete k else (t.removeKv k).put k (writeUInt w v)
      | none => (t.removeKv k).delete k
  | none => some t

/-- The `DecrementU128NoDelete` arm: a negative result is stored as 0. -/
def decrementNoDelete (w : Nat) {n : Nat} [NeZero n] (t : Txn) (k : Key) (d : Fin n) :
    Option Txn :=
  match t.kvMap.get k with
  | some prevValue =>
    (readUInt w n prevValue).map fun prevAmount =>
      match Machine.checkedSub prevAmount d with
      | some v => (t.removeKv k).put k (writeUInt w v)
      | none => (t.removeKv k).put k (writeUInt w (0 : Fin n))
  | none => some t

/-- `Some(StorageAction::Set(k, prev_value))`, or `absent` when there was no value. -/
def undo (t : Txn) (k : Key) (absent : Option StorageAction) : Option StorageAction :=
  match t.kvMap.get k with
  | some prevValue => some (.set k prevValue)
  | none => absent

end Txn

/-- `execute_storage_op_in_txn`. -/
def executeStorageOpInTxn (checks : Bool) (t : Txn) : StorageAction → Option Txn
  | .set k v => some (t.put k v)
  | .delete k => some (t.delete k)
  | .insert k v =>
    match t.kvMap.get k with
    | some _ => some (t.removeKv k)
    | none => some (t.put k v)
  | .incrementU64 k d => if d = 0 then some t else t.increment 8 checks k d
  | .decrementU64 k d => if d = 0 then some t else t.decrement 8 k d
  | .incrementU128 k d => if d = 0 then some t else t.increment 16 checks k d
  | .decrementU128 k d => if d = 0 then some t else t.decrement 16 k d
  | .decrementU128NoDelete k d => if d = 0 then some t else t.decrementNoDelete 16 k d

/-- `execute_storage_op_in_txn_with_inverse`: also the action that reverts this one. -/
def executeStorageOpInTxnWithInverse (checks : Bool) (t : Txn) :
    StorageAction → Option (Txn × Option StorageAction)
  | .set k v =>
    match t.kvMap.get k with
    | some prevValue =>
      if prevValue = v then some (t.removeKv k, none)
      else some ((t.removeKv k).put k v, some (.set k prevValue))
    | none => some (t.put k v, some (.delete k))
  | .delete k =>
    match t.kvMap.get k with
    | some prevValue => some ((t.removeKv k).delete k, some (.set k prevValue))
    | none => some (t, none)
  | .insert k v =>
    match t.kvMap.get k with
    | some _ => some (t.removeKv k, none)
    | none => some (t.put k v, some (.delete k))
  | .incrementU64 k d => (t.increment 8 checks k d).map (·, t.undo k (some (.delete k)))
  | .decrementU64 k d => (t.decrement 8 k d).map (·, t.undo k none)
  | .incrementU128 k d => (t.increment 16 checks k d).map (·, t.undo k (some (.delete k)))
  | .decrementU128 k d => (t.decrement 16 k d).map (·, t.undo k none)
  | .decrementU128NoDelete k d => (t.decrementNoDelete 16 k d).map (·, t.undo k none)

/-- `batch_get_required_kvs_for_batch`: the stored values of the keys the batch needs. -/
def batchGetRequiredKvsForBatch (view : Store) (actions : List StorageAction)
    (needInverses : Bool) : Table Key Value :=
  let requiredKeys := (if needInverses then actions
    else actions.filter StorageAction.requiresPreviousValue).map StorageAction.key
  requiredKeys.foldl (fun acc k => acc.assign k (view.get k)) Table.empty

/-- The loop of `apply_actions` that collects inverses. -/
def executeAllWithInverse (checks : Bool) (s : Txn × List StorageAction)
    (l : List StorageAction) : Option (Txn × List StorageAction) :=
  l.foldlM (fun (t, inverses) action => do
    let (t, inverse) ← executeStorageOpInTxnWithInverse checks t action
    return (t, inverses ++ inverse.toList)) s

/-- `apply_actions`, in a transaction begun on `store`: the store to commit and, when asked
for, the inverses in the order of the actions. -/
def applyActions (checks : Bool) (store : Store) (actions : List StorageAction)
    (returnInverses : Bool) : Option (Store × Option (List StorageAction)) :=
  let t : Txn := ⟨store, batchGetRequiredKvsForBatch store actions returnInverses⟩
  if returnInverses then do
    let (t, inverses) ← executeAllWithInverse checks (t, []) actions
    return (t.view, some inverses)
  else do
    let t ← actions.foldlM (executeStorageOpInTxn checks) t
    return (t.view, none)

/-! ## What an action does to the reading at its key -/

namespace StorageAction

/-- Reading after `d` is added. -/
def incremented (w : Nat) {n : Nat} [NeZero n] (checks : Bool) (d : Fin n) :
    Option Value → Option (Option Value)
  | some prevValue => (readUInt w n prevValue).bind fun prevAmount =>
      (Machine.add checks prevAmount d).map fun v => some (writeUInt w v)
  | none => some (some (writeUInt w d))

/-- Reading after `d` is taken off, an exhausted counter being deleted. -/
def decremented (w : Nat) {n : Nat} [NeZero n] (d : Fin n) :
    Option Value → Option (Option Value)
  | some prevValue => (readUInt w n prevValue).map fun prevAmount =>
      if d < prevAmount then some (writeUInt w (prevAmount - d)) else none
  | none => some none

/-- Reading after `d` is taken off, an exhausted counter being kept at 0. -/
def decrementedNoDelete (w : Nat) {n : Nat} [NeZero n] (d : Fin n) :
    Option Value → Option (Option Value)
  | some prevValue => (readUInt w n prevValue).map fun prevAmount =>
      if d ≤ prevAmount then some (writeUInt w (prevAmount - d)) else some (writeUInt w (0 : Fin n))
  | none => some none

/-- The mutable execution, seen from the action's key. -/
def effectWithInverse (checks : Bool) : StorageAction → Option Value → Option (Option Value)
  | set _ v, _ => some (some v)
  | delete _, _ => some none
  | insert _ v, o => some (some (o.getD v))
  | incrementU64 _ d, o => incremented 8 checks d o
  | decrementU64 _ d, o => decremented 8 d o
  | incrementU128 _ d, o => incremented 16 checks d o
  | decrementU128 _ d, o => decremented 16 d o
  | decrementU128NoDelete _ d, o => decrementedNoDelete 16 d o

/-- A counter action that moves nothing. -/
def isZeroDelta : StorageAction → Bool
  | incrementU64 _ d => d = 0
  | decrementU64 _ d => d = 0
  | incrementU128 _ d => d = 0
  | decrementU128 _ d => d = 0
  | decrementU128NoDelete _ d => d = 0
  | _ => false

/-- The bulk execution, seen from the action's key: zero deltas are skipped. -/
def effect (checks : Bool) (a : StorageAction) (o : Option Value) : Option (Option Value) :=
  if a.isZeroDelta then some o else a.effectWithInverse checks o

/-- The inverse recorded for an action that met the reading `o`. -/
def inverseAt : StorageAction → Option Value → Option StorageAction
  | set k v, some prevValue => if prevValue = v then none else some (set k prevValue)
  | set k _, none => some (delete k)
  | insert _ _, some _ => none
  | insert k _, none => some (delete k)
  | incrementU64 k _, none => some (delete k)
  | incrementU128 k _, none => some (delete k)
  | a, some prevValue => some (set a.key prevValue)
  | _, none => none

end StorageAction

namespace Txn

/-- The outcome `res` of an arm is that of the reading `r` at `k`: an abort of one is an abort
of the other, and otherwise only `k` was written and only `k` was taken from the map. -/
def Acts (t : Txn) (k : Key) (r : Option (Option Value)) (res : Option Txn) : Prop :=
  match r, res with
  | none, none => True
  | some o, some t' => t'.view = t.view.assign k o ∧ ∀ k' ≠ k, t'.kvMap.get k' = t.kvMap.get k'
  | _, _ => False

variable {t : Txn} {k : Key} {w n : Nat} [NeZero n] {checks : Bool} {d : Fin n}

theorem removeKv_frame (t : Txn) (k : Key) : ∀ k' ≠ k, (t.removeKv k).kvMap.get k' = t.kvMap.get k' := by
  intro k' hk'
  simp [removeKv, hk']

theorem increment_acts (h : t.kvMap.get k = t.view.get k) :
    t.Acts k (StorageAction.incremented w checks d (t.view.get k)) (t.increment w checks k d) := by
  unfold increment StorageAction.incremented
  rw [h]
  cases hv : t.view.get k with
  | none => exact ⟨rfl, fun _ _ => rfl⟩
  | some prevValue =>
    cases hr : readUInt w n prevValue with
    | none => simp [Acts, hr]
    | some prevAmount =>
      cases ha : Machine.add checks prevAmount d with
      | none => simp [Acts, hr, ha]
      | some v =>
        simp only [hr, ha, Option.bind_eq_bind, Option.bind_some, Option.map_some]
        exact ⟨rfl, removeKv_frame t k⟩

theorem decrement_acts (h : t.kvMap.get k = t.view.get k) :
    t.Acts k (StorageAction.decremented w d (t.view.get k)) (t.decrement w k d) := by
  unfold decrement StorageAction.decremented
  rw [h]
  cases hv : t.view.get k with
  | none =>
    refine ⟨?_, fun _ _ => rfl⟩
    rw [← hv, Table.assign_get]
  | some prevValue =>
    cases hr : readUInt w n prevValue with
    | none => simp [Acts, hr]
    | some prevAmount =>
      simp only [hr, Option.map_some, Machine.checkedSub]
      by_cases hd : d ≤ prevAmount
      · rw [if_pos hd]
        by_cases hz : prevAmount - d = 0
        · have hval : (prevAmount - d).val = prevAmount.val - d.val := Fin.coe_sub_iff_le.mpr hd
          have hnot : ¬ d < prevAmount := by
            rw [hz, Fin.val_zero] at hval
            rw [Fin.lt_def]
            omega
          simp only [if_pos hz, if_neg hnot]
          exact ⟨rfl, removeKv_frame t k⟩
        · have hlt : d < prevAmount := lt_of_le_of_ne hd (fun he => hz (by simp [he]))
          simp only [if_neg hz, if_pos hlt]
          exact ⟨rfl, removeKv_frame t k⟩
      · rw [if_neg hd, if_neg (fun hlt => hd (le_of_lt hlt))]
        exact ⟨rfl, removeKv_frame t k⟩

theorem decrementNoDelete_acts (h : t.kvMap.get k = t.view.get k) :
    t.Acts k (StorageAction.decrementedNoDelete w d (t.view.get k)) (t.decrementNoDelete w k d) := by
  unfold decrementNoDelete StorageAction.decrementedNoDelete
  rw [h]
  cases hv : t.view.get k with
  | none =>
    refine ⟨?_, fun _ _ => rfl⟩
    rw [← hv, Table.assign_get]
  | some prevValue =>
    cases hr : readUInt w n prevValue with
    | none => simp [Acts, hr]
    | some prevAmount =>
      simp only [hr, Option.map_some, Machine.checkedSub]
      by_cases hd : d ≤ prevAmount
      · simp only [if_pos hd]
        exact ⟨rfl, removeKv_frame t k⟩
      · simp only [if_neg hd]
        exact ⟨rfl, removeKv_frame t k⟩

/-- A skipped action. -/
theorem acts_self (t : Txn) (k : Key) : t.Acts k (some (t.view.get k)) (some t) :=
  ⟨(Table.assign_get t.view k).symm, fun _ _ => rfl⟩

end Txn

/-! ## Both executions as keyed runs -/

section Runs

variable (checks : Bool) {t : Txn} {a : StorageAction}

/-- One bulk action. -/
theorem execute_acts (h : a.requiresPreviousValue → t.kvMap.get a.key = t.view.get a.key) :
    t.Acts a.key (a.effect checks (t.view.get a.key)) (executeStorageOpInTxn checks t a) := by
  cases a with
  | set k v => exact ⟨rfl, fun _ _ => rfl⟩
  | delete k => exact ⟨rfl, fun _ _ => rfl⟩
  | insert k v =>
    have hk := h rfl
    simp only [StorageAction.key] at hk
    simp only [executeStorageOpInTxn, StorageAction.effect, StorageAction.isZeroDelta,
      StorageAction.effectWithInverse, StorageAction.key, hk]
    cases hv : t.view.get k with
    | none => exact ⟨rfl, fun _ _ => rfl⟩
    | some x =>
      refine ⟨?_, Txn.removeKv_frame t k⟩
      rw [Option.getD_some, ← hv, Table.assign_get]
      rfl
  | incrementU64 k d =>
    simp only [executeStorageOpInTxn, StorageAction.effect, StorageAction.isZeroDelta,
      decide_eq_true_eq]
    split
    · exact t.acts_self k
    · exact Txn.increment_acts (h rfl)
  | decrementU64 k d =>
    simp only [executeStorageOpInTxn, StorageAction.effect, StorageAction.isZeroDelta,
      decide_eq_true_eq]
    split
    · exact t.acts_self k
    · exact Txn.decrement_acts (h rfl)
  | incrementU128 k d =>
    simp only [executeStorageOpInTxn, StorageAction.effect, StorageAction.isZeroDelta,
      decide_eq_true_eq]
    split
    · exact t.acts_self k
    · exact Txn.increment_acts (h rfl)
  | decrementU128 k d =>
    simp only [executeStorageOpInTxn, StorageAction.effect, StorageAction.isZeroDelta,
      decide_eq_true_eq]
    split
    · exact t.acts_self k
    · exact Txn.decrement_acts (h rfl)
  | decrementU128NoDelete k d =>
    simp only [executeStorageOpInTxn, StorageAction.effect, StorageAction.isZeroDelta,
      decide_eq_true_eq]
    split
    · exact t.acts_self k
    · exact Txn.decrementNoDelete_acts (h rfl)

/-- The state half of a mutable counter arm is the arm itself. -/
theorem map_fst_map (o : Option Txn) (i : Option StorageAction) :
    (o.map (fun t' => (t', i))).map Prod.fst = o := by
  cases o <;> rfl

/-- One mutable action. -/
theorem executeWithInverse_acts (h : t.kvMap.get a.key = t.view.get a.key) :
    t.Acts a.key (a.effectWithInverse checks (t.view.get a.key))
      ((executeStorageOpInTxnWithInverse checks t a).map Prod.fst) := by
  cases a with
  | set k v =>
    simp only [StorageAction.key] at h
    simp only [executeStorageOpInTxnWithInverse, StorageAction.key, h]
    cases hv : t.view.get k with
    | none => exact ⟨rfl, fun _ _ => rfl⟩
    | some prevValue =>
      simp only
      split
      · rename_i hpv
        refine ⟨?_, Txn.removeKv_frame t k⟩
        rw [← hpv, ← hv, Table.assign_get]
        rfl
      · exact ⟨rfl, Txn.removeKv_frame t k⟩
  | delete k =>
    simp only [StorageAction.key] at h
    simp only [executeStorageOpInTxnWithInverse, StorageAction.key, h]
    cases hv : t.view.get k with
    | none =>
      refine ⟨?_, fun _ _ => rfl⟩
      rw [← hv, Table.assign_get]
    | some prevValue => exact ⟨rfl, Txn.removeKv_frame t k⟩
  | insert k v =>
    simp only [StorageAction.key] at h
    simp only [executeStorageOpInTxnWithInverse, StorageAction.effectWithInverse,
      StorageAction.key, h]
    cases hv : t.view.get k with
    | none => exact ⟨rfl, fun _ _ => rfl⟩
    | some x =>
      refine ⟨?_, Txn.removeKv_frame t k⟩
      rw [Option.getD_some, ← hv, Table.assign_get]
      rfl
  | incrementU64 k d =>
    simp only [executeStorageOpInTxnWithInverse, map_fst_map]
    exact Txn.increment_acts h
  | decrementU64 k d =>
    simp only [executeStorageOpInTxnWithInverse, map_fst_map]
    exact Txn.decrement_acts h
  | incrementU128 k d =>
    simp only [executeStorageOpInTxnWithInverse, map_fst_map]
    exact Txn.increment_acts h
  | decrementU128 k d =>
    simp only [executeStorageOpInTxnWithInverse, map_fst_map]
    exact Txn.decrement_acts h
  | decrementU128NoDelete k d =>
    simp only [executeStorageOpInTxnWithInverse, map_fst_map]
    exact Txn.decrementNoDelete_acts h

/-- The inverse returned is the one of the reading in the map. -/
theorem executeWithInverse_inverse {t' : Txn} {inverse : Option StorageAction}
    (h : executeStorageOpInTxnWithInverse checks t a = some (t', inverse)) :
    inverse = a.inverseAt (t.kvMap.get a.key) := by
  cases a with
  | set k v =>
    simp only [executeStorageOpInTxnWithInverse, StorageAction.key] at h ⊢
    cases hv : t.kvMap.get k with
    | none => rw [hv] at h; cases h; rfl
    | some prevValue =>
      rw [hv] at h
      simp only [StorageAction.inverseAt] at h ⊢
      split at h <;> rename_i hp <;> cases h <;> simp [hp]
  | delete k =>
    simp only [executeStorageOpInTxnWithInverse, StorageAction.key] at h ⊢
    cases hv : t.kvMap.get k <;> rw [hv] at h <;> cases h <;> rfl
  | insert k v =>
    simp only [executeStorageOpInTxnWithInverse, StorageAction.key] at h ⊢
    cases hv : t.kvMap.get k <;> rw [hv] at h <;> cases h <;> rfl
  | _ =>
    obtain ⟨_, _, heq⟩ := Option.map_eq_some_iff.mp h
    rw [← (Prod.mk.inj heq).2, Txn.undo]
    simp only [StorageAction.key]
    split <;> rename_i hv <;> rw [hv] <;> rfl

/-- What `Acts` says of a completed arm, as a keyed step. -/
theorem Txn.Acts.step {effect : StorageAction → Option Value → Option (Option Value)}
    {res : Option Txn} (h : t.Acts a.key (effect a (t.view.get a.key)) res) :
    res.map Txn.view = Keyed.step StorageAction.key effect t.view a ∧
      ∀ t', res = some t' → ∀ k' ≠ a.key, t'.kvMap.get k' = t.kvMap.get k' := by
  unfold Txn.Acts at h
  unfold Keyed.step
  cases hr : effect a (t.view.get a.key) with
  | none =>
    rw [hr] at h
    cases res with
    | none => exact ⟨rfl, fun _ ht => by cases ht⟩
    | some t' => exact absurd h id
  | some o =>
    rw [hr] at h
    cases res with
    | none => exact absurd h id
    | some t' =>
      refine ⟨by simp [h.1], ?_⟩
      rintro t'' ⟨⟩
      exact h.2

/-- **A bulk execution of distinct keys is a keyed run.** -/
theorem foldlM_execute_view {l : List StorageAction} (hn : (l.map StorageAction.key).Nodup)
    (h : ∀ a ∈ l, a.requiresPreviousValue → t.kvMap.get a.key = t.view.get a.key) :
    (l.foldlM (executeStorageOpInTxn checks) t).map Txn.view =
      Keyed.run StorageAction.key (StorageAction.effect checks) t.view l := by
  induction l generalizing t with
  | nil => rfl
  | cons a l ih =>
    simp only [List.map_cons, List.nodup_cons] at hn
    obtain ⟨hview, hframe⟩ := (execute_acts checks (h a List.mem_cons_self)).step
    rw [Keyed.run_cons, ← hview, List.foldlM_cons]
    cases he : executeStorageOpInTxn checks t a with
    | none => rfl
    | some t' =>
      rw [he, Option.map_some] at hview
      refine ih hn.2 (fun b hb hp => ?_)
      have hne : b.key ≠ a.key := fun hk => hn.1 (hk ▸ List.mem_map.mpr ⟨b, hb, rfl⟩)
      obtain ⟨o, -, ho⟩ := Keyed.step_eq_some hview.symm
      rw [hframe t' he _ hne, ho, Table.get_assign, if_neg hne]
      exact h b (List.mem_cons_of_mem _ hb) hp

/-- **A mutable execution of distinct keys is a keyed run**, and its inverses are those of the
readings it started from. -/
theorem executeAllWithInverse_view {l : List StorageAction} (inverses : List StorageAction)
    (hn : (l.map StorageAction.key).Nodup)
    (h : ∀ a ∈ l, t.kvMap.get a.key = t.view.get a.key) :
    (executeAllWithInverse checks (t, inverses) l).map (fun r => (r.1.view, r.2)) =
      (Keyed.run StorageAction.key (StorageAction.effectWithInverse checks) t.view l).map
        (fun view => (view, inverses ++ l.filterMap (fun a => a.inverseAt (t.view.get a.key)))) := by
  induction l generalizing t inverses with
  | nil => simp [executeAllWithInverse, Keyed.run]
  | cons a l ih =>
    simp only [List.map_cons, List.nodup_cons] at hn
    have ha := h a List.mem_cons_self
    obtain ⟨hview, hframe⟩ := (executeWithInverse_acts checks ha).step
    rw [Keyed.run_cons, ← hview]
    simp only [executeAllWithInverse, List.foldlM_cons, Option.bind_eq_bind]
    cases he : executeStorageOpInTxnWithInverse checks t a with
    | none => rfl
    | some r =>
      obtain ⟨t', inverse⟩ := r
      rw [he, Option.map_some] at hview hframe
      have hinv := executeWithInverse_inverse checks he
      obtain ⟨o, -, ho⟩ := Keyed.step_eq_some hview.symm
      have hne : ∀ b ∈ l, b.key ≠ a.key :=
        fun b hb hk => hn.1 (hk ▸ List.mem_map.mpr ⟨b, hb, rfl⟩)
      have hkeep : ∀ b ∈ l, t'.view.get b.key = t.view.get b.key := by
        intro b hb
        rw [ho, Table.get_assign, if_neg (hne b hb)]
      simp only [Option.bind_some, Option.map_some, pure]
      have hrun := ih (t := t') (inverses ++ inverse.toList) hn.2 (fun b hb => by
        rw [hframe t' rfl _ (hne b hb), hkeep b hb]
        exact h b (List.mem_cons_of_mem _ hb))
      have hlist : l.filterMap (fun b => b.inverseAt (t'.view.get b.key)) =
          l.filterMap (fun b => b.inverseAt (t.view.get b.key)) :=
        List.filterMap_congr (fun b hb => by rw [hkeep b hb])
      rw [hlist] at hrun
      refine hrun.trans ?_
      congr 1
      funext view
      rw [hinv, ha, List.filterMap_cons]
      cases a.inverseAt (t.view.get a.key) <;> simp

/-- The batch read gives each required key its stored value. -/
theorem batchGet_get (view : Store) (actions : List StorageAction) (needInverses : Bool)
    (a : StorageAction) (ha : a ∈ actions) (hneed : needInverses ∨ a.requiresPreviousValue) :
    (batchGetRequiredKvsForBatch view actions needInverses).get a.key = view.get a.key := by
  have hfold : ∀ (ks : List Key) (acc : Table Key Value) (k : Key),
      (k ∈ ks ∨ acc.get k = view.get k) →
        (ks.foldl (fun acc k => acc.assign k (view.get k)) acc).get k = view.get k := by
    intro ks
    induction ks with
    | nil => intro acc k h; simpa using h
    | cons k₀ ks ih =>
      intro acc k h
      refine ih _ k ?_
      rw [Table.get_assign]
      rcases h with h | h
      · rcases List.mem_cons.mp h with rfl | h
        · exact Or.inr (by simp)
        · exact Or.inl h
      · refine Or.inr ?_
        split
        · rename_i hk; rw [hk]
        · exact h
  refine hfold _ _ _ (Or.inl ?_)
  refine List.mem_map.mpr ⟨a, ?_, rfl⟩
  cases needInverses with
  | true => simpa using ha
  | false =>
    simp only [Bool.false_eq_true, false_or] at hneed
    simpa using ⟨ha, hneed⟩

/-- **Bulk `apply_actions`** on distinct keys. -/
theorem applyActions_bulk {store : Store} {l : List StorageAction}
    (hn : (l.map StorageAction.key).Nodup) :
    applyActions checks store l false =
      (Keyed.run StorageAction.key (StorageAction.effect checks) store l).map (·, none) := by
  have hrun := foldlM_execute_view checks
    (t := ⟨store, batchGetRequiredKvsForBatch store l false⟩) hn
    (fun a ha hp => batchGet_get store l false a ha (Or.inr hp))
  simp only [applyActions, Bool.false_eq_true, if_false, Option.bind_eq_bind]
  rw [← hrun]
  cases l.foldlM (executeStorageOpInTxn checks)
    (⟨store, batchGetRequiredKvsForBatch store l false⟩ : Txn) <;> rfl

/-- **Mutable `apply_actions`** on distinct keys: the store and the inverses. -/
theorem applyActions_mutable {store : Store} {l : List StorageAction}
    (hn : (l.map StorageAction.key).Nodup) :
    applyActions checks store l true =
      (Keyed.run StorageAction.key (StorageAction.effectWithInverse checks) store l).map
        (fun view => (view, some (l.filterMap (fun a => a.inverseAt (store.get a.key))))) := by
  have hrun := executeAllWithInverse_view checks []
    (t := ⟨store, batchGetRequiredKvsForBatch store l true⟩) hn
    (fun a ha => batchGet_get store l true a ha (Or.inl rfl))
  rw [List.nil_append] at hrun
  simp only [applyActions, if_true, Option.bind_eq_bind]
  cases hk : Keyed.run StorageAction.key (StorageAction.effectWithInverse checks) store l with
  | none =>
    rw [hk, Option.map_none, Option.map_eq_none_iff] at hrun
    rw [hrun]
    rfl
  | some view =>
    rw [hk, Option.map_some] at hrun
    obtain ⟨r, hr, heq⟩ := Option.map_eq_some_iff.mp hrun
    obtain ⟨t', inverses⟩ := r
    cases heq
    rw [hr]
    rfl

end Runs

/-! ## When the two executions agree -/

namespace StorageAction

/-- A reading that a zero delta leaves as it is in the mutable execution: an increment rewrites
the first `w` bytes and creates an absent counter, a decrement deletes a counter at 0. -/
def zeroHarmless : StorageAction → Option Value → Bool
  | incrementU64 _ _, some v => v.length = 8
  | incrementU64 _ _, none => false
  | decrementU64 _ _, some v => v.length = 8 && Machine.ofBE v ≠ 0
  | decrementU64 _ _, none => true
  | incrementU128 _ _, some v => v.length = 16
  | incrementU128 _ _, none => false
  | decrementU128 _ _, some v => v.length = 16 && Machine.ofBE v ≠ 0
  | decrementU128 _ _, none => true
  | decrementU128NoDelete _ _, some v => v.length = 16
  | decrementU128NoDelete _ _, none => true
  | _, _ => true

/-- A counter action with a delta that panics on the reading: the stored value is too short,
or, with overflow checks, the sum does not fit. -/
def aborts (checks : Bool) : StorageAction → Option Value → Bool
  | incrementU64 _ d, some v =>
    d ≠ 0 && (v.length < 8 || (checks && 2 ^ 64 ≤ Machine.ofBE (v.take 8) + d.val))
  | decrementU64 _ d, some v => d ≠ 0 && v.length < 8
  | incrementU128 _ d, some v =>
    d ≠ 0 && (v.length < 16 || (checks && 2 ^ 128 ≤ Machine.ofBE (v.take 16) + d.val))
  | decrementU128 _ d, some v => d ≠ 0 && v.length < 16
  | decrementU128NoDelete _ d, some v => d ≠ 0 && v.length < 16
  | _, _ => false

section Effects

variable {w n : Nat} [NeZero n] (checks : Bool)

theorem readUInt_eq_none_iff {v : Value} : readUInt w n v = none ↔ v.length < w := by
  unfold readUInt
  split
  · rename_i h
    simp only [reduceCtorEq, false_iff, not_lt]
    exact h
  · rename_i h
    simp only [true_iff]
    omega

theorem readUInt_val (hn : n = 256 ^ w) {v : Value} {p : Fin n} (h : readUInt w n v = some p) :
    p.val = Machine.ofBE (v.take w) := by
  have hw := writeUInt_readUInt hn h
  rw [← hw, writeUInt, Machine.ofBE_toBE w p.val (hn ▸ p.isLt)]

theorem incremented_eq_none_iff (hn : n = 256 ^ w) (d : Fin n) (o : Option Value) :
    incremented w checks d o = none ↔
      ∃ v, o = some v ∧ (v.length < w ∨ checks ∧ n ≤ Machine.ofBE (v.take w) + d.val) := by
  cases o with
  | none => simp [incremented]
  | some v =>
    simp only [incremented, Option.some.injEq, exists_eq_left']
    cases hr : readUInt w n v with
    | none =>
      have := readUInt_eq_none_iff.mp hr
      simp [this]
    | some p =>
      have hlen : ¬ v.length < w := fun hlt => by
        rw [readUInt_eq_none_iff.mpr hlt] at hr
        cases hr
      simp only [Option.bind_some, Option.map_eq_none_iff, hlen, false_or, ← readUInt_val hn hr,
        Machine.add]
      split <;> rename_i hc <;> simp_all

theorem decremented_eq_none_iff (d : Fin n) (o : Option Value) :
    decremented w d o = none ↔ ∃ v, o = some v ∧ v.length < w := by
  cases o with
  | none => simp [decremented]
  | some v => simp [decremented, readUInt_eq_none_iff]

theorem decrementedNoDelete_eq_none_iff (d : Fin n) (o : Option Value) :
    decrementedNoDelete w d o = none ↔ ∃ v, o = some v ∧ v.length < w := by
  cases o with
  | none => simp [decrementedNoDelete]
  | some v => simp [decrementedNoDelete, readUInt_eq_none_iff]

/-- The bulk execution of an action panics exactly on the readings of `aborts`. -/
theorem effect_eq_none_iff (a : StorageAction) (o : Option Value) :
    a.effect checks o = none ↔ a.aborts checks o := by
  unfold effect
  cases a with
  | set k v => simp [isZeroDelta, effectWithInverse, aborts]
  | delete k => simp [isZeroDelta, effectWithInverse, aborts]
  | insert k v => simp [isZeroDelta, effectWithInverse, aborts]
  | incrementU64 k d =>
    simp only [isZeroDelta, effectWithInverse, decide_eq_true_eq]
    split
    · rename_i hd; cases o <;> simp [aborts, hd]
    · rename_i hd; rw [incremented_eq_none_iff checks (by decide)]; cases o <;> simp [aborts, hd]
  | decrementU64 k d =>
    simp only [isZeroDelta, effectWithInverse, decide_eq_true_eq]
    split
    · rename_i hd; cases o <;> simp [aborts, hd]
    · rename_i hd; rw [decremented_eq_none_iff]; cases o <;> simp [aborts, hd]
  | incrementU128 k d =>
    simp only [isZeroDelta, effectWithInverse, decide_eq_true_eq]
    split
    · rename_i hd; cases o <;> simp [aborts, hd]
    · rename_i hd; rw [incremented_eq_none_iff checks (by decide)]; cases o <;> simp [aborts, hd]
  | decrementU128 k d =>
    simp only [isZeroDelta, effectWithInverse, decide_eq_true_eq]
    split
    · rename_i hd; cases o <;> simp [aborts, hd]
    · rename_i hd; rw [decremented_eq_none_iff]; cases o <;> simp [aborts, hd]
  | decrementU128NoDelete k d =>
    simp only [isZeroDelta, effectWithInverse, decide_eq_true_eq]
    split
    · rename_i hd; cases o <;> simp [aborts, hd]
    · rename_i hd; rw [decrementedNoDelete_eq_none_iff]; cases o <;> simp [aborts, hd]

theorem writeUInt_readUInt_eq_iff (hn : n = 256 ^ w) {v : Value} {p : Fin n}
    (h : readUInt w n v = some p) : writeUInt w p = v ↔ v.length = w := by
  rw [writeUInt_readUInt hn h]
  have hlen : w ≤ v.length := by
    by_contra hlt
    rw [readUInt_eq_none_iff.mpr (by omega)] at h
    cases h
  constructor
  · intro hv
    rw [← hv, List.length_take]
    omega
  · intro hv
    exact List.take_of_length_le (by omega)

/-- The zero increment leaves a reading alone only when it is a well-formed counter. -/
theorem incremented_zero_iff (hn : n = 256 ^ w) (o : Option Value) :
    incremented w checks (0 : Fin n) o = some o ↔ ∃ v, o = some v ∧ v.length = w := by
  cases o with
  | none => simp [incremented]
  | some v =>
    simp only [incremented, Option.some.injEq, exists_eq_left']
    cases hr : readUInt w n v with
    | none =>
      have := readUInt_eq_none_iff.mp hr
      simp
      omega
    | some p =>
      have hadd : Machine.add checks p 0 = some p := by
        rw [Machine.add_of_lt checks (by simp)]
        simp
      simp only [Option.bind_some, hadd, Option.map_some, Option.some.injEq]
      exact writeUInt_readUInt_eq_iff hn hr

theorem decremented_zero_iff (hn : n = 256 ^ w) (o : Option Value) :
    decremented w (0 : Fin n) o = some o ↔
      ∀ v, o = some v → v.length = w ∧ Machine.ofBE v ≠ 0 := by
  cases o with
  | none => simp [decremented]
  | some v =>
    simp only [decremented, Option.some.injEq, forall_eq']
    cases hr : readUInt w n v with
    | none =>
      have := readUInt_eq_none_iff.mp hr
      simp
      omega
    | some p =>
      have hval := readUInt_val hn hr
      have hiff := writeUInt_readUInt_eq_iff hn hr
      simp only [Option.map_some, Option.some.injEq]
      by_cases hp : 0 < p
      · rw [if_pos hp, Option.some.injEq, Machine.sub_zero, hiff]
        refine ⟨fun hlen => ⟨hlen, ?_⟩, fun h => h.1⟩
        rw [List.take_of_length_le (by omega)] at hval
        rw [← hval]
        exact Nat.pos_iff_ne_zero.mp (Fin.lt_def.mp hp)
      · rw [if_neg hp]
        simp only [reduceCtorEq, false_iff, not_and, not_not]
        intro hlen
        rw [List.take_of_length_le (by omega)] at hval
        have hnot : ¬ 0 < p.val := fun hlt => hp (Fin.lt_def.mpr (by rw [Fin.val_zero]; exact hlt))
        omega

theorem decrementedNoDelete_zero_iff (hn : n = 256 ^ w) (o : Option Value) :
    decrementedNoDelete w (0 : Fin n) o = some o ↔ ∀ v, o = some v → v.length = w := by
  cases o with
  | none => simp [decrementedNoDelete]
  | some v =>
    simp only [decrementedNoDelete, Option.some.injEq, forall_eq']
    cases hr : readUInt w n v with
    | none =>
      have := readUInt_eq_none_iff.mp hr
      simp
      omega
    | some p =>
      simp only [Option.map_some, Option.some.injEq, Fin.zero_le, if_true]
      rw [Machine.sub_zero]
      exact writeUInt_readUInt_eq_iff hn hr

/-- The mutable execution of a zero delta keeps exactly the readings of `zeroHarmless`. -/
theorem effectWithInverse_zero_iff {a : StorageAction} (ha : a.isZeroDelta) (o : Option Value) :
    a.effectWithInverse checks o = some o ↔ a.zeroHarmless o := by
  cases a with
  | set k v => cases ha
  | delete k => cases ha
  | insert k v => cases ha
  | incrementU64 k d =>
    simp only [isZeroDelta, decide_eq_true_eq] at ha
    subst ha
    simp only [effectWithInverse]
    rw [incremented_zero_iff checks (by decide)]
    cases o <;> simp [zeroHarmless]
  | decrementU64 k d =>
    simp only [isZeroDelta, decide_eq_true_eq] at ha
    subst ha
    simp only [effectWithInverse]
    rw [decremented_zero_iff (by decide)]
    cases o <;> simp [zeroHarmless]
  | incrementU128 k d =>
    simp only [isZeroDelta, decide_eq_true_eq] at ha
    subst ha
    simp only [effectWithInverse]
    rw [incremented_zero_iff checks (by decide)]
    cases o <;> simp [zeroHarmless]
  | decrementU128 k d =>
    simp only [isZeroDelta, decide_eq_true_eq] at ha
    subst ha
    simp only [effectWithInverse]
    rw [decremented_zero_iff (by decide)]
    cases o <;> simp [zeroHarmless]
  | decrementU128NoDelete k d =>
    simp only [isZeroDelta, decide_eq_true_eq] at ha
    subst ha
    simp only [effectWithInverse]
    rw [decrementedNoDelete_zero_iff (by decide)]
    cases o <;> simp [zeroHarmless]

end Effects

end StorageAction

/-- Apart from zero deltas the two effects are one. -/
theorem effect_of_not_zeroDelta (checks : Bool) {a : StorageAction} (ha : a.isZeroDelta = false)
    (o : Option Value) : a.effect checks o = a.effectWithInverse checks o := by
  simp [StorageAction.effect, ha]

theorem effect_of_zeroDelta (checks : Bool) {a : StorageAction} (ha : a.isZeroDelta = true)
    (o : Option Value) : a.effect checks o = some o := by
  simp [StorageAction.effect, ha]

/-- Runs with effects that agree on the readings met agree. -/
theorem run_congr_of_nodup {e₁ e₂ : StorageAction → Option Value → Option (Option Value)}
    {store : Store} {l : List StorageAction} (hn : (l.map StorageAction.key).Nodup)
    (h : ∀ a ∈ l, e₁ a (store.get a.key) = e₂ a (store.get a.key)) :
    Keyed.run StorageAction.key e₁ store l = Keyed.run StorageAction.key e₂ store l := by
  refine Option.ext (fun t' => ?_)
  rw [Keyed.run_eq_some_iff, Keyed.run_eq_some_iff]
  refine forall_congr' (fun k => ?_)
  by_cases hk : k ∈ l.map StorageAction.key
  · obtain ⟨a, ha, rfl⟩ := List.mem_map.mp hk
    rw [Keyed.of_eq_singleton hn ha, Keyed.at_cons, Keyed.at_cons, h a ha]
    rfl
  · rw [Keyed.of_eq_nil hk]
    rfl

/-- **When mutable and bulk execution agree.**  Both executions of a list with distinct keys
end the same way (both panic, or both leave the same store) exactly when some action with a
non-zero delta panics on the stored value, or every zero delta meets a reading that it
leaves alone. -/
theorem mutable_agrees_bulk_iff (checks : Bool) (store : Store) (actions : List StorageAction)
    (hn : (actions.map StorageAction.key).Nodup) :
    (applyActions checks store actions true).map Prod.fst =
        (applyActions checks store actions false).map Prod.fst ↔
      (∃ a ∈ actions, a.aborts checks (store.get a.key)) ∨
        ∀ a ∈ actions, a.isZeroDelta → a.zeroHarmless (store.get a.key) := by
  rw [applyActions_mutable checks hn, applyActions_bulk checks hn]
  simp only [Option.map_map, Function.comp_def, Option.map_id']
  by_cases hab : ∃ a ∈ actions, a.aborts checks (store.get a.key)
  · -- an action that panics in bulk mode is no zero delta, so it panics in both
    simp only [hab, true_or, iff_true]
    obtain ⟨a, ha, habort⟩ := hab
    have hnone := (StorageAction.effect_eq_none_iff checks a _).mpr habort
    have hz : a.isZeroDelta = false := by
      by_contra hz
      rw [effect_of_zeroDelta checks (by simpa using hz)] at hnone
      cases hnone
    rw [(Keyed.run_eq_none_iff hn).mpr ⟨a, ha, hnone⟩]
    rw [effect_of_not_zeroDelta checks hz] at hnone
    exact (Keyed.run_eq_none_iff hn).mpr ⟨a, ha, hnone⟩
  · simp only [hab, false_or]
    constructor
    · intro heq a ha hz
      rw [← StorageAction.effectWithInverse_zero_iff checks hz]
      obtain ⟨t', ht'⟩ : ∃ t', Keyed.run StorageAction.key (StorageAction.effect checks) store
          actions = some t' := by
        refine Keyed.exists_run hn (fun b hb => Option.ne_none_iff_exists'.mp (fun hnone => ?_))
        exact hab ⟨b, hb, (StorageAction.effect_eq_none_iff checks b _).mp hnone⟩
      have hkeep := Keyed.run_get_of_mem hn ht' ha
      rw [effect_of_zeroDelta checks hz] at hkeep
      rw [ht'] at heq
      have hmut := Keyed.run_get_of_mem hn heq ha
      rw [hmut, ← hkeep]
    · intro hz
      refine run_congr_of_nodup hn (fun a ha => ?_)
      by_cases hzero : a.isZeroDelta
      · rw [(StorageAction.effectWithInverse_zero_iff checks hzero _).mpr (hz a ha hzero),
          effect_of_zeroDelta checks hzero]
      · rw [effect_of_not_zeroDelta checks (by simpa using hzero)]

/-- An increment by 3 of a stored counter and a zero increment of another: the executions
agree. -/
theorem mutable_agrees_bulk_iff_two_counters :
    ([StorageAction.incrementU64 [1] 3, .incrementU64 [2] 0].map StorageAction.key).Nodup ∧
      ((applyActions true ((Table.empty.insert [1] (writeUInt 8 (5 : U64))).insert [2]
          (writeUInt 8 (7 : U64))) [.incrementU64 [1] 3, .incrementU64 [2] 0] true).map Prod.fst =
        (applyActions true ((Table.empty.insert [1] (writeUInt 8 (5 : U64))).insert [2]
          (writeUInt 8 (7 : U64))) [.incrementU64 [1] 3, .incrementU64 [2] 0] false).map
            Prod.fst) := by
  refine ⟨by decide, (mutable_agrees_bulk_iff true _ _ (by decide)).mpr (Or.inr ?_)⟩
  intro a ha hz
  simp only [List.mem_cons, List.not_mem_nil, or_false] at ha
  rcases ha with rfl | rfl
  · cases hz
  · decide

/-- A zero increment of an absent counter creates it in mutable mode and does nothing in bulk
mode. -/
theorem mutable_differs_bulk_on_zero_increment :
    ¬ ∀ (checks : Bool) (store : Store) (actions : List StorageAction),
      (actions.map StorageAction.key).Nodup →
        (applyActions checks store actions true).map Prod.fst =
          (applyActions checks store actions false).map Prod.fst := by
  intro h
  have hinst := h false Table.empty [.incrementU64 [0] 0] (by decide)
  revert hinst
  decide

end DogeIndexer.Polyphony
