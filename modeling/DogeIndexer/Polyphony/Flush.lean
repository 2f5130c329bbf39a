import DogeIndexer.Polyphony.Staggered

/-!
# Bulk flushes under failures

In the bulk phase a block that does not fit the batch flushes it first.  A failing database
transaction leaves the unit to be delivered again; a failing registry update does not, although the
flushed batch is still in the batcher and the block is not.

* `flushTransactions` — the transactions of a flush, and how many calls they make.
* `BulkRun` — deliveries with failing calls; a restart of the stage keeps its worker.
* `OnceEach` — every delivered block is in exactly one committed batch, pending, or being retried.
* `bulk_blocks_once` — over every run in which no registry update fails.
-/

set_option autoImplicit false

namespace DogeIndexer.Polyphony

open Effect

/-! ## Outcomes of calls -/

section Spends

variable {cfg : Config} {w w' : Worker}

/-- A completed program takes the next `n` outcomes, none a failure. -/
def Spends (x : Exec Unit) (n : Nat) : Prop :=
  ∀ w w', x w = .ok () w' → w'.faults = w.faults.drop n ∧ ∀ b ∈ w.faults.take n, b = false

theorem spends_call : Spends call 1 := by
  intro w w' h
  unfold call at h
  split at h
  · cases h
  · rename_i faults hf
    cases h
    rw [hf]
    simp
  · rename_i hf
    cases h
    rw [hf]
    simp

theorem Spends.then {x y : Exec Unit} {m n : Nat} (hx : Spends x m) (hy : Spends y n) :
    Spends (x >>= fun _ => y) (m + n) := by
  intro w w' h
  obtain ⟨_, w₁, h₁, h₂⟩ := bind_eq_ok.mp h
  obtain ⟨hd₁, hf₁⟩ := hx w w₁ h₁
  obtain ⟨hd₂, hf₂⟩ := hy w₁ w' h₂
  refine ⟨by rw [hd₂, hd₁, List.drop_drop], fun b hb => ?_⟩
  rw [List.take_add] at hb
  rcases List.mem_append.mp hb with hb | hb
  · exact hf₁ b hb
  · rw [← hd₁] at hb
    exact hf₂ b hb

theorem Spends.forM {α : Type} {f : α → Exec Unit} {n : Nat} (hf : ∀ a, Spends (f a) n) (l : List α) :
    Spends (l.forM f) (n * l.length) := by
  induction l with
  | nil =>
    intro w w' h
    cases h
    simp
  | cons a l ih =>
    rw [List.length_cons, Nat.mul_add, Nat.mul_one, Nat.add_comm]
    exact (hf a).then ih

/-- A transaction begins and commits. -/
theorem spends_commitActions (cfg : Config) (actions : List StorageAction) :
    Spends (commitActions cfg actions) 2 := by
  intro w w' h
  obtain ⟨_, w₁, h₁, h₂⟩ := bind_eq_ok.mp h
  rw [get_bind] at h₂
  obtain ⟨view, w₂, h₃, h₄⟩ := bind_eq_ok.mp h₂
  obtain ⟨-, rfl⟩ := orPanic_ok h₃
  obtain ⟨_, w₃, h₅, h₆⟩ := bind_eq_ok.mp h₄
  have hcalls := (spends_call.then spends_call) w w₃ (bind_eq_ok.mpr ⟨(), _, h₁, h₅⟩)
  rw [modify_eq_ok.mp h₆]
  exact hcalls

/-- A failing sequence of registry calls meets a failure among its outcomes. -/
theorem updateRegistryScores_fails {e : Error} (h : updateRegistryScores cfg w = .error e w') :
    true ∈ w.faults.take cfg.instanceNames := by
  obtain ⟨done, a, rest, w₁, hsplit, hdone, hfail⟩ := forM_eq_error h
  obtain ⟨hdrop, -⟩ := Spends.forM (fun _ : Nat => spends_call) done w w₁ hdone
  have hlen : done.length < cfg.instanceNames := by
    have := congrArg List.length hsplit
    rw [List.length_range, List.length_append, List.length_cons] at this
    omega
  have hhead : w₁.faults[0]? = some true := by
    unfold call at hfail
    split at hfail
    · rename_i faults hf
      rw [hf]
      rfl
    · cases hfail
    · cases hfail
  rw [hdrop, Nat.one_mul, List.getElem?_drop, Nat.add_zero] at hhead
  refine List.mem_iff_getElem?.mpr ⟨done.length, ?_⟩
  rw [List.getElem?_take, if_pos hlen]
  exact hhead

end Spends

/-! ## Transactions of a flush -/

/-- The transactions in which a batch is committed. -/
def flushTransactions (cfg : Config) (actions : List StorageAction) : List (List StorageAction) :=
  if actions.length > 5000 then staggeredTransactions cfg actions else [actions]

/-- A batch that can be flushed: distinct keys, and the cursor set when it is large. -/
structure Flushable (cfg : Config) (actions : List StorageAction) : Prop where
  nodup : (actions.map StorageAction.key).Nodup
  cursor : actions.length > 5000 → ∃ cursor, cursorAction cfg actions = some cursor

section Flush

variable {cfg : Config} {w w' : Worker} {actions : List StorageAction}

theorem flushBatch_eq (h : Flushable cfg actions) (w : Worker) :
    flushBatch cfg actions w = (flushTransactions cfg actions).forM (commitActions cfg) w := by
  unfold flushBatch flushTransactions
  split
  · rename_i hlarge
    obtain ⟨cursor, hc⟩ := h.cursor hlarge
    exact applyStaggeredActions_eq hc
  · show _ = (commitActions cfg actions >>= fun _ => pure ()) w
    rw [bind_pure_unit]

theorem flushBatch_completed (h : Flushable cfg actions) {u : Unit} (hok : flushBatch cfg actions w = .ok u w') :
    commitAll cfg.checks w.data (flushTransactions cfg actions) = some w'.data ∧
      w' = { w with data := w'.data, faults := w.faults.drop (2 * (flushTransactions cfg actions).length) } ∧
      ∀ b ∈ w.faults.take (2 * (flushTransactions cfg actions).length), b = false := by
  rw [flushBatch_eq h] at hok
  obtain ⟨hdrop, hfalse⟩ := Spends.forM (spends_commitActions cfg) _ w w' hok
  obtain ⟨data, faults, hdata, rfl⟩ := forM_commit_ok (f := id) hok
  refine ⟨hdata, ?_, hfalse⟩
  simp only at hdrop
  rw [hdrop]

theorem flushBatch_failed (h : Flushable cfg actions) {e : Error} (herr : flushBatch cfg actions w = .error e w') :
    ∃ n < (flushTransactions cfg actions).length,
      commitAll cfg.checks w.data ((flushTransactions cfg actions).take n) = some w'.data ∧
        ∃ faults, w' = { w with data := w'.data, faults := faults } := by
  rw [flushBatch_eq h] at herr
  obtain ⟨done, a, rest, data, faults, hsplit, hdata, rfl⟩ := forM_commit_error (f := id) herr
  refine ⟨done.length, ?_, ?_, faults, rfl⟩
  · rw [hsplit, List.length_append, List.length_cons]
    omega
  · rw [hsplit, List.take_left' rfl]
    exact hdata

/-- **A flush that has failed leads where it led before.** -/
theorem flush_repeat {checks : Bool} {n : Nat} {store store₁ : Store} (h : Flushable cfg actions)
    (hlt : n < (flushTransactions cfg actions).length)
    (hpart : commitAll checks store ((flushTransactions cfg actions).take n) = some store₁) :
    commitAll checks store₁ (flushTransactions cfg actions) =
      commitAll checks store (flushTransactions cfg actions) := by
  unfold flushTransactions at hlt hpart ⊢
  split at hlt
  · rename_i hlarge
    rw [if_pos hlarge] at hpart ⊢
    obtain ⟨cursor, hc⟩ := h.cursor hlarge
    exact (commitAll_repeat h.nodup hc hlt hpart).1
  · rename_i hsmall
    rw [if_neg hsmall] at hpart ⊢
    have hzero : n = 0 := by simpa using hlt
    subst hzero
    cases hpart
    rfl

end Flush

/-! ## Runs -/

/-- A registry update fails after the batch was committed. -/
def registryFails (cfg : Config) (w : Worker) (block : BulkBlock) (faults : List Bool) : Bool :=
  let calls := 2 * (flushTransactions cfg (w.syncBatcher.getBatchActions cfg.order)).length
  w.syncBatcher.shouldFlush block.storageOps && (w.registered || cfg.advertiseImmediately) &&
    (faults.take calls).all (fun b => !b) && decide (true ∈ (faults.drop calls).take cfg.instanceNames)

/-- Where an execution leaves the worker: completed, or to be restarted. -/
def Leaves (r : EStateM.Result Error Worker Unit) (w' : Worker) : Prop := r = .ok () w' ∨ r = .error .restart w'

/-- Deliveries of bulk blocks, each call of which may fail: `schedule` delivers the unit of the 2pc
lock again when it is set and the next message otherwise, on the same worker. -/
inductive BulkRun (cfg : Config) (allowed : Worker → BulkBlock → List Bool → Prop) (w₀ : Worker) :
    List BulkBlock → Worker → Prop
  | start : BulkRun cfg allowed w₀ [] w₀
  | deliver {delivered : List BulkBlock} {w w' : Worker} {b : BulkBlock} (faults : List Bool)
      (hrun : BulkRun cfg allowed w₀ delivered w) (h2pc : w.workUnit2pc = none)
      (hcursor : ∃ v, Keyed.of StorageAction.key b.storageOps cfg.cursorKey = [.set cfg.cursorKey v])
      (hallowed : allowed w b faults)
      (hexec : Leaves (execute cfg b.unit { w with faults := faults }) w') :
      BulkRun cfg allowed w₀ (delivered ++ [b]) w'
  | redeliver {delivered : List BulkBlock} {w w' : Worker} {b : BulkBlock} (faults : List Bool)
      (hrun : BulkRun cfg allowed w₀ delivered w) (h2pc : w.workUnit2pc = some b.unit)
      (hallowed : allowed w b faults)
      (hexec : Leaves (execute cfg b.unit { w with faults := faults }) w') :
      BulkRun cfg allowed w₀ delivered w'

/-- The actions of a batch of blocks, merged. -/
def mergedBatch (cfg : Config) (blocks : List (List StorageAction)) : Option (Table Key StorageAction) :=
  mergeAll cfg.checks Table.empty blocks.flatten

/-- The transactions of a batch of blocks that was merged to `held`. -/
def batchTransactions (cfg : Config) (held : Table Key StorageAction) : List (List StorageAction) :=
  flushTransactions cfg (cfg.order.values (held.entries.map Prod.snd))

/-- Committing a batch of blocks once. -/
def commitBatch (cfg : Config) (store : Store) (blocks : List (List StorageAction)) : Option Store :=
  (mergedBatch cfg blocks).bind fun held => commitAll cfg.checks store (batchTransactions cfg held)

/-- **Every delivered block once**: the blocks of the batches `flushed` are committed, those of
`pending` are in the batcher, and the one under the 2pc lock is to be delivered again; until then
its flush may have committed some transactions, and leads where it led at first. -/
structure OnceEach (cfg : Config) (data₀ : Store) (delivered : List BulkBlock) (w : Worker)
    (flushed : List (List (List StorageAction))) (pending : List (List StorageAction)) (store : Store) :
    Prop where
  committed : flushed.foldlM (commitBatch cfg) data₀ = some store
  batch : mergedBatch cfg pending = some w.syncBatcher.batchActions
  idle : w.workUnit2pc = none →
    delivered.map BulkBlock.storageOps = flushed.flatten ++ pending ∧ w.data = store
  retry : ∀ unit, w.workUnit2pc = some unit → ∃ b : BulkBlock, unit = b.unit ∧
    delivered.map BulkBlock.storageOps = flushed.flatten ++ pending ++ [b.storageOps] ∧
    commitAll cfg.checks w.data (batchTransactions cfg w.syncBatcher.batchActions) =
      commitAll cfg.checks store (batchTransactions cfg w.syncBatcher.batchActions)

section Steps

variable {cfg : Config} {data₀ store : Store} {w w' : Worker} {delivered : List BulkBlock} {b : BulkBlock}
  {flushed : List (List (List StorageAction))} {pending : List (List StorageAction)}

/-- Batches of blocks that set the cursor can be flushed. -/
theorem flushable_of_blocks {held : Table Key StorageAction} (h : mergedBatch cfg pending = some held)
    (hcursor : ∀ ops ∈ pending, ∃ v, Keyed.of StorageAction.key ops cfg.cursorKey = [.set cfg.cursorKey v]) :
    Flushable cfg (cfg.order.values (held.entries.map Prod.snd)) := by
  refine ⟨values_nodup (mergeAll_wellKeyed wellKeyed_empty h), fun hlarge => ?_⟩
  cases hp : pending using List.reverseRecOn with
  | nil =>
    rw [hp] at h
    cases h
    rw [(cfg.order.perm _).length_eq] at hlarge
    cases hlarge
  | append_singleton init ops =>
    rw [mergedBatch, hp, List.flatten_append, mergeAll_append] at h
    obtain ⟨held₁, -, hlast⟩ := Option.bind_eq_some_iff.mp h
    obtain ⟨v, hv⟩ := hcursor ops (by rw [hp]; simp)
    rw [List.flatten_cons, List.flatten_nil, List.append_nil] at hlast
    exact cursorAction_isSome (mem_values.mpr ⟨_, mergeAll_set hv hlast⟩)

/-- A failing registry update in a flush. -/
theorem maybeAdvertise_fails {e : Error} (hmut : w.mutable = false) (h : maybeAdvertise cfg w = .error e w') :
    (w.registered || cfg.advertiseImmediately) = true ∧ true ∈ w.faults.take cfg.instanceNames := by
  unfold maybeAdvertise at h
  rw [get_bind] at h
  split at h
  · rename_i hreg
    exact ⟨by rw [hreg]; rfl, updateRegistryScores_fails h⟩
  · split at h
    · exact absurd h pure_ne_error
    · rename_i hadv
      have hadv' : cfg.advertiseImmediately = true := by simpa [hmut] using hadv
      rcases bind_eq_error.mp h with h | ⟨_, w₁, -, h₂⟩
      · exact ⟨by rw [hadv', Bool.or_true], updateRegistryScores_fails h⟩
      · exact absurd h₂ modify_ne_error

theorem pushBlock_error {ops : List StorageAction} {e : Error} (h : pushBlock cfg ops w = .error e w') :
    e = .panic := by
  unfold pushBlock at h
  rw [get_bind] at h
  rcases bind_eq_error.mp h with h | ⟨_, w₁, -, h₂⟩
  · exact (orPanic_error h).1
  · exact absurd h₂ modify_ne_error

/-- **A delivery that flushes**, the first one of its block or a repeated one. -/
theorem OnceEach.flush {faults : List Bool}
    (hcommitted : flushed.foldlM (commitBatch cfg) data₀ = some store)
    (hbatch : mergedBatch cfg pending = some w.syncBatcher.batchActions)
    (hcursor : ∀ ops ∈ pending, ∃ v, Keyed.of StorageAction.key ops cfg.cursorKey = [.set cfg.cursorKey v])
    (hsame : commitAll cfg.checks w.data (batchTransactions cfg w.syncBatcher.batchActions) =
      commitAll cfg.checks store (batchTransactions cfg w.syncBatcher.batchActions))
    (hdelivered : delivered.map BulkBlock.storageOps = flushed.flatten ++ pending ++ [b.storageOps])
    (hmut : w.mutable = false) (hflush : w.syncBatcher.shouldFlush b.storageOps = true)
    (hreg : registryFails cfg w b faults = false)
    (hexec : Leaves (rollForwardBulk cfg b.unit b.point b.storageOps { w with faults := faults }) w') :
    ∃ flushed' pending' store', OnceEach cfg data₀ delivered w' flushed' pending' store' ∧
      w'.mutable = false ∧ (∀ unit, w'.workUnit2pc = some unit → w'.syncBatcher = w.syncBatcher ∧ unit = b.unit) := by
  have hflushable := flushable_of_blocks hbatch hcursor
  have hactions : w.syncBatcher.getBatchActions cfg.order =
      cfg.order.values (w.syncBatcher.batchActions.entries.map Prod.snd) := rfl
  unfold rollForwardBulk at hexec
  rw [get_bind] at hexec
  simp only [hflush, if_true] at hexec
  rw [modify_bind, hactions] at hexec
  rcases hexec with hok | herr
  · obtain ⟨_, w₁, h₁, h₂⟩ := bind_eq_ok.mp hok
    obtain ⟨hdata, hw₁, -⟩ := flushBatch_completed hflushable h₁
    rw [hw₁, modify_bind] at h₂
    obtain ⟨_, w₂, h₃, h₄⟩ := bind_eq_ok.mp h₂
    obtain ⟨registered, f₂, rfl⟩ := maybeAdvertise_ok h₃
    rw [modify_bind] at h₄
    obtain ⟨batcher, hpush, rfl⟩ := pushBlock_ok h₄
    rw [SyncBatcher.pushActions_eq_run] at hpush
    obtain ⟨held, hheld, rfl⟩ := Option.map_eq_some_iff.mp hpush
    refine ⟨flushed ++ [pending], [b.storageOps], w₁.data, ⟨?_, ?_, fun _ => ⟨?_, rfl⟩, ?_⟩, hmut, ?_⟩
    · rw [List.foldlM_append, hcommitted]
      show (commitBatch cfg store pending >>= fun s => some s) = some w₁.data
      rw [commitBatch, hbatch, Option.bind_some, ← hsame]
      rw [show commitAll cfg.checks w.data (batchTransactions cfg w.syncBatcher.batchActions) =
        some w₁.data from hdata]
      rfl
    · show mergeAll cfg.checks Table.empty ([b.storageOps] : List (List StorageAction)).flatten = some held
      rw [List.flatten_cons, List.flatten_nil, List.append_nil]
      exact hheld
    · rw [hdelivered, List.flatten_append]
      simp
    · intro unit hunit
      cases hunit
    · intro unit hunit
      cases hunit
  · rcases bind_eq_error.mp herr with h | ⟨_, w₁, h₁, h₂⟩
    · obtain ⟨n, hlt, hpart, f, hw'⟩ := flushBatch_failed hflushable h
      have hagain := flush_repeat hflushable hlt hpart
      rw [hw']
      refine ⟨flushed, pending, store, ⟨hcommitted, hbatch, fun hnone => ?_, ?_⟩, hmut, ?_⟩
      · cases hnone
      · rintro unit ⟨rfl⟩
        exact ⟨b, rfl, hdelivered, hagain.trans hsame⟩
      · rintro unit ⟨rfl⟩
        exact ⟨rfl, rfl⟩
    · obtain ⟨hdata, hw₁, hfalse⟩ := flushBatch_completed hflushable h₁
      rw [hw₁, modify_bind] at h₂
      rcases bind_eq_error.mp h₂ with h | ⟨_, w₂, h₃, h₄⟩
      · -- the batch is committed and the registry update fails
        obtain ⟨hadv, hin⟩ := maybeAdvertise_fails (by exact hmut) h
        have hfails : registryFails cfg w b faults = true := by
          unfold registryFails
          simp only [Bool.and_eq_true, decide_eq_true_eq, List.all_eq_true]
          refine ⟨⟨⟨hflush, hadv⟩, fun x hx => ?_⟩, hin⟩
          have hx' : x = false := hfalse x hx
          rw [hx']
          rfl
        rw [hreg] at hfails
        cases hfails
      · rw [modify_bind] at h₄
        cases pushBlock_error h₄

/-- **A delivery that fits the batch.** -/
theorem OnceEach.push {faults : List Bool} (h : OnceEach cfg data₀ delivered w flushed pending store)
    (h2pc : w.workUnit2pc = none) (hmut : w.mutable = false)
    (hflush : w.syncBatcher.shouldFlush b.storageOps = false)
    (hexec : Leaves (rollForwardBulk cfg b.unit b.point b.storageOps { w with faults := faults }) w') :
    OnceEach cfg data₀ (delivered ++ [b]) w' flushed (pending ++ [b.storageOps]) store ∧
      w'.mutable = false ∧ w'.workUnit2pc = none := by
  unfold rollForwardBulk at hexec
  rw [get_bind] at hexec
  simp only [hflush, Bool.false_eq_true, if_false] at hexec
  rcases hexec with hok | herr
  · obtain ⟨batcher, hpush, rfl⟩ := pushBlock_ok hok
    rw [SyncBatcher.pushActions_eq_run] at hpush
    obtain ⟨held, hheld, rfl⟩ := Option.map_eq_some_iff.mp hpush
    obtain ⟨hdelivered, hdata⟩ := h.idle h2pc
    refine ⟨⟨h.committed, ?_, fun _ => ⟨?_, hdata⟩, fun unit hunit => ?_⟩, hmut, h2pc⟩
    · have hbatch := h.batch
      unfold mergedBatch at hbatch ⊢
      rw [List.flatten_append, mergeAll_append, hbatch, Option.bind_some, List.flatten_cons,
        List.flatten_nil, List.append_nil]
      exact hheld
    · rw [List.map_append, hdelivered, List.append_assoc]
      rfl
    · have hsome : w.workUnit2pc = some unit := hunit
      rw [h2pc] at hsome
      cases hsome
  · cases pushBlock_error herr

/-- What holds along a run. -/
structure Bulk (cfg : Config) (data₀ : Store) (delivered : List BulkBlock) (w : Worker) : Prop where
  once : ∃ flushed pending store, OnceEach cfg data₀ delivered w flushed pending store
  mutable : w.mutable = false
  cursor : ∀ b ∈ delivered, ∃ v,
    Keyed.of StorageAction.key b.storageOps cfg.cursorKey = [.set cfg.cursorKey v]
  lock : ∀ b : BulkBlock, w.workUnit2pc = some b.unit → w.syncBatcher.shouldFlush b.storageOps = true

theorem Bulk.pendingCursor (h : ∀ b ∈ delivered, ∃ v,
      Keyed.of StorageAction.key b.storageOps cfg.cursorKey = [.set cfg.cursorKey v])
    {rest : List (List StorageAction)}
    (hdelivered : delivered.map BulkBlock.storageOps = flushed.flatten ++ pending ++ rest) :
    ∀ ops ∈ pending, ∃ v, Keyed.of StorageAction.key ops cfg.cursorKey = [.set cfg.cursorKey v] := by
  intro ops hops
  have hmem : ops ∈ delivered.map BulkBlock.storageOps := by
    rw [hdelivered]
    simp [hops]
  obtain ⟨b, hb, rfl⟩ := List.mem_map.mp hmem
  exact h b hb

theorem unit_inj {b c : BulkBlock} (h : b.unit = c.unit) : b.storageOps = c.storageOps := by
  unfold BulkBlock.unit at h
  exact (StorageActionPayload.rollForward.inj h).2.1

theorem BulkRun.bulk {allowed : Worker → BulkBlock → List Bool → Prop} {w₀ : Worker}
    (hallowed : ∀ w b faults, allowed w b faults → registryFails cfg w b faults = false)
    (hmut : w₀.mutable = false) (h2pc : w₀.workUnit2pc = none)
    (hbatch : w₀.syncBatcher.batchActions = Table.empty) (h : BulkRun cfg allowed w₀ delivered w) :
    Bulk cfg w₀.data delivered w := by
  induction h with
  | start =>
    refine ⟨⟨[], [], w₀.data, rfl, ?_, fun _ => ⟨rfl, rfl⟩, fun unit hunit => ?_⟩, hmut,
      fun b hb => absurd hb List.not_mem_nil, fun b hb => ?_⟩
    · rw [hbatch]
      rfl
    · rw [h2pc] at hunit
      cases hunit
    · rw [h2pc] at hb
      cases hb
  | @deliver delivered w w' b faults _ hnone hcur hok hexec ih =>
    obtain ⟨flushed, pending, store, honce⟩ := ih.once
    obtain ⟨hdelivered, hdata⟩ := honce.idle hnone
    have hcursor : ∀ c ∈ delivered ++ [b], ∃ v,
        Keyed.of StorageAction.key c.storageOps cfg.cursorKey = [.set cfg.cursorKey v] := by
      intro c hc
      rcases List.mem_append.mp hc with hc | hc
      · exact ih.cursor c hc
      · rw [List.mem_singleton.mp hc]
        exact hcur
    have hdelivered' : (delivered ++ [b]).map BulkBlock.storageOps =
        flushed.flatten ++ pending ++ [b.storageOps] := by
      rw [List.map_append, hdelivered]
      rfl
    rw [execute_bulk (by exact ih.mutable)] at hexec
    cases hflush : w.syncBatcher.shouldFlush b.storageOps with
    | true =>
      obtain ⟨flushed', pending', store', honce', hm', hlock⟩ := OnceEach.flush honce.committed honce.batch
        (Bulk.pendingCursor hcursor hdelivered') (by rw [hdata]) hdelivered' ih.mutable hflush
        (hallowed w b faults hok) hexec
      refine ⟨⟨flushed', pending', store', honce'⟩, hm', hcursor, fun c hc => ?_⟩
      obtain ⟨hsame, hunit⟩ := hlock c.unit hc
      rw [hsame, unit_inj hunit]
      exact hflush
    | false =>
      obtain ⟨honce', hm', hnone'⟩ := honce.push hnone ih.mutable hflush hexec
      refine ⟨⟨_, _, _, honce'⟩, hm', hcursor, fun c hc => ?_⟩
      rw [hnone'] at hc
      cases hc
  | @redeliver delivered w w' b faults _ hsome hok hexec ih =>
    obtain ⟨flushed, pending, store, honce⟩ := ih.once
    obtain ⟨c, hunit, hdelivered, hsame⟩ := honce.retry b.unit hsome
    rw [← unit_inj hunit] at hdelivered
    rw [execute_bulk (by exact ih.mutable)] at hexec
    have hflush := ih.lock b hsome
    obtain ⟨flushed', pending', store', honce', hm', hlock⟩ := OnceEach.flush honce.committed honce.batch
      (Bulk.pendingCursor ih.cursor hdelivered) hsame hdelivered ih.mutable hflush
      (hallowed w b faults hok) hexec
    refine ⟨⟨flushed', pending', store', honce'⟩, hm', ih.cursor, fun c hc => ?_⟩
    obtain ⟨hbatcher, hcu⟩ := hlock c.unit hc
    rw [hbatcher, unit_inj hcu]
    exact hflush

end Steps

/-- **A failing bulk flush loses and repeats nothing**, as long as no registry update fails after a
batch was committed: in every run of deliveries in which any other call may fail, every delivered
block is in exactly one of the committed batches, in the pending batch, or under the 2pc lock. -/
theorem bulk_blocks_once (cfg : Config) (w₀ w : Worker) (delivered : List BulkBlock)
    (hmut : w₀.mutable = false) (h2pc : w₀.workUnit2pc = none)
    (hbatch : w₀.syncBatcher.batchActions = Table.empty)
    (hrun : BulkRun cfg (fun w b faults => registryFails cfg w b faults = false) w₀ delivered w) :
    ∃ flushed pending store, OnceEach cfg w₀.data delivered w flushed pending store :=
  (hrun.bulk (fun _ _ _ h => h) hmut h2pc hbatch).once

section Samples

/-- One block a batch, and the instance is advertised at once. -/
def advertisingConfig : Config := { sampleConfig with syncBatchSize := 1, advertiseImmediately := true }

/-- A block that counts under a key of its own. -/
def countingBlock (height : Nat) : BulkBlock :=
  ⟨⟨height, 0⟩, [.incrementU64 [1, Fin.ofNat 256 height] 1, .set [0] (cursorValue ⟨height, 0⟩ [])], false⟩

def bulkStart : Worker := Worker.spawn advertisingConfig Table.empty Table.empty none []

theorem countingBlock_cursor (height : Nat) :
    ∃ v, Keyed.of StorageAction.key (countingBlock height).storageOps advertisingConfig.cursorKey =
      [.set advertisingConfig.cursorKey v] :=
  ⟨cursorValue ⟨height, 0⟩ [], by simp [Keyed.of, countingBlock, StorageAction.key, advertisingConfig, sampleConfig]⟩

/-- The worker after deliveries with the given outcomes. -/
def deliveries (w : Worker) (blocks : List (Nat × List Bool)) : Worker :=
  blocks.foldl (fun w e => workerAfter advertisingConfig (countingBlock e.1).unit { w with faults := e.2 }) w

theorem leaves_of_completes {cfg : Config} {unit : StorageActionPayload} {w : Worker}
    (h : completes cfg unit w = true) : Leaves (execute cfg unit w) (workerAfter cfg unit w) :=
  Or.inl (execute_of_completes h)

theorem leaves_of_fails {cfg : Config} {unit : StorageActionPayload} {w : Worker}
    (h : fails cfg unit w = true) : Leaves (execute cfg unit w) (workerAfter cfg unit w) :=
  Or.inr (execute_of_fails h)

/-- The commit of the first batch fails and the second block is delivered again. -/
theorem bulk_blocks_once_retried :
    ∃ flushed pending store, OnceEach advertisingConfig Table.empty [countingBlock 1, countingBlock 2]
      (deliveries bulkStart [(1, []), (2, [false, true]), (2, [])]) flushed pending store := by
  have h₁ : BulkRun advertisingConfig (fun w b faults => registryFails advertisingConfig w b faults = false)
      bulkStart [countingBlock 1] (deliveries bulkStart [(1, [])]) :=
    .deliver [] .start rfl (countingBlock_cursor 1) (by decide +kernel) (leaves_of_completes (by decide +kernel))
  have h₂ := BulkRun.deliver (b := countingBlock 2) [false, true] h₁ (by decide +kernel)
    (countingBlock_cursor 2) (by decide +kernel) (leaves_of_fails (by decide +kernel))
  have h₃ := BulkRun.redeliver (b := countingBlock 2) [] h₂ (by decide +kernel) (by decide +kernel)
    (leaves_of_completes (by decide +kernel))
  exact bulk_blocks_once advertisingConfig bulkStart _ _ rfl rfl rfl h₃

/-- When the registry update fails after the commit, the batch stays in the batcher and the block is
lost: no split of the two delivered blocks fits the batcher. -/
theorem registry_failure_loses_block :
    BulkRun advertisingConfig (fun _ _ _ => True) bulkStart [countingBlock 1, countingBlock 2]
        (deliveries bulkStart [(1, []), (2, [false, false, true])]) ∧
      ¬ ∃ flushed pending store, OnceEach advertisingConfig Table.empty [countingBlock 1, countingBlock 2]
        (deliveries bulkStart [(1, []), (2, [false, false, true])]) flushed pending store := by
  have h₁ : BulkRun advertisingConfig (fun _ _ _ => True) bulkStart [countingBlock 1]
      (deliveries bulkStart [(1, [])]) :=
    .deliver [] .start rfl (countingBlock_cursor 1) trivial (leaves_of_completes (by decide +kernel))
  refine ⟨.deliver (b := countingBlock 2) [false, false, true] h₁ (by decide +kernel) (countingBlock_cursor 2)
    trivial (leaves_of_fails (by decide +kernel)), ?_⟩
  rintro ⟨flushed, pending, store, h⟩
  obtain ⟨hsplit, -⟩ := h.idle (by decide +kernel)
  have hbatch := h.batch
  -- the pending blocks are a suffix of the delivered ones
  have hsuffix : pending <:+ [(countingBlock 1).storageOps, (countingBlock 2).storageOps] :=
    ⟨flushed.flatten, hsplit.symm⟩
  rcases List.suffix_cons_iff.mp hsuffix with rfl | hsuffix
  · revert hbatch
    decide +kernel
  · rcases List.suffix_cons_iff.mp hsuffix with rfl | hsuffix
    · revert hbatch
      decide +kernel
    · rw [List.suffix_nil.mp hsuffix] at hbatch
      revert hbatch
      decide +kernel

end Samples

end DogeIndexer.Polyphony
