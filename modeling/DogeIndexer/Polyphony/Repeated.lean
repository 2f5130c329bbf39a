import DogeIndexer.Polyphony.Flush

/-!
# A large flush run again

A large bulk batch is flushed in stages.  After a failure the flush is run again from the start, and
ends where it would have ended, unless the failure is that of the registry update: then every
transaction is committed, the batch is still in the batcher, and its counters move a second time.

* `bulk_flush_fails` — how much a failing bulk unit has committed.
* `staggered_flush_repeats` — exactly when a staggered flush can be repeated.
* `registry_failure_repeats_flush` — a run in which a counter is counted again.
-/

set_option autoImplicit false

namespace DogeIndexer.Polyphony

open Effect

/-! ## What a failing unit has committed -/

section Failing

variable {cfg : Config} {w w' : Worker} {actions : List StorageAction} {b : BulkBlock} {faults : List Bool}

theorem call_fails {e : Error} (h : call w = .error e w') : w.faults[0]? = some true := by
  unfold call at h
  split at h
  · rename_i faults hf
    rw [hf]
    rfl
  · cases h
  · cases h

/-- A transaction that fails without a panic meets a failing call. -/
theorem commitActions_fails (h : commitActions cfg actions w = .error .restart w') :
    true ∈ w.faults.take 2 := by
  rcases bind_eq_error.mp h with h | ⟨_, w₁, h₁, h₂⟩
  · refine List.mem_iff_getElem?.mpr ⟨0, ?_⟩
    rw [List.getElem?_take, if_pos (by decide)]
    exact call_fails h
  rw [get_bind] at h₂
  rcases bind_eq_error.mp h₂ with h | ⟨view, w₂, h₃, h₄⟩
  · cases (orPanic_error h).1
  obtain ⟨-, rfl⟩ := orPanic_ok h₃
  rcases bind_eq_error.mp h₄ with h | ⟨_, w₃, -, h₅⟩
  · have hhead := call_fails h
    rw [(spends_call w w₂ h₁).1, List.getElem?_drop] at hhead
    refine List.mem_iff_getElem?.mpr ⟨1, ?_⟩
    rw [List.getElem?_take, if_pos (by decide)]
    exact hhead
  · exact absurd h₅ modify_ne_error

theorem flushBatch_fails (h : Flushable cfg actions) (hfail : flushBatch cfg actions w = .error .restart w') :
    true ∈ w.faults.take (2 * (flushTransactions cfg actions).length) := by
  rw [flushBatch_eq h] at hfail
  obtain ⟨done, t, rest, w₁, hsplit, hdone, ht⟩ := forM_eq_error hfail
  have hdrop := (Spends.forM (spends_commitActions cfg) done w w₁ hdone).1
  have hin := commitActions_fails ht
  rw [hdrop] at hin
  rw [hsplit, List.length_append, List.length_cons]
  have hsub : (w.faults.drop (2 * done.length)).take 2 <+:
      (w.faults.drop (2 * done.length)).take (2 * (rest.length + 1)) :=
    List.take_prefix_take_left (by omega)
  rw [show 2 * (done.length + (rest.length + 1)) = 2 * done.length + 2 * (rest.length + 1) by omega, List.take_add]
  exact List.mem_append_right _ (hsub.subset hin)

/-- **A bulk unit that fails in a flush** has committed some of the transactions, and all of them exactly
when the registry update failed; the batch stays in the batcher. -/
theorem bulk_flush_fails (hmut : w.mutable = false)
    (hflushable : Flushable cfg (w.syncBatcher.getBatchActions cfg.order))
    (hflush : w.syncBatcher.shouldFlush b.storageOps = true)
    (hfail : execute cfg b.unit { w with faults := faults } = .error .restart w') :
    w'.syncBatcher = w.syncBatcher ∧
      ∃ n ≤ (flushTransactions cfg (w.syncBatcher.getBatchActions cfg.order)).length,
        commitAll cfg.checks w.data
          ((flushTransactions cfg (w.syncBatcher.getBatchActions cfg.order)).take n) = some w'.data ∧
        (n = (flushTransactions cfg (w.syncBatcher.getBatchActions cfg.order)).length ↔
          registryFails cfg w b faults = true) := by
  rw [execute_bulk (by exact hmut)] at hfail
  unfold rollForwardBulk at hfail
  rw [get_bind] at hfail
  simp only [hflush, if_true] at hfail
  rw [modify_bind] at hfail
  rcases bind_eq_error.mp hfail with h | ⟨_, w₁, h₁, h₂⟩
  · obtain ⟨n, hlt, hpart, f, hw'⟩ := flushBatch_failed hflushable h
    refine ⟨by rw [hw'], n, Nat.le_of_lt hlt, hpart, iff_of_false (Nat.ne_of_lt hlt) ?_⟩
    -- one of the calls before the registry update fails
    have hin := flushBatch_fails hflushable h
    unfold registryFails
    simp only [Bool.and_eq_true, List.all_eq_true]
    rintro ⟨⟨-, hall⟩, -⟩
    have := hall true hin
    simp at this
  · obtain ⟨hdata, hw₁, hfalse⟩ := flushBatch_completed hflushable h₁
    rw [hw₁, modify_bind] at h₂
    rcases bind_eq_error.mp h₂ with h | ⟨_, w₂, h₃, h₄⟩
    · obtain ⟨hadv, hin⟩ := maybeAdvertise_fails (by exact hmut) h
      obtain ⟨f, rfl⟩ := maybeAdvertise_error h
      refine ⟨rfl, _, Nat.le_refl _, ?_, iff_of_true rfl ?_⟩
      · rw [List.take_length]
        exact hdata
      · unfold registryFails
        simp only [Bool.and_eq_true, decide_eq_true_eq, List.all_eq_true]
        refine ⟨⟨⟨hflush, hadv⟩, fun x hx => ?_⟩, hin⟩
        have hx' : x = false := hfalse x hx
        rw [hx']
        rfl
    · rw [modify_bind] at h₄
      cases pushBlock_error h₄

end Failing

/-- **A staggered flush can be repeated** exactly when its last transaction is not committed, or no counter
action of the batch counts again.  Over every store and every batch of distinct keys with the cursor set:
until then neither a counter nor the cursor has moved; a flush that completes has committed all
transactions and one that fails a proper prefix; and a bulk unit that fails in such a flush has committed
all of them exactly when the registry update failed.  Batches of reducer output have distinct keys and the
cursor set. -/
theorem staggered_flush_repeats (cfg : Config) (actions : List StorageAction)
    (hn : (actions.map StorageAction.key).Nodup) (v : Value) (hcursor : .set cfg.cursorKey v ∈ actions) :
    (∀ (store store₁ : Store) (n : Nat), n ≤ (staggeredTransactions cfg actions).length →
      commitAll cfg.checks store ((staggeredTransactions cfg actions).take n) = some store₁ →
      (commitAll cfg.checks store₁ (staggeredTransactions cfg actions) =
          commitAll cfg.checks store (staggeredTransactions cfg actions) ↔
        n < (staggeredTransactions cfg actions).length ∨
          ∀ a ∈ actions, a.countsAgain (store.get a.key) = false) ∧
      (n < (staggeredTransactions cfg actions).length →
        ∀ a ∈ actions, isOther a = true ∨ isCursorSet cfg.cursorKey a = true →
          store₁.get a.key = store.get a.key)) ∧
    (∀ w w', applyStaggeredActions cfg actions w = .ok () w' →
      commitAll cfg.checks w.data (staggeredTransactions cfg actions) = some w'.data) ∧
    (∀ w e w', applyStaggeredActions cfg actions w = .error e w' →
      ∃ n < (staggeredTransactions cfg actions).length,
        commitAll cfg.checks w.data ((staggeredTransactions cfg actions).take n) = some w'.data) ∧
    (∀ (w w' : Worker) (b : BulkBlock) (faults : List Bool), w.mutable = false →
      w.syncBatcher.getBatchActions cfg.order = actions → 5000 < actions.length →
      w.syncBatcher.shouldFlush b.storageOps = true →
      execute cfg b.unit { w with faults := faults } = .error .restart w' →
      w'.syncBatcher = w.syncBatcher ∧
        ∃ n ≤ (staggeredTransactions cfg actions).length,
          commitAll cfg.checks w.data ((staggeredTransactions cfg actions).take n) = some w'.data ∧
          (n = (staggeredTransactions cfg actions).length ↔ registryFails cfg w b faults = true)) ∧
    (∀ (b b' : SyncBatcher) (blocks : List (List StorageAction)), b.batchActions = Table.empty →
      blocks ≠ [] →
      (∀ ops ∈ blocks, ∃ v, Keyed.of StorageAction.key ops cfg.cursorKey = [.set cfg.cursorKey v]) →
      blocks.foldlM (fun b ops => b.pushActions cfg.checks ops) b = some b' →
      ((b'.getBatchActions cfg.order).map StorageAction.key).Nodup ∧
        cursorAction cfg (b'.getBatchActions cfg.order) ≠ none) := by
  obtain ⟨cursor, hc⟩ := cursorAction_isSome hcursor
  refine ⟨fun store store₁ n hle hpart => ?_, ?_, ?_, ?_, ?_⟩
  · rcases Nat.lt_or_eq_of_le hle with hlt | rfl
    · obtain ⟨hagain, hkeep⟩ := commitAll_repeat hn hc hlt hpart
      exact ⟨iff_of_true hagain (Or.inl hlt), fun _ => hkeep⟩
    · rw [List.take_length] at hpart
      refine ⟨?_, fun hlt => absurd hlt (Nat.lt_irrefl _)⟩
      rw [hpart, commitAll_again_iff hn hc hpart]
      exact ⟨Or.inr, fun h => h.resolve_left (Nat.lt_irrefl _)⟩
  · intro w w' h
    obtain ⟨faults, hdata, -⟩ := (applyStaggeredActions_commits hc).1 w' h
    exact hdata
  · intro w e w' h
    obtain ⟨n, faults, hlt, hdata, -⟩ := (applyStaggeredActions_commits hc).2 e w' h
    exact ⟨n, hlt, hdata⟩
  · rintro w w' b faults hmut rfl hlarge hflush hfail
    have htransactions : flushTransactions cfg (w.syncBatcher.getBatchActions cfg.order) =
        staggeredTransactions cfg (w.syncBatcher.getBatchActions cfg.order) := if_pos hlarge
    rw [← htransactions]
    exact bulk_flush_fails hmut ⟨hn, fun _ => ⟨cursor, hc⟩⟩ hflush hfail
  · intro b b' blocks hb hne hblocks hpush
    obtain ⟨hnodup, v', hv'⟩ := batch_of_blocks hb hne hblocks hpush
    obtain ⟨c, hc'⟩ := cursorAction_isSome hv'
    exact ⟨hnodup, by rw [hc']; simp⟩

/-- A batch with one action of each kind. -/
def mixedBatch : List StorageAction := [.delete [5], .set [6] [1], .incrementU64 [8] 5, .set [0] [9]]

/-- After the deletes and the sets, the whole flush leads where it led at first. -/
theorem staggered_flush_repeats_mixed :
    (mixedBatch.map StorageAction.key).Nodup ∧
      ∃ store₁, commitAll false Table.empty ((staggeredTransactions sampleConfig mixedBatch).take 2) = some store₁ ∧
        store₁ ≠ Table.empty ∧
        commitAll false store₁ (staggeredTransactions sampleConfig mixedBatch) =
          commitAll false Table.empty (staggeredTransactions sampleConfig mixedBatch) := by
  have hn : (mixedBatch.map StorageAction.key).Nodup := by decide
  obtain ⟨hrepeat, -⟩ := staggered_flush_repeats sampleConfig mixedBatch hn [9] (by decide)
  have hpart : commitAll false Table.empty ((staggeredTransactions sampleConfig mixedBatch).take 2) =
      some (Table.empty.insert [6] [1]) := by decide +kernel
  refine ⟨hn, _, hpart, by decide, ?_⟩
  exact (hrepeat _ _ 2 (by decide +kernel) hpart).1.mpr (Or.inl (by decide +kernel))

/-! ## A large batch is counted twice -/

section Completing

variable {cfg : Config} {w : Worker} {actions : List StorageAction} {rest : List Bool} {data : Store}

/-- A transaction without failing calls. -/
theorem commitActions_of_false (hf : w.faults = false :: false :: rest)
    (h : (applyActions cfg.checks w.data actions false).map Prod.fst = some data) :
    commitActions cfg actions w = .ok () { w with data := data, faults := rest } := by
  obtain ⟨⟨view, r⟩, happ, rfl⟩ := Option.map_eq_some_iff.mp h
  refine bind_eq_ok.mpr ⟨(), { w with faults := false :: rest }, by unfold call; rw [hf], ?_⟩
  rw [get_bind]
  refine bind_eq_ok.mpr ⟨(view, r), { w with faults := false :: rest }, by rw [happ]; rfl, ?_⟩
  exact bind_eq_ok.mpr ⟨(), { w with faults := rest }, rfl, rfl⟩

theorem forM_commit_of_false {ts : List (List StorageAction)}
    (hf : w.faults = List.replicate (2 * ts.length) false ++ rest) (h : commitAll cfg.checks w.data ts = some data) :
    ts.forM (commitActions cfg) w = .ok () { w with data := data, faults := rest } := by
  induction ts generalizing w with
  | nil =>
    cases h
    simp only [List.length_nil, Nat.mul_zero, List.replicate_zero, List.nil_append] at hf
    rw [← hf]
    rfl
  | cons t ts ih =>
    unfold commitAll at h
    rw [List.foldlM_cons] at h
    obtain ⟨d, hd, hrest⟩ := Option.bind_eq_some_iff.mp h
    rw [List.length_cons, Nat.mul_succ, Nat.add_comm, List.replicate_add, List.append_assoc] at hf
    exact bind_eq_ok.mpr ⟨(), _, commitActions_of_false hf hd, ih rfl hrest⟩

/-- The outcomes of a flush whose transactions all commit before a registry update that fails. -/
def registryFailure (cfg : Config) (w : Worker) : List Bool :=
  List.replicate (2 * (flushTransactions cfg (w.syncBatcher.getBatchActions cfg.order)).length) false ++ [true]

/-- **The registry update fails** after a flush: the batch is committed and still pending, and nothing is
to be delivered again. -/
theorem execute_registry_failure {b : BulkBlock} (hmut : w.mutable = false)
    (hflushable : Flushable cfg (w.syncBatcher.getBatchActions cfg.order))
    (hflush : w.syncBatcher.shouldFlush b.storageOps = true) (hadvertise : cfg.advertiseImmediately = true)
    (hnames : 0 < cfg.instanceNames)
    (hdata : commitAll cfg.checks w.data (flushTransactions cfg (w.syncBatcher.getBatchActions cfg.order)) = some data) :
    execute cfg b.unit { w with faults := registryFailure cfg w } =
      .error .restart { w with
        data := data, workUnit2pc := none, lastProcessed := some b.point, faults := [] } := by
  rw [execute_bulk (by exact hmut)]
  unfold rollForwardBulk
  rw [get_bind]
  simp only [hflush, if_true]
  rw [modify_bind]
  have hrun : (flushTransactions cfg (w.syncBatcher.getBatchActions cfg.order)).forM (commitActions cfg)
      { w with workUnit2pc := some b.unit, faults := registryFailure cfg w } =
        .ok () { w with workUnit2pc := some b.unit, data := data, faults := [true] } :=
    forM_commit_of_false rfl hdata
  rw [← flushBatch_eq hflushable] at hrun
  rw [bind_of_ok hrun, modify_bind]
  refine bind_eq_error.mpr (Or.inl ?_)
  have hscores : ∀ v : Worker, v.faults = [true] →
      updateRegistryScores cfg v = .error .restart { v with faults := [] } := by
    intro v hv
    obtain ⟨n, hn⟩ : ∃ n, cfg.instanceNames = n + 1 := ⟨_, (Nat.succ_pred_eq_of_pos hnames).symm⟩
    unfold updateRegistryScores
    rw [hn, List.range_succ_eq_map]
    have hcall : call v = .error .restart { v with faults := [] } := by
      unfold call
      rw [hv]
    exact bind_eq_error.mpr (Or.inl hcall)
  unfold maybeAdvertise
  rw [get_bind]
  simp only [hadvertise, Bool.or_true, Bool.not_true, Bool.false_eq_true, if_false]
  split
  · exact hscores _ rfl
  · exact bind_eq_error.mpr (Or.inl (hscores _ rfl))

end Completing

theorem shouldFlush_of_full {b : SyncBatcher} (h : b.maxLen ≤ b.currentLen) (ops : List StorageAction) :
    b.shouldFlush ops = true := by
  unfold SyncBatcher.shouldFlush
  simp only
  split
  · rfl
  · exact decide_eq_true h

theorem shouldFlush_of_fits {b : SyncBatcher} {ops : List StorageAction} (hlen : b.currentLen < b.maxLen)
    (hsize : (b.estimatedBytes + (ops.map StorageAction.size).sum) * 2 ≤ b.maxBytes) : b.shouldFlush ops = false := by
  unfold SyncBatcher.shouldFlush
  simp only
  rw [if_neg (by omega)]
  exact decide_eq_false (by omega)

/-- Merged from nothing, distinct actions are held as they are. -/
theorem mergeAll_of_nodup (checks : Bool) {ops : List StorageAction} (hn : (ops.map StorageAction.key).Nodup) :
    ∃ held, mergeAll checks Table.empty ops = some held ∧ ∀ a ∈ ops, held.get a.key = some a := by
  obtain ⟨held, hheld⟩ : ∃ held, mergeAll checks Table.empty ops = some held :=
    Keyed.exists_run hn fun a _ => ⟨some a, rfl⟩
  refine ⟨held, hheld, fun a ha => ?_⟩
  exact (Option.some.inj (Keyed.run_get_of_mem hn hheld ha)).symm

/-- On an empty store no action panics. -/
theorem exists_effect_none (checks : Bool) (a : StorageAction) : ∃ o, a.effect checks none = some o := by
  refine Option.ne_none_iff_exists'.mp (fun h => ?_)
  have haborts := (StorageAction.effect_eq_none_iff checks a none).mp h
  cases a <;> cases haborts

section First

variable {cfg : Config} {b next : BulkBlock}

/-- The worker after a first block that fits: nothing is committed, and the block is pending. -/
theorem exists_pending (hn : (b.storageOps.map StorageAction.key).Nodup) (hlen : cfg.syncBatchSize = 1)
    (hsize : (b.storageOps.map StorageAction.size).sum * 2 ≤ cfg.tikvRaftEntryMaxSize) : ∃ w : Worker,
    execute cfg b.unit (Worker.spawn cfg Table.empty Table.empty none []) = .ok () w ∧
      w.mutable = false ∧ w.workUnit2pc = none ∧ w.data = Table.empty ∧
      (∀ ops, w.syncBatcher.shouldFlush ops = true) ∧
      ((w.syncBatcher.getBatchActions cfg.order).map StorageAction.key).Nodup ∧
      ∀ a ∈ b.storageOps, a ∈ w.syncBatcher.getBatchActions cfg.order := by
  obtain ⟨held, hmerge, hheld⟩ := mergeAll_of_nodup cfg.checks hn
  have hpush : (SyncBatcher.new cfg.syncBatchSize cfg.tikvRaftEntryMaxSize).pushActions cfg.checks b.storageOps =
      some ⟨held, cfg.syncBatchSize, 1, cfg.tikvRaftEntryMaxSize, (b.storageOps.map StorageAction.size).sum⟩ := by
    rw [SyncBatcher.pushActions_eq_run]
    show (mergeAll cfg.checks Table.empty b.storageOps).map _ = _
    rw [hmerge]
    simp [SyncBatcher.new]
  have hfits : (SyncBatcher.new cfg.syncBatchSize cfg.tikvRaftEntryMaxSize).shouldFlush b.storageOps = false := by
    refine shouldFlush_of_fits (by rw [hlen]; exact Nat.one_pos) ?_
    show (0 + (b.storageOps.map StorageAction.size).sum) * 2 ≤ cfg.tikvRaftEntryMaxSize
    rw [Nat.zero_add]
    exact hsize
  refine ⟨{ Worker.spawn cfg Table.empty Table.empty none [] with
      syncBatcher := ⟨held, cfg.syncBatchSize, 1, cfg.tikvRaftEntryMaxSize,
        (b.storageOps.map StorageAction.size).sum⟩ }, ?_, rfl, rfl, rfl, shouldFlush_of_full (Nat.le_of_eq hlen),
    values_nodup (mergeAll_wellKeyed wellKeyed_empty hmerge), fun a ha => mem_values.mpr ⟨_, hheld a ha⟩⟩
  have hbatcher : (Worker.spawn cfg Table.empty Table.empty none []).syncBatcher =
      SyncBatcher.new cfg.syncBatchSize cfg.tikvRaftEntryMaxSize := rfl
  rw [execute_bulk rfl]
  unfold rollForwardBulk
  rw [get_bind, hbatcher, hfits, if_neg (by decide)]
  unfold pushBlock
  rw [get_bind]
  refine bind_eq_ok.mpr ⟨_, Worker.spawn cfg Table.empty Table.empty none [], ?_, rfl⟩
  rw [hbatcher, hpush]
  rfl

/-- **A flush is run again whole.**  A first block with more actions than one transaction takes is flushed
when the next one arrives; every transaction commits, and the registry update fails. -/
theorem exists_repeated (cfg : Config) (b next : BulkBlock) (hn : (b.storageOps.map StorageAction.key).Nodup)
    (hlen : cfg.syncBatchSize = 1)
    (hsize : (b.storageOps.map StorageAction.size).sum * 2 ≤ cfg.tikvRaftEntryMaxSize)
    (hlarge : 5000 < b.storageOps.length) {v : Value} (hcursor : .set cfg.cursorKey v ∈ b.storageOps)
    (hnext : ∃ v, Keyed.of StorageAction.key next.storageOps cfg.cursorKey = [.set cfg.cursorKey v])
    (hadvertise : cfg.advertiseImmediately = true) (hnames : 0 < cfg.instanceNames) :
    ∃ w : Worker, BulkRun cfg (fun _ _ _ => True) (Worker.spawn cfg Table.empty Table.empty none []) [b, next] w ∧
      w.workUnit2pc = none ∧ (∀ ops, w.syncBatcher.shouldFlush ops = true) ∧
      5000 < (w.syncBatcher.getBatchActions cfg.order).length ∧
      commitAll cfg.checks Table.empty
        (staggeredTransactions cfg (w.syncBatcher.getBatchActions cfg.order)) = some w.data ∧
      (commitAll cfg.checks w.data
          (staggeredTransactions cfg (w.syncBatcher.getBatchActions cfg.order)) = some w.data →
        ∀ a ∈ b.storageOps, a.countsAgain none = false) := by
  obtain ⟨w, hexec, hmut, h2pc, hdata, hflush, hkeys, hheld⟩ := exists_pending hn hlen hsize
  obtain ⟨cursor, hc⟩ := cursorAction_isSome (hheld _ hcursor)
  have hbatch : 5000 < (w.syncBatcher.getBatchActions cfg.order).length :=
    Nat.lt_of_lt_of_le hlarge (List.subperm_of_subset (List.Nodup.of_map _ hn) hheld).length_le
  have htransactions : flushTransactions cfg (w.syncBatcher.getBatchActions cfg.order) =
      staggeredTransactions cfg (w.syncBatcher.getBatchActions cfg.order) := if_pos hbatch
  have hdistinct := staggeredTransactions_nodup hkeys hc
  obtain ⟨data, hall⟩ : ∃ data, Keyed.run StorageAction.key (StorageAction.effect cfg.checks) Table.empty
      (staggeredTransactions cfg (w.syncBatcher.getBatchActions cfg.order)).flatten = some data :=
    Keyed.exists_run hdistinct fun a _ => exists_effect_none cfg.checks a
  rw [← commitAll_eq_run cfg.checks hdistinct] at hall
  have hfail := execute_registry_failure (b := next) hmut ⟨hkeys, fun _ => ⟨cursor, hc⟩⟩ (hflush next.storageOps)
    hadvertise hnames (by rw [htransactions, hdata]; exact hall)
  have hrun : BulkRun cfg (fun _ _ _ => True) (Worker.spawn cfg Table.empty Table.empty none []) [b] w :=
    .deliver [] .start rfl ⟨v, Keyed.of_eq_singleton hn hcursor⟩ trivial (Or.inl hexec)
  refine ⟨_, hrun.deliver (registryFailure cfg w) h2pc hnext trivial (Or.inr hfail), rfl, hflush, hbatch, hall, ?_⟩
  intro hagain a ha
  exact (commitAll_again_iff hkeys hc hall).mp hagain a (hheld a ha)

end First

section Large

/-- One block a batch, and the instance is advertised at once. -/
def largeConfig : Config :=
  { sampleConfig with syncBatchSize := 1, tikvRaftEntryMaxSize := 2 ^ 20, advertiseImmediately := true }

def counterKey (i : Nat) : Key := [1, Fin.ofNat 256 (i / 256), Fin.ofNat 256 i]

/-- The counters of a large block. -/
def counters (n : Nat) : List StorageAction := (List.range n).map (fun i => .incrementU64 (counterKey i) 1)

/-- A block with `n` counters and the cursor. -/
def largeBlock (n : Nat) : BulkBlock := ⟨⟨1, 0⟩, counters n ++ [.set [0] (cursorValue ⟨1, 0⟩ [])], false⟩

/-- The block after it. -/
def nextBlock : BulkBlock := ⟨⟨2, 0⟩, [.set [0] (cursorValue ⟨2, 0⟩ [])], false⟩

variable {n : Nat}

theorem counterKey_injective {i j : Nat} (hi : i < 2 ^ 16) (hj : j < 2 ^ 16) (h : counterKey i = counterKey j) :
    i = j := by
  simp only [counterKey, List.cons.injEq, true_and, and_true, Fin.ofNat, Fin.mk.injEq] at h
  omega

theorem largeBlock_nodup (hn : n ≤ 2 ^ 16) : ((largeBlock n).storageOps.map StorageAction.key).Nodup := by
  unfold largeBlock counters
  rw [List.map_append, List.map_map]
  refine List.Nodup.append ?_ (List.nodup_singleton _) ?_
  · refine List.Nodup.map_on (fun i hi j hj hij => ?_) List.nodup_range
    have hi' := List.mem_range.mp hi
    have hj' := List.mem_range.mp hj
    exact counterKey_injective (by omega) (by omega) hij
  · intro k hk hk'
    obtain ⟨i, -, rfl⟩ := List.mem_map.mp hk
    simp [StorageAction.key, counterKey] at hk'

theorem largeBlock_size (n : Nat) : ((largeBlock n).storageOps.map StorageAction.size).sum = 11 * n + 41 := by
  have hcounters : (counters n).map StorageAction.size = List.replicate n 11 := by
    unfold counters
    rw [List.map_map]
    refine List.eq_replicate_iff.mpr ⟨by simp, fun m hm => ?_⟩
    obtain ⟨i, -, rfl⟩ := List.mem_map.mp hm
    rfl
  unfold largeBlock
  rw [List.map_append, hcounters, List.sum_append, List.sum_replicate_nat, Nat.mul_comm]
  rfl

theorem largeBlock_length (n : Nat) : (largeBlock n).storageOps.length = n + 1 := by
  unfold largeBlock counters
  rw [List.length_append, List.length_map, List.length_range]
  rfl

/-- **A counter is counted again.**  The registry update fails after every transaction of the flush has
committed: the batch is pending, nothing is to be delivered again, and the coming flush of the same batch
leads to another store. -/
theorem registry_failure_repeats_flush :
    ∃ w : Worker, BulkRun largeConfig (fun _ _ _ => True)
        (Worker.spawn largeConfig Table.empty Table.empty none []) [largeBlock 5000, nextBlock] w ∧
      w.workUnit2pc = none ∧ (∀ ops, w.syncBatcher.shouldFlush ops = true) ∧
      5000 < (w.syncBatcher.getBatchActions largeConfig.order).length ∧
      commitAll largeConfig.checks Table.empty
        (staggeredTransactions largeConfig (w.syncBatcher.getBatchActions largeConfig.order)) = some w.data ∧
      commitAll largeConfig.checks w.data
        (staggeredTransactions largeConfig (w.syncBatcher.getBatchActions largeConfig.order)) ≠ some w.data := by
  have hsize : ((largeBlock 5000).storageOps.map StorageAction.size).sum * 2 ≤ largeConfig.tikvRaftEntryMaxSize := by
    rw [largeBlock_size]
    decide
  obtain ⟨w, hrun, h2pc, hflush, hlarge, hall, hagain⟩ := exists_repeated largeConfig (largeBlock 5000) nextBlock
    (largeBlock_nodup (by decide)) rfl hsize (by rw [largeBlock_length]; decide)
    (List.mem_append_right _ List.mem_cons_self)
    ⟨cursorValue ⟨2, 0⟩ [], by simp [Keyed.of, nextBlock, StorageAction.key, largeConfig, sampleConfig]⟩ rfl (by decide)
  refine ⟨w, hrun, h2pc, hflush, hlarge, hall, fun hsame => ?_⟩
  have hcounts := hagain hsame (.incrementU64 (counterKey 0) 1)
    (List.mem_append_left _ (List.mem_map.mpr ⟨0, List.mem_range.mpr (by decide), rfl⟩))
  cases hcounts

end Large

end DogeIndexer.Polyphony
