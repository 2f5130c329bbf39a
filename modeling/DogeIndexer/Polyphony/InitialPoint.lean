import DogeIndexer.Polyphony.Rollback

/-!
# The initial point of the rollback buffer

The first mutable block pushes `last_processed` to the rollback buffers as the point that
stands for the state before it.  `last_processed` is set when a batch is flushed, to the block
that triggered the flush, and not when a block is pushed to the batcher.

* `bulk_lastProcessed` — what a bulk phase leaves in `last_processed`.
* `initialPoint_iff` — the initial point describes the state before the first mutable block
  exactly when the last bulk block triggered a flush (or, without bulk blocks, when the worker
  was started from the parent), and the buffer has room for it.
-/

set_option autoImplicit false

namespace DogeIndexer.Polyphony

open Effect

/-! ## Rollback metadata -/

theorem get_removeHeight (rollback : Table MetadataKey Value) (height : Nat) (k : MetadataKey) :
    (removeHeight rollback height).get k = if k.height = height then none else rollback.get k := by
  have hfold : ∀ (ks : List MetadataKey) (t : Table MetadataKey Value),
      (ks.foldl Table.erase t).get k = if k ∈ ks then none else t.get k := by
    intro ks
    induction ks with
    | nil => intro t; rfl
    | cons k₀ ks ih =>
      intro t
      rw [List.foldl_cons, ih, Table.get_erase]
      by_cases hk : k = k₀ <;> simp [hk]
  unfold removeHeight
  rw [hfold]
  by_cases hh : k.height = height
  · rw [if_pos hh]
    split
    · rfl
    · -- a key that is not among the entries reads nothing
      rename_i hnot
      cases hg : rollback.get k with
      | none => rfl
      | some v =>
        refine absurd ?_ hnot
        exact List.mem_filter.mpr ⟨List.mem_map.mpr ⟨(k, v), Table.mem_entries.mpr hg, rfl⟩, by simpa using hh⟩
  · rw [if_neg hh, if_neg]
    intro hmem
    exact hh (by simpa using (List.mem_filter.mp hmem).2)

theorem get_foldl_removeHeight (heights : List Nat) (rollback : Table MetadataKey Value)
    (k : MetadataKey) :
    (heights.foldl removeHeight rollback).get k =
      if k.height ∈ heights then none else rollback.get k := by
  induction heights generalizing rollback with
  | nil => rfl
  | cons h hs ih =>
    rw [List.foldl_cons, ih, get_removeHeight]
    by_cases hk : k.height = h <;> simp [hk]

/-- Garbage collection removes the heights below its bound and nothing else. -/
theorem get_collected (cfg : Config) (rollback : Table MetadataKey Value) (bHeight : Nat)
    (k : MetadataKey) :
    (collected cfg rollback bHeight).get k =
      if k.height < bHeight - cfg.bufferSize then none else rollback.get k := by
  unfold collected
  split
  · rw [get_foldl_removeHeight]
    unfold metadataHeights
    by_cases hlt : k.height < bHeight - cfg.bufferSize
    · rw [if_pos hlt]
      split
      · rfl
      · rename_i hnot
        cases hg : rollback.get k with
        | none => rfl
        | some v =>
          refine absurd (List.mem_dedup.mpr (List.mem_filter.mpr ⟨?_, by simpa using hlt⟩)) hnot
          exact List.mem_map.mpr ⟨(k, v), Table.mem_entries.mpr hg, rfl⟩
    · rw [if_neg hlt, if_neg]
      intro hmem
      exact hlt (by simpa using (List.mem_filter.mp (List.mem_dedup.mp hmem)).2)
  · rename_i hge
    rw [if_neg (by omega)]

/-- The metadata of a block is written under the block's height. -/
theorem get_applyStorageRbActions {rollback rollback' : Table MetadataKey Value}
    {inverseOps : List StorageAction} {height : Nat} {hash : BlockHash}
    (h : applyStorageRbActions rollback inverseOps height hash = some rollback') (k : MetadataKey)
    (hk : k.height ≠ height) : rollback'.get k = rollback.get k := by
  unfold applyStorageRbActions at h
  generalize inverseOps.zipIdx = l at h
  induction l generalizing rollback with
  | nil => cases h; rfl
  | cons e l ih =>
    obtain ⟨action, idx⟩ := e
    rw [List.foldlM_cons] at h
    have hne : k ≠ ⟨height, hash, idx, action.key⟩ := fun he => hk (by rw [he])
    cases action with
    | set k' v => rw [ih h, Table.get_insert, if_neg hne]
    | delete k' => rw [ih h, Table.get_insert, if_neg hne]
    | _ => cases h

/-! ## The bulk phase -/

/-- A block of the bulk phase. -/
structure BulkBlock where
  point : Point
  storageOps : List StorageAction
  mempool : Bool

def BulkBlock.unit (b : BulkBlock) : StorageActionPayload :=
  .rollForward b.point b.storageOps false b.mempool

/-- The batcher after a bulk block. -/
def batcherStep (checks : Bool) (b : SyncBatcher) (block : BulkBlock) : Option SyncBatcher :=
  (if b.shouldFlush block.storageOps then b.wipe else b).pushActions checks block.storageOps

/-- The batcher after a list of bulk blocks. -/
def batcherAfter (checks : Bool) (b : SyncBatcher) (blocks : List BulkBlock) : Option SyncBatcher :=
  blocks.foldlM (batcherStep checks) b

section Bulk

variable {cfg : Config} {w w' : Worker}

theorem pushBlock_ok {ops : List StorageAction} {u : Unit} (h : pushBlock cfg ops w = .ok u w') :
    ∃ b, w.syncBatcher.pushActions cfg.checks ops = some b ∧ w' = { w with syncBatcher := b } := by
  unfold pushBlock at h
  rw [get_bind] at h
  obtain ⟨b, w₁, h₁, h₂⟩ := bind_eq_ok.mp h
  obtain ⟨hb, rfl⟩ := orPanic_ok h₁
  exact ⟨b, hb, modify_eq_ok.mp h₂⟩

/-- **A completed bulk block**: it moves `last_processed` only when it triggers a flush. -/
theorem rollForwardBulk_ok {unit : StorageActionPayload} {block : BulkBlock} {u : Unit}
    (h : rollForwardBulk cfg unit block.point block.storageOps w = .ok u w') :
    batcherStep cfg.checks w.syncBatcher block = some w'.syncBatcher ∧
      w'.lastProcessed = (if w.syncBatcher.shouldFlush block.storageOps then some block.point
        else w.lastProcessed) ∧
      w'.rollback = w.rollback ∧ w'.rollbackBuffer = w.rollbackBuffer ∧ w'.mutable = w.mutable ∧
      (w'.data = w.data ∨ ∃ v v', flushBatch cfg (w.syncBatcher.getBatchActions cfg.order) v = .ok () v' ∧
        v.data = w.data ∧ v'.data = w'.data) := by
  unfold rollForwardBulk at h
  rw [get_bind] at h
  unfold batcherStep
  cases hflush : w.syncBatcher.shouldFlush block.storageOps with
  | true =>
    rw [if_pos hflush, modify_bind] at h
    obtain ⟨_, w₁, h₁, h₂⟩ := bind_eq_ok.mp h
    obtain ⟨view, f₁, rfl⟩ := flushBatch_ok h₁
    rw [modify_bind] at h₂
    obtain ⟨_, w₂, h₃, h₄⟩ := bind_eq_ok.mp h₂
    obtain ⟨registered, f₂, rfl⟩ := maybeAdvertise_ok h₃
    rw [modify_bind] at h₄
    obtain ⟨b, hb, rfl⟩ := pushBlock_ok h₄
    exact ⟨hb, rfl, rfl, rfl, rfl, Or.inr ⟨_, _, h₁, rfl, rfl⟩⟩
  | false =>
    rw [if_neg (by rw [hflush]; exact Bool.false_ne_true)] at h
    obtain ⟨b, hb, rfl⟩ := pushBlock_ok h
    exact ⟨hb, rfl, rfl, rfl, rfl, Or.inl rfl⟩

theorem execute_bulk {block : BulkBlock} (hmut : w.mutable = false) :
    execute cfg block.unit w =
      rollForwardBulk cfg block.unit block.point block.storageOps w := by
  unfold BulkBlock.unit execute
  simp only
  rw [modify_bind, get_bind]
  simp only [hmut, Bool.or_false, Bool.not_false, if_true]
  rw [← hmut]

theorem execute_bulk_ok {block : BulkBlock} {u : Unit} (hmut : w.mutable = false)
    (h : execute cfg block.unit w = .ok u w') :
    batcherStep cfg.checks w.syncBatcher block = some w'.syncBatcher ∧
      w'.lastProcessed = (if w.syncBatcher.shouldFlush block.storageOps then some block.point
        else w.lastProcessed) ∧
      w'.rollback = w.rollback ∧ w'.rollbackBuffer = w.rollbackBuffer ∧ w'.mutable = false := by
  rw [execute_bulk hmut] at h
  obtain ⟨hb, hlast, hrb, hbuf, hm, -⟩ := rollForwardBulk_ok h
  exact ⟨hb, hlast, hrb, hbuf, by rw [hm, hmut]⟩

/-- Units executed one after the other. -/
def executeAll (cfg : Config) (units : List StorageActionPayload) : Exec Unit :=
  units.forM (execute cfg)

theorem executeAll_append {us : List StorageActionPayload} {unit : StorageActionPayload}
    (h : executeAll cfg (us ++ [unit]) w = .ok () w') :
    ∃ w₁, executeAll cfg us w = .ok () w₁ ∧ execute cfg unit w₁ = .ok () w' := by
  induction us generalizing w with
  | nil =>
    obtain ⟨_, w₁, h₁, h₂⟩ := bind_eq_ok.mp h
    cases h₂
    exact ⟨w, rfl, h₁⟩
  | cons u us ih =>
    obtain ⟨_, w₁, h₁, h₂⟩ := bind_eq_ok.mp h
    obtain ⟨w₂, h₃, h₄⟩ := ih h₂
    exact ⟨w₂, bind_eq_ok.mpr ⟨(), w₁, h₁, h₃⟩, h₄⟩

/-- What a bulk phase leaves alone, and its batcher. -/
theorem executeAll_bulk {blocks : List BulkBlock} (hmut : w.mutable = false)
    (h : executeAll cfg (blocks.map BulkBlock.unit) w = .ok () w') :
    batcherAfter cfg.checks w.syncBatcher blocks = some w'.syncBatcher ∧
      w'.rollback = w.rollback ∧ w'.rollbackBuffer = w.rollbackBuffer ∧ w'.mutable = false := by
  induction blocks generalizing w with
  | nil =>
    cases h
    exact ⟨rfl, rfl, rfl, hmut⟩
  | cons b bs ih =>
    obtain ⟨_, w₁, h₁, h₂⟩ := bind_eq_ok.mp h
    obtain ⟨hb, -, hrb, hbuf, hm⟩ := execute_bulk_ok hmut h₁
    obtain ⟨hb', hrb', hbuf', hm'⟩ := ih hm h₂
    refine ⟨?_, by rw [hrb', hrb], by rw [hbuf', hbuf], hm'⟩
    simp only [batcherAfter, List.foldlM_cons, hb]
    exact hb'

/-- Every point a bulk phase leaves in `last_processed` is the one before or that of a block. -/
theorem executeAll_lastProcessed {blocks : List BulkBlock} (hmut : w.mutable = false)
    (h : executeAll cfg (blocks.map BulkBlock.unit) w = .ok () w') :
    w'.lastProcessed = w.lastProcessed ∨ ∃ b ∈ blocks, w'.lastProcessed = some b.point := by
  induction blocks generalizing w with
  | nil =>
    cases h
    exact Or.inl rfl
  | cons b bs ih =>
    obtain ⟨_, w₁, h₁, h₂⟩ := bind_eq_ok.mp h
    obtain ⟨-, hlast, -, -, hm⟩ := execute_bulk_ok hmut h₁
    rcases ih hm h₂ with hsame | ⟨c, hc, hpoint⟩
    · rw [hsame, hlast]
      split
      · exact Or.inr ⟨b, List.mem_cons_self, rfl⟩
      · exact Or.inl rfl
    · exact Or.inr ⟨c, List.mem_cons_of_mem _ hc, hpoint⟩

end Bulk

/-! ## The first mutable block -/

/-- The worker before the bulk phase: nothing in the rollback buffers. -/
def freshWorker (cfg : Config) (data : Store) (intersect : Option Point) (faults : List Bool) : Worker :=
  { Worker.spawn cfg data Table.empty intersect [] with faults := faults }

/-- A bulk phase on consecutive blocks, then the first mutable block `x`, with parent `parent`. -/
structure FirstMutable (cfg : Config) (data : Store) (intersect : Option Point)
    (faults : List Bool) (blocks : List BulkBlock) (x : Point) (ops : List StorageAction)
    (mempool : Bool) (parent : Point) (w₁ w₂ : Worker) : Prop where
  bulk : executeAll cfg (blocks.map BulkBlock.unit) (freshWorker cfg data intersect faults) = .ok () w₁
  first : execute cfg (.rollForward x ops true mempool) w₁ = .ok () w₂
  ascending : ((intersect.toList ++ blocks.map BulkBlock.point).map Point.height).Pairwise (· < ·)
  last : ∀ b, blocks.getLast? = some b → b.point = parent
  height : x.height = parent.height + 1

/-- The initial point of both buffers is the parent of the block just applied, and a rollback to
it is accepted and undoes exactly that block. -/
structure DescribesParent (cfg : Config) (ops : List StorageAction) (parent : Point) (w : Worker) :
    Prop where
  inMemory : w.rollbackBuffer.oldest.map PointWithResult.point = some parent
  persistent : w.rollback.get ⟨parent.height, parent.hash, 0, []⟩ = some []
  accepted : ∀ mutable, ∃ w' actions inverses,
    execute cfg (.rollBack parent mutable) { w with faults := [] } = .ok () w' ∧
      blockActions cfg ops = some actions ∧
      applyActions cfg.checks w'.data actions true = some (w.data, inverses)

/-- The last bulk block triggers a flush; without bulk blocks, the worker starts at the parent. -/
def LastFlushes (cfg : Config) (intersect : Option Point) (blocks : List BulkBlock)
    (parent : Point) : Prop :=
  match blocks.getLast? with
  | none => intersect = some parent
  | some last => ∃ b, batcherAfter cfg.checks (SyncBatcher.new cfg.syncBatchSize cfg.tikvRaftEntryMaxSize)
      blocks.dropLast = some b ∧ b.shouldFlush last.storageOps = true

section First

variable {cfg : Config} {data : Store} {intersect : Option Point} {faults : List Bool}
  {blocks : List BulkBlock} {x : Point} {ops : List StorageAction} {mempool : Bool}
  {parent : Point} {w₁ w₂ : Worker}

/-- **What the bulk phase leaves in `last_processed`.** -/
theorem bulk_lastProcessed
    (h : FirstMutable cfg data intersect faults blocks x ops mempool parent w₁ w₂) :
    w₁.lastProcessed = some parent ↔ LastFlushes cfg intersect blocks parent := by
  have hbulk := h.bulk
  have hasc := h.ascending
  have hlast := h.last
  unfold LastFlushes
  induction blocks using List.reverseRecOn with
  | nil =>
    cases hbulk
    exact Iff.rfl
  | append_singleton bs b _ =>
    have hb : b.point = parent := hlast b (by simp)
    rw [List.map_append, List.map_singleton] at hbulk
    obtain ⟨w, hbs, hexec⟩ := executeAll_append hbulk
    obtain ⟨hbatch, -, -, hmut⟩ := executeAll_bulk rfl hbs
    obtain ⟨-, hlp, -, -, -⟩ := execute_bulk_ok hmut hexec
    rw [hlp]
    simp only [List.getLast?_append, List.getLast?_singleton, Option.some_or, List.dropLast_concat]
    have hbatch' : batcherAfter cfg.checks
        (SyncBatcher.new cfg.syncBatchSize cfg.tikvRaftEntryMaxSize) bs = some w.syncBatcher := hbatch
    rw [hbatch']
    cases hflush : w.syncBatcher.shouldFlush b.storageOps with
    | true => simp [hb, hflush]
    | false =>
      -- an earlier point has a smaller height than the last block's
      simp only [Bool.false_eq_true, if_false, Option.some.injEq, exists_eq_left', hflush, iff_false]
      intro hcontra
      simp only [List.map_append, List.map_cons, List.map_nil, ← List.append_assoc] at hasc
      have hlt := (List.pairwise_append.mp hasc).2.2
      have hsmall : parent.height < b.point.height := by
        refine hlt _ ?_ _ (by simp)
        rcases executeAll_lastProcessed rfl hbs with hsame | ⟨c, hc, hpoint⟩
        · rw [hsame] at hcontra
          have hint : intersect = some parent := hcontra
          simp [hint]
        · rw [hpoint] at hcontra
          cases hcontra
          exact List.mem_append_right _ (List.mem_map.mpr ⟨c.point, List.mem_map.mpr ⟨c, hc, rfl⟩, rfl⟩)
      rw [hb] at hsmall
      omega

/-- What the first mutable block leaves in the buffers. -/
theorem firstMutable_buffers
    (h : FirstMutable cfg data intersect faults blocks x ops mempool parent w₁ w₂) :
    ∃ before rollback rollback₁ inverseOps,
      (∃ actions, blockActions cfg ops = some actions ∧
        applyActions cfg.checks before actions true = some (w₂.data, some inverseOps)) ∧
      initRollback w₁.lastProcessed Table.empty = some rollback₁ ∧
      applyStorageRbActions rollback₁ inverseOps x.height x.hash = some rollback ∧
      w₂.rollback = collected cfg rollback x.height ∧
      w₂.rollbackBuffer.blocks = (⟨x, inverseOps⟩ ::
        [(⟨w₁.lastProcessed.getD originPoint, []⟩ : PointWithResult (List StorageAction))].take
          cfg.bufferSize).take cfg.bufferSize := by
  obtain ⟨-, hrb, hbuf, -⟩ := executeAll_bulk rfl h.bulk
  have hfirst := h.first
  rw [execute_forward_mutable (by simp)] at hfirst
  obtain ⟨before, rollback, inverseOps, hcommit, hrb', hbuf', -⟩ := rollForwardMutable_ok hfirst
  obtain ⟨rollback₁, hinit, hmeta⟩ := hcommit.metadata
  have hblocks : w₁.rollbackBuffer = ⟨[], cfg.bufferSize⟩ := hbuf
  refine ⟨before, rollback, rollback₁, inverseOps, hcommit.actions, ?_, hmeta, hrb', ?_⟩
  · simp only [hblocks, RollbackBuffer.isEmpty, List.isEmpty_nil, if_true] at hinit
    rw [← hinit, hrb]
    rfl
  · rw [hbuf']
    simp only [bufferAfter, hblocks, RollbackBuffer.isEmpty, List.isEmpty_nil, if_true,
      RollbackBuffer.addBlock]

theorem initRollback_some {p : Point} :
    initRollback (some p) Table.empty =
      some ((Table.empty : Table MetadataKey Value).insert ⟨p.height, p.hash, 0, []⟩ []) := rfl

/-- **When the oldest rollback point describes the right state.** -/
theorem initialPoint_iff (cfg : Config) (data : Store) (intersect : Option Point)
    (faults : List Bool) (blocks : List BulkBlock) (x : Point) (ops : List StorageAction)
    (mempool : Bool) (parent : Point) (w₁ w₂ : Worker)
    (h : FirstMutable cfg data intersect faults blocks x ops mempool parent w₁ w₂) :
    DescribesParent cfg ops parent w₂ ↔
      2 ≤ cfg.bufferSize ∧ LastFlushes cfg intersect blocks parent := by
  obtain ⟨before, rollback, rollback₁, inverseOps, ⟨actions, hactions, happ⟩, hinit, hmeta, hrb, hbuf⟩ :=
    firstMutable_buffers h
  have hheight := h.height
  have hne : x ≠ parent := fun he => by rw [he] at hheight; omega
  have hkey : ∀ k : MetadataKey, k.height = parent.height → 1 ≤ cfg.bufferSize →
      w₂.rollback.get k = rollback₁.get k := by
    intro k hk hsize
    rw [hrb, get_collected, if_neg (by omega), get_applyStorageRbActions hmeta k (by omega)]
  rw [← bulk_lastProcessed h]
  constructor
  · intro hd
    have hsize : 2 ≤ cfg.bufferSize := by
      by_contra hlt
      have hmem := hd.inMemory
      rw [RollbackBuffer.oldest, hbuf] at hmem
      have hcases : cfg.bufferSize = 0 ∨ cfg.bufferSize = 1 := by omega
      rcases hcases with hz | ho
      · rw [hz] at hmem
        cases hmem
      · rw [ho] at hmem
        exact hne (Option.some.inj hmem)
    refine ⟨hsize, ?_⟩
    have hpers := hd.persistent
    rw [hkey _ rfl (by omega)] at hpers
    cases hlp : w₁.lastProcessed with
    | none =>
      rw [hlp] at hinit
      cases hinit
      cases hpers
    | some p =>
      rw [hlp, initRollback_some] at hinit
      cases hinit
      rw [Table.get_insert] at hpers
      split at hpers
      · rename_i heq
        cases p
        cases parent
        simp only [MetadataKey.mk.injEq, and_true] at heq
        rw [heq.1, heq.2]
      · cases hpers
  · rintro ⟨hsize, hlp⟩
    rw [hlp] at hinit hbuf
    have htwo : w₂.rollbackBuffer.blocks = [⟨x, inverseOps⟩, ⟨parent, []⟩] := by
      rw [hbuf, List.take_of_length_le (by simp; omega), List.take_of_length_le (by simp; omega)]
      rfl
    have hundo := undo_applyActions (blockActions_nodup hactions) happ
    refine ⟨?_, ?_, ?_⟩
    · rw [RollbackBuffer.oldest, htwo]
      rfl
    · rw [hkey _ rfl (by omega)]
      rw [initRollback_some] at hinit
      cases hinit
      rw [Table.get_insert, if_pos rfl]
    · intro mutable
      have hpos : w₂.rollbackBuffer.position parent = some 1 := by
        rw [RollbackBuffer.position, htwo]
        simp [List.findIdx?_cons, hne]
      have hundoAll : undoBlocks cfg.checks w₂.data (w₂.rollbackBuffer.blocks.take 1) = some before := by
        rw [htwo]
        simp only [undoBlocks, List.take_succ_cons, List.take_zero, List.foldlM_cons, hundo]
        rfl
      rw [execute_back]
      obtain ⟨w', hw'⟩ := rollBack_of_nil
        (w := { w₂ with mutable := w₂.mutable || mutable, faults := [] }) rfl
        (.rollBack parent mutable) hpos hundoAll
      obtain ⟨pos, hpos', hdata, -⟩ := rollBack_ok hw'
      refine ⟨w', actions, some inverseOps, hw', hactions, ?_⟩
      have hone : pos = 1 := Option.some.inj (hpos'.symm.trans hpos)
      rw [hone] at hdata
      have hbefore : w'.data = before := Option.some.inj (hdata.symm.trans hundoAll)
      rw [hbefore]
      exact happ

/-- A bulk block of a given height that moves the cursor. -/
def sampleBlock (height : Nat) (hash : BlockHash) : BulkBlock :=
  ⟨⟨height, hash⟩, [.set [0] [1], .incrementU64 [5] 1], false⟩

/-- The worker a list of units leads to, each completing or not. -/
def workerAfterAll (cfg : Config) (units : List StorageActionPayload) (w : Worker) : Worker :=
  units.foldl (fun w unit => workerAfter cfg unit w) w

/-- Each unit completes in turn. -/
def allComplete (cfg : Config) : List StorageActionPayload → Worker → Bool
  | [], _ => true
  | unit :: units, w => completes cfg unit w && allComplete cfg units (workerAfter cfg unit w)

theorem executeAll_of_complete {units : List StorageActionPayload} {w : Worker}
    (h : allComplete cfg units w = true) :
    executeAll cfg units w = .ok () (workerAfterAll cfg units w) := by
  induction units generalizing w with
  | nil => rfl
  | cons unit units ih =>
    simp only [allComplete, Bool.and_eq_true] at h
    exact bind_eq_ok.mpr ⟨(), _, execute_of_completes h.1, ih h.2⟩

/-- A bulk phase and the first mutable block after it, on an empty store. -/
def sampleBulk (blocks : List BulkBlock) : Worker :=
  workerAfterAll sampleConfig (blocks.map BulkBlock.unit) (freshWorker sampleConfig Table.empty none [])

def sampleFirst (blocks : List BulkBlock) (x : Point) : Worker :=
  workerAfter sampleConfig (.rollForward x [.set [0] [9]] true false) (sampleBulk blocks)

/-- With two blocks in a batch the third block flushes, and is recorded. -/
theorem initialPoint_iff_third_block :
    FirstMutable sampleConfig Table.empty none [] [sampleBlock 1 1, sampleBlock 2 2, sampleBlock 3 3]
        ⟨4, 4⟩ [.set [0] [9]] false ⟨3, 3⟩
        (sampleBulk [sampleBlock 1 1, sampleBlock 2 2, sampleBlock 3 3])
        (sampleFirst [sampleBlock 1 1, sampleBlock 2 2, sampleBlock 3 3] ⟨4, 4⟩) ∧
      DescribesParent sampleConfig [.set [0] [9]] ⟨3, 3⟩
        (sampleFirst [sampleBlock 1 1, sampleBlock 2 2, sampleBlock 3 3] ⟨4, 4⟩) := by
  have h : FirstMutable sampleConfig Table.empty none []
      [sampleBlock 1 1, sampleBlock 2 2, sampleBlock 3 3] ⟨4, 4⟩ [.set [0] [9]] false ⟨3, 3⟩
      (sampleBulk [sampleBlock 1 1, sampleBlock 2 2, sampleBlock 3 3])
      (sampleFirst [sampleBlock 1 1, sampleBlock 2 2, sampleBlock 3 3] ⟨4, 4⟩) := by
    refine ⟨executeAll_of_complete (by decide +kernel), execute_of_completes (by decide +kernel),
      by decide, ?_, rfl⟩
    rintro b ⟨⟩
    rfl
  refine ⟨h, (initialPoint_iff _ _ _ _ _ _ _ _ _ _ _ h).mpr ⟨by decide, ?_⟩⟩
  have hflush : (batcherAfter sampleConfig.checks (SyncBatcher.new 2 100)
      [sampleBlock 1 1, sampleBlock 2 2]).any
        (fun b => b.shouldFlush (sampleBlock 3 3).storageOps) = true := by decide +kernel
  obtain ⟨b, hb, hf⟩ := (Option.any_eq_true ..).mp hflush
  exact ⟨b, hb, hf⟩

/-- After two blocks in a batch nothing was flushed: the third block, the first mutable one,
records the start of the chain instead of its parent. -/
theorem initialPoint_not_parent_within_batch :
    ¬ ∀ (cfg : Config) (data : Store) (intersect : Option Point) (faults : List Bool)
        (blocks : List BulkBlock) (x : Point) (ops : List StorageAction) (mempool : Bool)
        (parent : Point) (w₁ w₂ : Worker),
      FirstMutable cfg data intersect faults blocks x ops mempool parent w₁ w₂ →
        2 ≤ cfg.bufferSize → DescribesParent cfg ops parent w₂ := by
  intro hall
  have h : FirstMutable sampleConfig Table.empty none [] [sampleBlock 1 1, sampleBlock 2 2] ⟨3, 3⟩
      [.set [0] [9]] false ⟨2, 2⟩ (sampleBulk [sampleBlock 1 1, sampleBlock 2 2])
      (sampleFirst [sampleBlock 1 1, sampleBlock 2 2] ⟨3, 3⟩) := by
    refine ⟨executeAll_of_complete (by decide +kernel), execute_of_completes (by decide +kernel),
      by decide, ?_, rfl⟩
    rintro b ⟨⟩
    rfl
  have hmem := (hall _ _ _ _ _ _ _ _ _ _ _ h (by decide)).inMemory
  revert hmem
  decide +kernel

end First

end DogeIndexer.Polyphony
