import DogeIndexer.Lib.Effect
import DogeIndexer.Polyphony.Batch
import Mathlib.Data.Prod.Lex
import Mathlib.Data.List.Dedup

/-!
# The storage worker

Model of `RollbackBuffer` (`polyphony-xdg/src/rollback/buffer.rs`) and of the storage
`Worker` (`polyphony-xdg/src/storage/tikv.rs`): `execute` with its bulk, mutable and rollback
branches, over the committed store and the persistent rollback metadata.

A call to TiKV or Redis may fail: `faults` lists the outcomes of the coming calls, a failure
being a restart error that keeps what was done before it.  Nothing of a transaction reaches
the store before its commit.
-/

set_option autoImplicit false

namespace DogeIndexer.Polyphony

abbrev BlockHash := Fin (2 ^ 256)

structure Point where
  height : Nat
  hash : BlockHash
  deriving DecidableEq

/-! ## Rollback buffer -/

structure PointWithResult (T : Type) where
  point : Point
  result : T
  deriving DecidableEq

/-- Recently processed points, newest first. -/
structure RollbackBuffer (T : Type) where
  blocks : List (PointWithResult T)
  size : Nat

namespace RollbackBuffer

variable {T : Type}

def new (size : Nat) : RollbackBuffer T := ⟨[], size⟩

def position (b : RollbackBuffer T) (point : Point) : Option Nat :=
  b.blocks.findIdx? (fun p => p.point = point)

def isEmpty (b : RollbackBuffer T) : Bool := b.blocks.isEmpty

/-- `latest`: the front of the buffer. -/
def latest (b : RollbackBuffer T) : Option (PointWithResult T) := b.blocks.head?

/-- `oldest`: the back of the buffer. -/
def oldest (b : RollbackBuffer T) : Option (PointWithResult T) := b.blocks.getLast?

def addBlock (b : RollbackBuffer T) (point : Point) (result : T) : RollbackBuffer T :=
  { b with blocks := (⟨point, result⟩ :: b.blocks).take b.size }

def pointsSince (b : RollbackBuffer T) (point : Point) : Option (List (PointWithResult T)) :=
  (b.position point).map b.blocks.take

def rollbackToPoint (b : RollbackBuffer T) (point : Point) :
    Option (List (PointWithResult T) × RollbackBuffer T) :=
  (b.position point).map fun p => (b.blocks.take p, { b with blocks := b.blocks.drop p })

end RollbackBuffer

/-! ## Worker state -/

/-- Key of the persistent rollback metadata. -/
structure MetadataKey where
  height : Nat
  hash : BlockHash
  operationIdx : Nat
  modifiedKey : Key
  deriving DecidableEq

namespace MetadataKey

/-- Encoded keys sort field by field. -/
def fields (k : MetadataKey) : Nat ×ₗ BlockHash ×ₗ Nat ×ₗ Key :=
  toLex (k.height, toLex (k.hash, toLex (k.operationIdx, k.modifiedKey)))

theorem fields_injective : Function.Injective fields := by
  rintro ⟨h, hash, i, k⟩ ⟨h', hash', i', k'⟩ he
  cases he
  rfl

instance : LinearOrder MetadataKey := LinearOrder.lift' fields fields_injective

end MetadataKey

/-- A message for the storage stage; a block carries the storage actions of its reducer
outputs. -/
inductive StorageActionPayload where
  | rollForward (point : Point) (storageOps : List StorageAction) (mutable mempool : Bool)
  | rollBack (point : Point) (mutable : Bool)
  deriving DecidableEq

structure Config where
  /-- Overflow checks of the build. -/
  checks : Bool
  order : HashOrder
  cursorKey : Key
  syncBatchSize : Nat
  tikvRaftEntryMaxSize : Nat
  bufferSize : Nat
  cleanupLocks : Bool
  advertiseImmediately : Bool
  /-- Number of registries the instance is advertised in. -/
  instanceNames : Nat

structure Worker where
  /-- Committed data keys. -/
  data : Store
  /-- Committed rollback metadata keys. -/
  rollback : Table MetadataKey Value
  syncBatcher : SyncBatcher
  rollbackBuffer : RollbackBuffer (List StorageAction)
  mutable : Bool
  workUnit2pc : Option StorageActionPayload
  lastProcessed : Option Point
  registered : Bool
  /-- Outcomes of the coming fallible calls: `true` fails, and none fails past the end. -/
  faults : List Bool

inductive Error where
  | restart
  | panic
  deriving DecidableEq

abbrev Exec (α : Type) := EStateM Error Worker α

/-- A fallible call (`or_restart`). -/
def call : Exec Unit := fun w =>
  match w.faults with
  | true :: faults => .error .restart { w with faults := faults }
  | false :: faults => .ok () { w with faults := faults }
  | [] => .ok () w

def orPanic {α : Type} : Option α → Exec α
  | some a => pure a
  | none => throw .panic

/-- `if c { x }`. -/
def whenM (c : Bool) (x : Exec Unit) : Exec Unit := if c then x else pure ()

/-! ## Transactions -/

/-- Begin a transaction, apply the actions without inverses, commit. -/
def commitActions (cfg : Config) (actions : List StorageAction) : Exec Unit := do
  call
  let w ← get
  let (view, _) ← orPanic (applyActions cfg.checks w.data actions false)
  call
  modify fun w => { w with data := view }

/-- `chunks(n)`, for `n` positive. -/
def chunks {α : Type} (n : Nat) : Nat → List α → List (List α)
  | 0, _ => []
  | fuel + 1, l => if l.isEmpty then [] else l.take n :: chunks n fuel (l.drop n)

def isDelete : StorageAction → Bool
  | .delete _ => true
  | _ => false

/-- `Set(ref x, _) if *x == cursor`. -/
def isCursorSet (cursorKey : Key) : StorageAction → Bool
  | .set k _ => k = cursorKey
  | _ => false

/-- A `Set` of any other key. -/
def isOtherSet (cursorKey : Key) : StorageAction → Bool
  | .set k _ => k ≠ cursorKey
  | _ => false

/-- `Insert` and the counters. -/
def isOther : StorageAction → Bool
  | .delete _ => false
  | .set _ _ => false
  | _ => true

/-- `apply_staggered_actions`: deletes, chunks of sets, then the others with the cursor, each in
a transaction of its own. -/
def applyStaggeredActions (cfg : Config) (actions : List StorageAction) : Exec Unit := do
  let dels := actions.filter isDelete
  let sets := actions.filter (isOtherSet cfg.cursorKey)
  let others := actions.filter isOther
  let cursorAction := (actions.filter (isCursorSet cfg.cursorKey)).getLast?
  commitActions cfg dels
  (chunks 5000 sets.length sets).forM (commitActions cfg)
  let cursor ← orPanic cursorAction
  commitActions cfg (others ++ [cursor])

/-- `apply_storage_rb_actions`: the metadata table with the inverses of a block. -/
def applyStorageRbActions (rollback : Table MetadataKey Value) (inverseOps : List StorageAction)
    (bHeight : Nat) (bHash : BlockHash) : Option (Table MetadataKey Value) :=
  inverseOps.zipIdx.foldlM (fun acc (action, idx) =>
    let key : MetadataKey := ⟨bHeight, bHash, idx, action.key⟩
    match action with
    | .set _ v => some (acc.insert key v)
    | .delete _ => some (acc.insert key [])
    | _ => none) rollback

/-- Heights of the metadata keys in a range, ascending. -/
def metadataHeights (rollback : Table MetadataKey Value) (inRange : Nat → Bool) : List Nat :=
  ((rollback.entries.map (fun e => e.1.height)).filter inRange).dedup

/-- Delete the metadata keys of one height. -/
def removeHeight (rollback : Table MetadataKey Value) (height : Nat) : Table MetadataKey Value :=
  ((rollback.entries.map Prod.fst).filter (fun k => k.height = height)).foldl Table.erase rollback

/-- One transaction for each height. -/
def removeHeights (heights : List Nat) : Exec Unit := do
  call
  heights.forM fun height => do
    call
    modify fun w => { w with rollback := removeHeight w.rollback height }

/-- `garbage_collect_rollback_metadata`. -/
def garbageCollectRollbackMetadata (cfg : Config) (bHeight : Nat) : Exec Unit :=
  whenM (bHeight ≥ cfg.bufferSize) do
    let w ← get
    removeHeights (metadataHeights w.rollback (· < bHeight - cfg.bufferSize))

/-- `trim_persistent_rollback_metadata`: newest heights first. -/
def trimPersistentRollbackMetadata (afterHeight : Nat) : Exec Unit := do
  let w ← get
  removeHeights (metadataHeights w.rollback (· > afterHeight)).reverse

/-! ## Registry -/

/-- `update_registry_scores`: one Redis call for each registry. -/
def updateRegistryScores (cfg : Config) : Exec Unit := (List.range cfg.instanceNames).forM fun _ => call

def maybeAdvertise (cfg : Config) : Exec Unit := do
  let w ← get
  if w.registered then updateRegistryScores cfg
  else if !(w.mutable || cfg.advertiseImmediately) then pure ()
  else do
    updateRegistryScores cfg
    modify fun w => { w with registered := true }

/-- Lock cleanup and the Redis entry of a commit. -/
def recordTimestamp (cfg : Config) : Exec Unit := do
  whenM cfg.cleanupLocks call
  call
  call
  maybeAdvertise cfg

/-! ## Units -/

/-- Flush of a batch in bulk mode. -/
def flushBatch (cfg : Config) (actions : List StorageAction) : Exec Unit :=
  if actions.length > 5000 then applyStaggeredActions cfg actions else commitActions cfg actions

def pushBlock (cfg : Config) (storageOps : List StorageAction) : Exec Unit := do
  let w ← get
  let b ← orPanic (w.syncBatcher.pushActions cfg.checks storageOps)
  modify fun w => { w with syncBatcher := b }

/-- `RollForward`, chain not mutable: batched transactions without inverses. -/
def rollForwardBulk (cfg : Config) (unit : StorageActionPayload) (point : Point)
    (storageOps : List StorageAction) : Exec Unit := do
  let w ← get
  if w.syncBatcher.shouldFlush storageOps then do
    modify fun w => { w with workUnit2pc := some unit }
    flushBatch cfg (w.syncBatcher.getBatchActions cfg.order)
    modify fun w => { w with workUnit2pc := none, lastProcessed := some point }
    maybeAdvertise cfg
    modify fun w => { w with syncBatcher := w.syncBatcher.wipe }
    pushBlock cfg storageOps
  else pushBlock cfg storageOps

/-- The point that stands for the start of the chain. -/
def originPoint : Point := ⟨0, 0⟩

/-- The first mutable block: the last point goes into the persistent buffer. -/
def initRollback (lastProcessed : Option Point) (rollback : Table MetadataKey Value) :
    Option (Table MetadataKey Value) :=
  match lastProcessed with
  | some p => applyStorageRbActions rollback [.delete []] p.height p.hash
  | none => some rollback

/-- Flush what remains in the batcher from the bulk phase. -/
def flushRemaining (cfg : Config) : Exec Unit := do
  let w ← get
  whenM (!w.syncBatcher.isEmpty) do
    applyStaggeredActions cfg (w.syncBatcher.getBatchActions cfg.order)
    modify fun w => { w with syncBatcher := w.syncBatcher.wipe }

/-- The transaction of a mutable block: its actions, the metadata of their inverses, and the
initial point when the buffer was empty. -/
def commitMutable (cfg : Config) (firstMutable : Bool) (point : Point)
    (storageOps : List StorageAction) : Exec (List StorageAction) := do
  call
  let merger ← orPanic ((SyncBatcher.new 1 (2 ^ 64 - 1)).pushActions cfg.checks storageOps)
  let w ← get
  let (view, inverses) ← orPanic (applyActions cfg.checks w.data (merger.getBatchActions cfg.order) true)
  let inverseOps ← orPanic inverses
  let rollback ← orPanic (if firstMutable then initRollback w.lastProcessed w.rollback
    else some w.rollback)
  let rollback ← orPanic (applyStorageRbActions rollback inverseOps point.height point.hash)
  call
  modify fun w => { w with data := view, rollback := rollback }
  return inverseOps

/-- `RollForward`, chain mutable. -/
def rollForwardMutable (cfg : Config) (unit : StorageActionPayload) (point : Point)
    (storageOps : List StorageAction) : Exec Unit := do
  let w ← get
  let firstMutable := w.rollbackBuffer.isEmpty
  modify fun w => { w with workUnit2pc := some unit }
  flushRemaining cfg
  let inverseOps ← commitMutable cfg firstMutable point storageOps
  modify fun w => { w with workUnit2pc := none }
  whenM firstMutable (modify fun w => { w with
    rollbackBuffer := w.rollbackBuffer.addBlock (w.lastProcessed.getD originPoint) [] })
  modify fun w => { w with
    lastProcessed := some point
    rollbackBuffer := w.rollbackBuffer.addBlock point inverseOps }
  recordTimestamp cfg
  garbageCollectRollbackMetadata cfg point.height

/-- `RollBack`. -/
def rollBack (cfg : Config) (unit : StorageActionPayload) (point : Point) : Exec Unit := do
  modify fun w => { w with workUnit2pc := some unit }
  let w ← get
  let points ← orPanic (w.rollbackBuffer.pointsSince point)
  points.forM fun p => commitActions cfg p.result.reverse
  whenM (!points.isEmpty) (recordTimestamp cfg)
  trimPersistentRollbackMetadata point.height
  modify fun w => { w with workUnit2pc := none, lastProcessed := some point }
  let w ← get
  let (_, buffer) ← orPanic (w.rollbackBuffer.rollbackToPoint point)
  modify fun w => { w with rollbackBuffer := buffer }

/-- `Worker::execute`. -/
def execute (cfg : Config) (unit : StorageActionPayload) : Exec Unit :=
  match unit with
  | .rollForward point storageOps mutable _ => do
    modify fun w => { w with mutable := w.mutable || mutable }
    let w ← get
    if !w.mutable then rollForwardBulk cfg unit point storageOps
    else rollForwardMutable cfg unit point storageOps
  | .rollBack point mutable => do
    modify fun w => { w with mutable := w.mutable || mutable }
    rollBack cfg unit point

/-- The worker that `spawn_stages` builds, over the stored data. -/
def Worker.spawn (cfg : Config) (data : Store) (rollback : Table MetadataKey Value)
    (intersect : Option Point) (persistentBuf : List (PointWithResult (List StorageAction))) :
    Worker where
  data := data
  rollback := rollback
  syncBatcher := SyncBatcher.new cfg.syncBatchSize cfg.tikvRaftEntryMaxSize
  rollbackBuffer := persistentBuf.foldl (fun b e => b.addBlock e.point e.result)
    (RollbackBuffer.new cfg.bufferSize)
  mutable := false
  workUnit2pc := none
  lastProcessed := intersect
  registered := false
  faults := []

/-! ## What a completed step changes -/

section Completed

open Effect

variable {cfg : Config} {w w' : Worker}

theorem call_ok {u : Unit} (h : call w = .ok u w') : ∃ faults, w' = { w with faults := faults } := by
  unfold call at h
  split at h
  · cases h
  · rename_i faults _
    cases h
    exact ⟨faults, rfl⟩
  · cases h
    exact ⟨w.faults, rfl⟩

theorem orPanic_ok {α : Type} {o : Option α} {a : α} (h : orPanic o w = .ok a w') :
    o = some a ∧ w' = w := by
  cases o with
  | none => exact absurd h throw_ne_ok
  | some b =>
    obtain ⟨rfl, rfl⟩ := pure_eq_ok.mp h
    exact ⟨rfl, rfl⟩

theorem whenM_ok {c : Bool} {x : Exec Unit} {u : Unit} (h : whenM c x w = .ok u w') :
    (c = true ∧ x w = .ok u w') ∨ (c = false ∧ w' = w) := by
  unfold whenM at h
  cases c with
  | true => exact Or.inl ⟨rfl, h⟩
  | false => exact Or.inr ⟨rfl, (pure_eq_ok.mp h).2.symm⟩

/-- A committed transaction writes the data keys only. -/
theorem commitActions_ok {actions : List StorageAction} {u : Unit}
    (h : commitActions cfg actions w = .ok u w') :
    ∃ view r faults, applyActions cfg.checks w.data actions false = some (view, r) ∧
      w' = { w with data := view, faults := faults } := by
  obtain ⟨_, w₁, h₁, h₂⟩ := bind_eq_ok.mp h
  obtain ⟨f₁, rfl⟩ := call_ok h₁
  rw [get_bind] at h₂
  obtain ⟨⟨view, r⟩, w₂, happ, h₃⟩ := bind_eq_ok.mp h₂
  obtain ⟨hview, rfl⟩ := orPanic_ok happ
  obtain ⟨_, w₃, h₄, h₅⟩ := bind_eq_ok.mp h₃
  obtain ⟨f₂, rfl⟩ := call_ok h₄
  rw [modify_eq_ok.mp h₅]
  exact ⟨view, r, f₂, hview, rfl⟩

/-- Transactions one after another. -/
theorem forM_commit_ok {α : Type} {f : α → List StorageAction} {l : List α} {u : Unit}
    (h : l.forM (fun a => commitActions cfg (f a)) w = .ok u w') :
    ∃ data faults,
      l.foldlM (fun d a => (applyActions cfg.checks d (f a) false).map Prod.fst) w.data = some data ∧
        w' = { w with data := data, faults := faults } := by
  -- the invariant: the transactions that are left lead to the same store
  have hend := forM_induct (P := fun l' v => ∃ data faults,
      v = { w with data := data, faults := faults } ∧
        l'.foldlM (fun d a => (applyActions cfg.checks d (f a) false).map Prod.fst) data =
          l.foldlM (fun d a => (applyActions cfg.checks d (f a) false).map Prod.fst) w.data)
    (fun a l' s s' => by
      rintro ⟨data, faults, rfl, heq⟩ hs
      obtain ⟨view, r, faults', happ, rfl⟩ := commitActions_ok hs
      refine ⟨view, faults', rfl, ?_⟩
      rw [← heq]
      simp only [List.foldlM_cons, happ]
      rfl) ⟨w.data, w.faults, rfl, rfl⟩ h
  obtain ⟨data, faults, rfl, heq⟩ := hend
  exact ⟨data, faults, heq.symm, rfl⟩

/-- A staggered flush writes the data keys only. -/
theorem applyStaggeredActions_ok {actions : List StorageAction} {u : Unit}
    (h : applyStaggeredActions cfg actions w = .ok u w') :
    ∃ view faults, w' = { w with data := view, faults := faults } := by
  obtain ⟨_, w₁, h₁, h₂⟩ := bind_eq_ok.mp h
  obtain ⟨v₁, _, f₁, -, rfl⟩ := commitActions_ok h₁
  obtain ⟨_, w₂, h₃, h₄⟩ := bind_eq_ok.mp h₂
  obtain ⟨v₂, f₂, -, rfl⟩ := forM_commit_ok h₃
  obtain ⟨cursor, w₃, h₅, h₆⟩ := bind_eq_ok.mp h₄
  obtain ⟨-, rfl⟩ := orPanic_ok h₅
  obtain ⟨v₃, _, f₃, -, rfl⟩ := commitActions_ok h₆
  exact ⟨v₃, f₃, rfl⟩

theorem updateRegistryScores_ok {u : Unit} (h : updateRegistryScores cfg w = .ok u w') :
    ∃ faults, w' = { w with faults := faults } := by
  refine forM_induct (P := fun _ v => ∃ faults, v = { w with faults := faults }) ?_ ⟨w.faults, rfl⟩ h
  rintro a l s s' ⟨faults, rfl⟩ hs
  obtain ⟨faults', rfl⟩ := call_ok hs
  exact ⟨faults', rfl⟩

theorem maybeAdvertise_ok {u : Unit} (h : maybeAdvertise cfg w = .ok u w') :
    ∃ registered faults, w' = { w with registered := registered, faults := faults } := by
  unfold maybeAdvertise at h
  rw [get_bind] at h
  split at h
  · obtain ⟨faults, rfl⟩ := updateRegistryScores_ok h
    exact ⟨_, faults, rfl⟩
  · split at h
    · obtain ⟨-, rfl⟩ := pure_eq_ok.mp h
      exact ⟨_, _, rfl⟩
    · obtain ⟨_, w₁, h₁, h₂⟩ := bind_eq_ok.mp h
      obtain ⟨faults, rfl⟩ := updateRegistryScores_ok h₁
      rw [modify_eq_ok.mp h₂]
      exact ⟨true, faults, rfl⟩

theorem recordTimestamp_ok {u : Unit} (h : recordTimestamp cfg w = .ok u w') :
    ∃ registered faults, w' = { w with registered := registered, faults := faults } := by
  obtain ⟨_, w₁, h₁, h₂⟩ := bind_eq_ok.mp h
  have hcleanup : ∃ faults, w₁ = { w with faults := faults } := by
    rcases whenM_ok h₁ with ⟨-, hc⟩ | ⟨-, rfl⟩
    · exact call_ok hc
    · exact ⟨_, rfl⟩
  obtain ⟨f₁, rfl⟩ := hcleanup
  obtain ⟨_, w₂, h₃, h₄⟩ := bind_eq_ok.mp h₂
  obtain ⟨f₂, rfl⟩ := call_ok h₃
  obtain ⟨_, w₃, h₅, h₆⟩ := bind_eq_ok.mp h₄
  obtain ⟨f₃, rfl⟩ := call_ok h₅
  obtain ⟨registered, faults, rfl⟩ := maybeAdvertise_ok h₆
  exact ⟨registered, faults, rfl⟩

/-- Removing heights writes the rollback metadata only. -/
theorem removeHeights_ok {heights : List Nat} {u : Unit} (h : removeHeights heights w = .ok u w') :
    ∃ faults, w' = { w with rollback := heights.foldl removeHeight w.rollback, faults := faults } := by
  obtain ⟨_, w₁, h₁, h₂⟩ := bind_eq_ok.mp h
  obtain ⟨f₁, rfl⟩ := call_ok h₁
  -- the invariant: the heights still to remove lead to the same table
  have hend := forM_induct (P := fun l v => ∃ rollback faults,
      v = { w with rollback := rollback, faults := faults } ∧
        l.foldl removeHeight rollback = heights.foldl removeHeight w.rollback)
    (fun a l s s' => by
      rintro ⟨rollback, faults, rfl, heq⟩ hs
      obtain ⟨_, w₂, hc, hm⟩ := bind_eq_ok.mp hs
      obtain ⟨f, rfl⟩ := call_ok hc
      rw [modify_eq_ok.mp hm]
      exact ⟨removeHeight rollback a, f, rfl, heq⟩) ⟨w.rollback, f₁, rfl, rfl⟩ h₂
  obtain ⟨rollback, faults, rfl, heq⟩ := hend
  exact ⟨faults, by rw [← heq]; rfl⟩

/-- The metadata that garbage collection keeps. -/
def collected (cfg : Config) (rollback : Table MetadataKey Value) (bHeight : Nat) :
    Table MetadataKey Value :=
  if bHeight ≥ cfg.bufferSize then
    (metadataHeights rollback (· < bHeight - cfg.bufferSize)).foldl removeHeight rollback
  else rollback

theorem garbageCollect_ok {bHeight : Nat} {u : Unit}
    (h : garbageCollectRollbackMetadata cfg bHeight w = .ok u w') :
    ∃ faults, w' = { w with rollback := collected cfg w.rollback bHeight, faults := faults } := by
  unfold collected
  rcases whenM_ok h with ⟨hc, hgc⟩ | ⟨hc, rfl⟩
  · rw [get_bind] at hgc
    obtain ⟨faults, rfl⟩ := removeHeights_ok hgc
    rw [if_pos (by simpa using hc)]
    exact ⟨faults, rfl⟩
  · rw [if_neg (by simpa using hc)]
    exact ⟨_, rfl⟩

theorem trim_ok {afterHeight : Nat} {u : Unit}
    (h : trimPersistentRollbackMetadata afterHeight w = .ok u w') :
    ∃ faults, w' = { w with
      rollback := (metadataHeights w.rollback (· > afterHeight)).reverse.foldl removeHeight w.rollback
      faults := faults } := by
  unfold trimPersistentRollbackMetadata at h
  rw [get_bind] at h
  exact removeHeights_ok h

/-- The flush of a bulk batch writes the data keys only. -/
theorem flushBatch_ok {actions : List StorageAction} {u : Unit}
    (h : flushBatch cfg actions w = .ok u w') :
    ∃ view faults, w' = { w with data := view, faults := faults } := by
  unfold flushBatch at h
  split at h
  · exact applyStaggeredActions_ok h
  · obtain ⟨view, _, faults, -, rfl⟩ := commitActions_ok h
    exact ⟨view, faults, rfl⟩

/-- After the leftovers are flushed the batcher is empty; an empty batcher flushes nothing. -/
theorem flushRemaining_ok {u : Unit} (h : flushRemaining cfg w = .ok u w') :
    ∃ view batcher faults,
      w' = { w with data := view, syncBatcher := batcher, faults := faults } ∧
        batcher.isEmpty = true ∧ (w.syncBatcher.isEmpty = true → view = w.data) := by
  unfold flushRemaining at h
  rw [get_bind] at h
  rcases whenM_ok h with ⟨hne, hf⟩ | ⟨he, rfl⟩
  · obtain ⟨_, w₁, h₁, h₂⟩ := bind_eq_ok.mp hf
    obtain ⟨view, faults, rfl⟩ := applyStaggeredActions_ok h₁
    rw [modify_eq_ok.mp h₂]
    refine ⟨view, _, faults, rfl, rfl, fun he => ?_⟩
    rw [he] at hne
    cases hne
  · exact ⟨_, _, _, rfl, by simpa using he, fun _ => rfl⟩

/-- The merged actions of a single block. -/
def blockActions (cfg : Config) (storageOps : List StorageAction) : Option (List StorageAction) :=
  ((SyncBatcher.new 1 (2 ^ 64 - 1)).pushActions cfg.checks storageOps).map
    (SyncBatcher.getBatchActions cfg.order)

theorem blockActions_nodup {storageOps actions : List StorageAction}
    (h : blockActions cfg storageOps = some actions) : (actions.map StorageAction.key).Nodup := by
  obtain ⟨merger, hpush, rfl⟩ := Option.map_eq_some_iff.mp h
  rw [SyncBatcher.pushActions_eq_run] at hpush
  obtain ⟨held, hheld, rfl⟩ := Option.map_eq_some_iff.mp hpush
  exact values_nodup (mergeAll_wellKeyed wellKeyed_empty hheld)

/-- What the transaction of a mutable block does: `before` becomes `after`, with `inverseOps`
recorded, and the metadata table `rollback` becomes `rollback'`. -/
structure BlockCommit (cfg : Config) (initial : Option (Option Point)) (point : Point)
    (storageOps : List StorageAction) (before after : Store)
    (rollback rollback' : Table MetadataKey Value) (inverseOps : List StorageAction) : Prop where
  actions : ∃ actions, blockActions cfg storageOps = some actions ∧
    applyActions cfg.checks before actions true = some (after, some inverseOps)
  metadata : ∃ rollback₁, (match initial with
      | some lastProcessed => initRollback lastProcessed rollback
      | none => some rollback) = some rollback₁ ∧
    applyStorageRbActions rollback₁ inverseOps point.height point.hash = some rollback'

/-- **The transaction of a mutable block.** -/
theorem commitMutable_ok {firstMutable : Bool} {point : Point} {storageOps inverseOps : List StorageAction}
    (h : commitMutable cfg firstMutable point storageOps w = .ok inverseOps w') :
    ∃ (view : Store) (rollback : Table MetadataKey Value) (faults : List Bool),
      BlockCommit cfg (if firstMutable then some w.lastProcessed else none) point storageOps
        w.data view w.rollback rollback inverseOps ∧
      w' = { w with data := view, rollback := rollback, faults := faults } := by
  obtain ⟨_, w₁, h₁, h₂⟩ := bind_eq_ok.mp h
  obtain ⟨f₁, rfl⟩ := call_ok h₁
  obtain ⟨merger, w₂, h₃, h₄⟩ := bind_eq_ok.mp h₂
  obtain ⟨hpush, rfl⟩ := orPanic_ok h₃
  rw [get_bind] at h₄
  obtain ⟨⟨view, inverses⟩, w₃, h₅, h₆⟩ := bind_eq_ok.mp h₄
  obtain ⟨happ, rfl⟩ := orPanic_ok h₅
  obtain ⟨ops, w₄, h₇, h₈⟩ := bind_eq_ok.mp h₆
  obtain ⟨rfl, rfl⟩ := orPanic_ok h₇
  obtain ⟨rb₁, w₅, h₉, h₁₀⟩ := bind_eq_ok.mp h₈
  obtain ⟨hrb₁, rfl⟩ := orPanic_ok h₉
  obtain ⟨rb₂, w₆, h₁₁, h₁₂⟩ := bind_eq_ok.mp h₁₀
  obtain ⟨hrb₂, rfl⟩ := orPanic_ok h₁₁
  obtain ⟨_, w₇, h₁₃, h₁₄⟩ := bind_eq_ok.mp h₁₂
  obtain ⟨f₂, rfl⟩ := call_ok h₁₃
  rw [modify_bind] at h₁₄
  obtain ⟨rfl, rfl⟩ := pure_eq_ok.mp h₁₄
  refine ⟨view, rb₂, f₂, ⟨⟨_, ?_, happ⟩, rb₁, ?_, hrb₂⟩, rfl⟩
  · rw [blockActions, hpush]
    rfl
  · cases firstMutable <;> exact hrb₁

/-- The buffer after a mutable block. -/
def bufferAfter (w : Worker) (point : Point) (inverseOps : List StorageAction) :
    RollbackBuffer (List StorageAction) :=
  (if w.rollbackBuffer.isEmpty then
    w.rollbackBuffer.addBlock (w.lastProcessed.getD originPoint) []
    else w.rollbackBuffer).addBlock point inverseOps

/-- **A completed mutable block.** -/
theorem rollForwardMutable_ok {unit : StorageActionPayload} {point : Point}
    {storageOps : List StorageAction} {u : Unit}
    (h : rollForwardMutable cfg unit point storageOps w = .ok u w') :
    ∃ (before : Store) (rollback : Table MetadataKey Value) (inverseOps : List StorageAction),
      BlockCommit cfg (if w.rollbackBuffer.isEmpty then some w.lastProcessed else none) point
        storageOps before w'.data w.rollback rollback inverseOps ∧
      w'.rollback = collected cfg rollback point.height ∧
      w'.rollbackBuffer = bufferAfter w point inverseOps ∧
      w'.syncBatcher.isEmpty = true ∧ (w.syncBatcher.isEmpty = true → before = w.data) ∧
      w'.lastProcessed = some point ∧ w'.mutable = w.mutable ∧
      ∃ v, flushRemaining cfg { w with workUnit2pc := some unit } = .ok () v ∧ v.data = before := by
  unfold rollForwardMutable at h
  rw [get_bind, modify_bind] at h
  obtain ⟨_, w₁, h₁, h₂⟩ := bind_eq_ok.mp h
  obtain ⟨before, batcher, f₁, rfl, hempty, hbefore⟩ := flushRemaining_ok h₁
  obtain ⟨inverseOps, w₂, h₃, h₄⟩ := bind_eq_ok.mp h₂
  obtain ⟨view, rollback, f₂, hcommit, rfl⟩ := commitMutable_ok h₃
  rw [modify_bind] at h₄
  obtain ⟨_, w₃, h₅, h₆⟩ := bind_eq_ok.mp h₄
  rw [modify_bind] at h₆
  obtain ⟨_, w₄, h₇, h₈⟩ := bind_eq_ok.mp h₆
  obtain ⟨registered, f₃, rfl⟩ := recordTimestamp_ok h₇
  obtain ⟨f₄, rfl⟩ := garbageCollect_ok h₈
  refine ⟨before, rollback, inverseOps, ?_⟩
  rcases whenM_ok h₅ with ⟨hfirst, hm⟩ | ⟨hfirst, rfl⟩
  · rw [modify_eq_ok.mp hm]
    exact ⟨hcommit, rfl, by simp [bufferAfter, hfirst], hempty, hbefore, rfl, rfl, _, h₁, rfl⟩
  · exact ⟨hcommit, rfl, by simp [bufferAfter, hfirst], hempty, hbefore, rfl, rfl, _, h₁, rfl⟩

end Completed

/-! ## What a failed step leaves -/

section Failed

open Effect

variable {cfg : Config} {w w' : Worker} {e : Error}

theorem call_error (h : call w = .error e w') : e = .restart ∧ ∃ faults, w' = { w with faults := faults } := by
  unfold call at h
  split at h
  · rename_i faults _
    cases h
    exact ⟨rfl, faults, rfl⟩
  · cases h
  · cases h

theorem orPanic_error {α : Type} {o : Option α} (h : orPanic o w = .error e w') : e = .panic ∧ w' = w := by
  cases o with
  | none =>
    obtain ⟨rfl, rfl⟩ := throw_eq_error.mp h
    exact ⟨rfl, rfl⟩
  | some a => exact absurd h pure_ne_error

/-- A transaction that is not committed writes nothing. -/
theorem commitActions_error {actions : List StorageAction} (h : commitActions cfg actions w = .error e w') :
    ∃ faults, w' = { w with faults := faults } := by
  rcases bind_eq_error.mp h with h | ⟨_, w₁, h₁, h₂⟩
  · exact (call_error h).2
  obtain ⟨f₁, rfl⟩ := call_ok h₁
  rw [get_bind] at h₂
  rcases bind_eq_error.mp h₂ with h | ⟨view, w₂, h₃, h₄⟩
  · exact ⟨f₁, (orPanic_error h).2⟩
  obtain ⟨-, rfl⟩ := orPanic_ok h₃
  rcases bind_eq_error.mp h₄ with h | ⟨_, w₃, h₅, h₆⟩
  · obtain ⟨-, f₂, rfl⟩ := call_error h
    exact ⟨f₂, rfl⟩
  · exact absurd h₆ modify_ne_error

/-- Of a sequence of transactions that fails, the first ones were committed. -/
theorem forM_commit_error {α : Type} {f : α → List StorageAction} {l : List α}
    (h : l.forM (fun a => commitActions cfg (f a)) w = .error e w') :
    ∃ done a rest data faults, l = done ++ a :: rest ∧
      done.foldlM (fun d a => (applyActions cfg.checks d (f a) false).map Prod.fst) w.data = some data ∧
        w' = { w with data := data, faults := faults } := by
  obtain ⟨done, a, rest, v, rfl, hdone, hfail⟩ := forM_eq_error h
  obtain ⟨data, f, hdata, rfl⟩ := forM_commit_ok hdone
  obtain ⟨f', rfl⟩ := commitActions_error hfail
  exact ⟨done, a, rest, data, f', rfl, hdata, rfl⟩

theorem updateRegistryScores_error (h : updateRegistryScores cfg w = .error e w') :
    ∃ faults, w' = { w with faults := faults } := by
  obtain ⟨done, a, rest, w₁, -, hdone, ha⟩ := forM_eq_error h
  have hend := forM_induct (P := fun _ v => ∃ faults, v = { w with faults := faults }) (fun a l s s' => by
    rintro ⟨faults, rfl⟩ hs
    obtain ⟨faults', rfl⟩ := call_ok hs
    exact ⟨faults', rfl⟩) ⟨w.faults, rfl⟩ hdone
  obtain ⟨f₁, rfl⟩ := hend
  obtain ⟨-, f₂, rfl⟩ := call_error ha
  exact ⟨f₂, rfl⟩

theorem maybeAdvertise_error (h : maybeAdvertise cfg w = .error e w') : ∃ faults, w' = { w with faults := faults } := by
  unfold maybeAdvertise at h
  rw [get_bind] at h
  split at h
  · exact updateRegistryScores_error h
  · split at h
    · exact absurd h pure_ne_error
    · rcases bind_eq_error.mp h with h | ⟨_, w₁, -, h₂⟩
      · exact updateRegistryScores_error h
      · exact absurd h₂ modify_ne_error

theorem recordTimestamp_error (h : recordTimestamp cfg w = .error e w') :
    ∃ faults, w' = { w with faults := faults } := by
  rcases bind_eq_error.mp h with h | ⟨_, w₁, h₁, h₂⟩
  · unfold whenM at h
    split at h
    · exact (call_error h).2
    · exact absurd h pure_ne_error
  have hcleanup : ∃ faults, w₁ = { w with faults := faults } := by
    rcases whenM_ok h₁ with ⟨-, hc⟩ | ⟨-, rfl⟩
    · exact call_ok hc
    · exact ⟨_, rfl⟩
  obtain ⟨f₁, rfl⟩ := hcleanup
  rcases bind_eq_error.mp h₂ with h | ⟨_, w₂, h₃, h₄⟩
  · obtain ⟨-, f, rfl⟩ := call_error h
    exact ⟨f, rfl⟩
  obtain ⟨f₂, rfl⟩ := call_ok h₃
  rcases bind_eq_error.mp h₄ with h | ⟨_, w₃, h₅, h₆⟩
  · obtain ⟨-, f, rfl⟩ := call_error h
    exact ⟨f, rfl⟩
  obtain ⟨f₃, rfl⟩ := call_ok h₅
  obtain ⟨f, rfl⟩ := maybeAdvertise_error h₆
  exact ⟨f, rfl⟩

/-- The heights removed before a failure are the first ones. -/
theorem removeHeights_error {heights : List Nat} (h : removeHeights heights w = .error e w') :
    ∃ done faults, done <+: heights ∧
      w' = { w with rollback := done.foldl removeHeight w.rollback, faults := faults } := by
  rcases bind_eq_error.mp h with h | ⟨_, w₁, h₁, h₂⟩
  · obtain ⟨-, f, rfl⟩ := call_error h
    exact ⟨[], f, List.nil_prefix, rfl⟩
  obtain ⟨done, height, rest, w₂, rfl, hdone, hfail⟩ := forM_eq_error h₂
  obtain ⟨f₂, hw₂⟩ := removeHeights_ok (bind_eq_ok.mpr ⟨_, w₁, h₁, hdone⟩)
  subst hw₂
  rcases bind_eq_error.mp hfail with h | ⟨_, w₃, -, h₄⟩
  · obtain ⟨-, f, rfl⟩ := call_error h
    exact ⟨done, f, List.prefix_append _ _, rfl⟩
  · exact absurd h₄ modify_ne_error

end Failed

end DogeIndexer.Polyphony
