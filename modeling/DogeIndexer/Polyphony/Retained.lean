import DogeIndexer.Polyphony.Interrupted

/-!
# Restarts over the persistent rollback buffer

Over every run of the storage worker, bulk and mutable blocks, rollbacks and restarts with calls that
fail anywhere: as long as each mutable block leaves stored the points that stay live, a restart loads the
live points again and an interrupted rollback ends where an uninterrupted one does.

* `StorageRun` — the runs, with a condition on each mutable block.
* `reload_contains` — a restart reloads the live points.
* `interrupted_rollBack_converges` — a rollback rescheduled any number of times, or restarted.
* `leftoverBlocks` — blocks left in the batcher at the end of the bulk phase, which let a live point go.
-/

set_option autoImplicit false

namespace DogeIndexer.Polyphony

open Effect

/-! ## Runs -/

/-- Runs of the worker, from a process started without rollback metadata.  A block may be bulk or
mutable and any of its calls may fail; a rollback may fail any number of times before it completes, and
the process may restart at any point.  The heights are those of blocks, and no value is empty.
Each mutable block satisfies `meets` in the state it is delivered to. -/
inductive StorageRun (cfg : Config) (meets : Worker → Point → List StorageAction → Prop) : Worker → Prop
  | start {data : Store} {intersect : Option Point} (hdata : FilledStore data)
      (hint : ∀ q, intersect = some q → 1 ≤ q.height) :
      StorageRun cfg meets (Worker.spawn cfg data Table.empty intersect [])
  | deliver {w : Worker} {p : Point} {ops : List StorageAction} {mutable mempool : Bool} (faults : List Bool)
      (hrun : StorageRun cfg meets w) (hp : 1 ≤ p.height) (hops : ∀ a ∈ ops, a.isFilled = true)
      (hmeets : (w.mutable || mutable) = true → meets w p ops) :
      StorageRun cfg meets
        (endState (execute cfg (.rollForward p ops mutable mempool) { w with faults := faults }))
  | back {w v v' : Worker} {p : Point} {mutable : Bool} (faults : List Bool) (hrun : StorageRun cfg meets w)
      (hv : Rescheduled cfg (.rollBack p mutable) w v)
      (hexec : execute cfg (.rollBack p mutable) { v with faults := faults } = .ok () v') :
      StorageRun cfg meets v'
  | restart {w v : Worker} {p : Point} {mutable : Bool} {intersect : Option Point} (hrun : StorageRun cfg meets w)
      (hv : Rescheduled cfg (.rollBack p mutable) w v) (hint : ∀ q, intersect = some q → 1 ≤ q.height) :
      StorageRun cfg meets (restarted cfg v intersect)

/-- What a mutable block leaves live are points of blocks. -/
def Grounded (cfg : Config) (w : Worker) : Prop :=
  ∀ b ∈ (under w).take (cfg.bufferSize - 1), b.point ≠ originPoint

instance (cfg : Config) (w : Worker) : Decidable (Grounded cfg w) :=
  inferInstanceAs (Decidable (∀ b ∈ (under w).take (cfg.bufferSize - 1), b.point ≠ originPoint))

section Runs

variable {cfg : Config} {w : Worker} {meets : Worker → Point → List StorageAction → Prop} {live : Point → Prop}

/-- **Along a run the live points stay stored.** -/
theorem StorageRun.kept (hlive : ∀ q : Point, 1 ≤ q.height → live q)
    (hmeets : ∀ w p ops, meets w p ops →
      Retains cfg w p ops ∧ ∀ b ∈ (under w).take (cfg.bufferSize - 1), live b.point)
    (h : StorageRun cfg meets w) : ∃ stack, Kept cfg live stack w := by
  induction h with
  | @start data intersect hdata hint =>
    refine ⟨[], Kept.restart (w := Worker.spawn cfg data Table.empty intersect []) hlive hdata (fun _ => ?_) hint⟩
    exact ⟨stored_empty, fun b hb => absurd hb List.not_mem_nil⟩
  | deliver faults _ hp hops hm ih =>
    obtain ⟨stack, hkept⟩ := ih
    exact hkept.deliver hlive hops hp faults (fun hmut => hmeets _ _ _ (hm hmut))
  | back faults _ hv hexec ih =>
    obtain ⟨stack, hkept⟩ := ih
    exact hkept.back hv hexec
  | restart _ hv hint ih =>
    obtain ⟨stack, hkept⟩ := ih
    exact hkept.restartAfter hlive hv hint

/-- A run under a condition is a run under a weaker one. -/
theorem StorageRun.mono {meets' : Worker → Point → List StorageAction → Prop}
    (hweaker : ∀ w p ops, meets w p ops → meets' w p ops) (h : StorageRun cfg meets w) : StorageRun cfg meets' w := by
  induction h with
  | start hdata hint => exact .start hdata hint
  | deliver faults _ hp hops hm ih => exact .deliver faults ih hp hops (fun hmut => hweaker _ _ _ (hm hmut))
  | back faults _ hv hexec ih => exact .back faults ih hv hexec
  | restart _ hv hint ih => exact .restart ih hv hint

end Runs

/-! ## Runs of counting blocks -/

/-- A block that counts and moves the cursor. -/
def countingOps (p : Point) : List StorageAction :=
  [.incrementU64 [8] 5, .set sampleConfig.cursorKey (cursorValue p [])]

theorem countingOps_filled (p : Point) : ∀ a ∈ countingOps p, a.isFilled = true := by
  intro a ha
  simp only [countingOps, List.mem_cons, List.not_mem_nil, or_false] at ha
  rcases ha with rfl | rfl
  · rfl
  · simp [StorageAction.isFilled, cursorValue, Machine.toBE]

/-- The worker after blocks with the given points, bulk or mutable, on an empty store. -/
def countingWorker (cfg : Config) (intersect : Option Point) (blocks : List (Point × Bool)) : Worker :=
  blocks.foldl (fun w b => endState (execute cfg (.rollForward b.1 (countingOps b.1) b.2 false) { w with faults := [] }))
    (Worker.spawn cfg Table.empty Table.empty intersect [])

theorem restarted_rollbackBuffer (cfg : Config) (w : Worker) (intersect : Option Point) :
    (restarted cfg w intersect).rollbackBuffer = (restarted cfg w none).rollbackBuffer := rfl

section Counting

variable {cfg : Config} {meets : Worker → Point → List StorageAction → Prop} {intersect : Option Point}

theorem StorageRun.counting_nil (hint : ∀ q, intersect = some q → 1 ≤ q.height) :
    StorageRun cfg meets (countingWorker cfg intersect []) :=
  .start (fun k v hv => by cases hv) hint

theorem StorageRun.counting {blocks : List (Point × Bool)} {p : Point} {mutable : Bool}
    (hrun : StorageRun cfg meets (countingWorker cfg intersect blocks)) (hp : 1 ≤ p.height)
    (hmeets : ((countingWorker cfg intersect blocks).mutable || mutable) = true →
      meets (countingWorker cfg intersect blocks) p (countingOps p)) :
    StorageRun cfg meets (countingWorker cfg intersect (blocks ++ [(p, mutable)])) := by
  have hnext : StorageRun cfg meets (endState (execute cfg (.rollForward p (countingOps p) mutable false)
      { countingWorker cfg intersect blocks with faults := [] })) := hrun.deliver [] hp (countingOps_filled p) hmeets
  unfold countingWorker at hnext ⊢
  rw [List.foldl_append]
  exact hnext

/-- Two mutable blocks on a parent at height 5. -/
def twoBlocks : List (Point × Bool) := [(⟨6, 60⟩, true), (⟨7, 70⟩, true)]

theorem twoBlocks_run : StorageRun sampleConfig (fun w p ops => Retains sampleConfig w p ops ∧ Grounded sampleConfig w)
    (countingWorker sampleConfig (some ⟨5, 50⟩) twoBlocks) := by
  have h₀ : StorageRun sampleConfig (fun w p ops => Retains sampleConfig w p ops ∧ Grounded sampleConfig w)
      (countingWorker sampleConfig (some ⟨5, 50⟩) []) := .counting_nil (by rintro q ⟨rfl⟩; decide)
  have h₁ : StorageRun sampleConfig (fun w p ops => Retains sampleConfig w p ops ∧ Grounded sampleConfig w)
      (countingWorker sampleConfig (some ⟨5, 50⟩) ([] ++ [(⟨6, 60⟩, true)])) :=
    h₀.counting (by decide) (fun _ => by decide +kernel)
  exact h₁.counting (p := ⟨7, 70⟩) (by decide) (fun _ => by decide +kernel)

/-- Batches of three blocks. -/
def leftoverConfig : Config := { sampleConfig with syncBatchSize := 3, tikvRaftEntryMaxSize := 1000 }

/-- Six bulk blocks and two mutable ones: the fourth block triggers the flush of the first three, and the
three after it are still in the batcher when the seventh arrives. -/
def leftoverBlocks : List (Point × Bool) :=
  [(⟨1, 11⟩, false), (⟨2, 12⟩, false), (⟨3, 13⟩, false), (⟨4, 14⟩, false), (⟨5, 15⟩, false), (⟨6, 16⟩, false),
    (⟨7, 17⟩, true), (⟨8, 18⟩, true)]

theorem leftoverBlocks_run :
    StorageRun leftoverConfig (fun _ _ _ => True) (countingWorker leftoverConfig none leftoverBlocks) := by
  have hall : ∀ blocks : List (Point × Bool), (∀ b ∈ blocks, 1 ≤ b.1.height) →
      StorageRun leftoverConfig (fun _ _ _ => True) (countingWorker leftoverConfig none blocks) := by
    intro blocks
    induction blocks using List.reverseRecOn with
    | nil => exact fun _ => .counting_nil (by rintro q ⟨⟩)
    | append_singleton blocks b ih =>
      intro hpos
      exact (ih (fun c hc => hpos c (List.mem_append_left _ hc))).counting
        (hpos b (List.mem_append_right _ List.mem_cons_self)) (fun _ => trivial)
  exact hall leftoverBlocks (by decide)

end Counting

/-! ## Reloading -/

/-- **A restart reloads the rollback buffer.**  In every run whose mutable blocks leave stored the points
that stay live, and leave no origin placeholder live, the worker spawned over the stored data holds each live
point at its place, with the same inverses; the initial point, which has none, comes back with the
placeholder delete it was stored with. -/
theorem reload_contains (cfg : Config) (w : Worker)
    (hrun : StorageRun cfg (fun w p ops => Retains cfg w p ops ∧ Grounded cfg w) w) (intersect : Option Point)
    (n : Nat) (a : Buffered) (ha : w.rollbackBuffer.blocks[n]? = some a) :
    ∃ b, (restarted cfg w intersect).rollbackBuffer.blocks[n]? = some b ∧ b.point = a.point ∧
      (b.result = a.result ∨
        a.result = [] ∧ b.result = [.delete []] ∧ n + 1 = w.rollbackBuffer.blocks.length) := by
  have hlive : ∀ q : Point, 1 ≤ q.height → q ≠ originPoint := fun q hq => Points.ne_originPoint hq
  obtain ⟨stack, hkept⟩ := hrun.kept hlive (fun w p ops hmeets => hmeets)
  exact hkept.reloaded intersect ha (hkept.blocks a (List.mem_of_getElem? ha))

/-- The initial point, at height 5, comes back behind the two blocks above it. -/
theorem reload_contains_initial :
    ∃ b, (restarted sampleConfig (countingWorker sampleConfig (some ⟨5, 50⟩) twoBlocks)
        none).rollbackBuffer.blocks[2]? = some b ∧ b.point = ⟨5, 50⟩ := by
  obtain ⟨b, hb, hpoint, -⟩ := reload_contains sampleConfig _ twoBlocks_run none 2 ⟨⟨5, 50⟩, []⟩ (by decide +kernel)
  exact ⟨b, hb, hpoint⟩

/-- **A live point is not reloaded.**  The initial point at height 4 stands live behind the blocks 7 and 8,
but garbage collection at height 8 leaves nothing below height 5. -/
theorem leftover_not_reloaded :
    StorageRun leftoverConfig (fun _ _ _ => True) (countingWorker leftoverConfig none leftoverBlocks) ∧
      (countingWorker leftoverConfig none leftoverBlocks).rollbackBuffer.blocks.map PointWithResult.point =
        [⟨8, 18⟩, ⟨7, 17⟩, ⟨4, 14⟩] ∧
      ∀ intersect, (restarted leftoverConfig (countingWorker leftoverConfig none leftoverBlocks)
        intersect).rollbackBuffer.blocks.map PointWithResult.point = [⟨8, 18⟩, ⟨7, 17⟩] :=
  ⟨leftoverBlocks_run, by decide +kernel, fun intersect => by
    rw [restarted_rollbackBuffer _ _ intersect]
    decide +kernel⟩

/-- Nor is the origin placeholder, which the first mutable block on an empty database puts into the live
buffer. -/
example : (countingWorker sampleConfig none [(⟨1, 11⟩, true)]).rollbackBuffer.blocks.map PointWithResult.point =
      [⟨1, 11⟩, originPoint] ∧
    (restarted sampleConfig (countingWorker sampleConfig none [(⟨1, 11⟩, true)])
      none).rollbackBuffer.blocks.map PointWithResult.point = [⟨1, 11⟩] := by decide +kernel

/-! ## Converging -/

/-- **An interrupted rollback converges.**  In every run whose mutable blocks leave stored the points that
stay live, a rollback to a buffered point has one outcome.  After any number of failed attempts,
executing the unit again on the same worker ends with the store and the metadata of an uninterrupted
execution; and so does executing it on the worker that a restart spawns from what the attempts left, as
long as they have not begun to trim or have undone every block.  One failed attempt leaves such a state,
with the unit still pending. -/
theorem interrupted_rollBack_converges (cfg : Config) (w : Worker) (hrun : StorageRun cfg (Retains cfg) w)
    (p : Point) (mutable : Bool) (hbuf : (w.rollbackBuffer.position p).isSome) :
    ∃ done, execute cfg (.rollBack p mutable) { w with faults := [] } = .ok () done ∧
      (∀ v, Rescheduled cfg (.rollBack p mutable) w v →
        (∃ v', execute cfg (.rollBack p mutable) { v with faults := [] } = .ok () v' ∧
          v'.data = done.data ∧ v'.rollback = done.rollback) ∧
        (p ≠ originPoint → v.rollback = w.rollback ∨ v.data = done.data → ∀ intersect,
          ∃ v', execute cfg (.rollBack p mutable) (restarted cfg v intersect) = .ok () v' ∧
            v'.data = done.data ∧ v'.rollback = done.rollback)) ∧
      (∀ faults v, execute cfg (.rollBack p mutable) { w with faults := faults } = .error .restart v →
        v.workUnit2pc = some (.rollBack p mutable) ∧ (v.rollback = w.rollback ∨ v.data = done.data)) := by
  have hlive : ∀ q : Point, 1 ≤ q.height → True := fun _ _ => trivial
  obtain ⟨stack, hkept⟩ := hrun.kept hlive (fun w p ops hmeets => ⟨hmeets, fun _ _ => trivial⟩)
  obtain ⟨pos, hpos⟩ := Option.isSome_iff_exists.mp hbuf
  have hw := hkept.found hpos
  obtain ⟨data, hundo⟩ := exists_undoBlocks cfg.checks hw.invertible w.data
  have hstart : Underway cfg w w p pos stack data := Underway.first hw hkept.sound.filled hundo
  obtain ⟨done, hdone, hdata, hmeta⟩ := hstart.again hw mutable
  -- equal at and below the point, and nothing above it
  have hrollback : ∀ v v' : Worker, Underway cfg w v p pos stack data →
      (∀ k, v'.rollback.get k = if k.height > p.height then none else v.rollback.get k) →
      v'.rollback = done.rollback := by
    intro v v' hunder hv'
    refine Table.ext_get (fun k => ?_)
    rw [hv', hmeta]
    by_cases hk : k.height > p.height
    · rw [if_pos hk, if_pos hk]
    · rw [if_neg hk, if_neg hk]
      exact hunder.metadata k (by omega)
  refine ⟨done, hdone, fun v hv => ?_, fun faults v hfail => ?_⟩
  · have hunder := hv.underway hw hstart
    refine ⟨?_, fun hne hstate intersect => ?_⟩
    · obtain ⟨v', hexec, hdata', hmeta'⟩ := hunder.again hw mutable
      exact ⟨v', hexec, hdata'.trans hdata.symm, hrollback v v' hunder hmeta'⟩
    · rw [hdata] at hstate
      obtain ⟨v', hexec, hdata', hmeta'⟩ := hunder.restart hw hne mutable hstate intersect
      exact ⟨v', hexec, hdata'.trans hdata.symm, hrollback v v' hunder hmeta'⟩
  · obtain ⟨-, h2pc, hstate⟩ := hstart.fail hw hfail
    rw [hdata]
    exact ⟨h2pc, hstate⟩

/-- A rollback of two blocks that fails in the second transaction. -/
theorem interrupted_rollBack_after_first_block :
    ∃ v, execute sampleConfig (.rollBack ⟨5, 50⟩ true)
        { countingWorker sampleConfig (some ⟨5, 50⟩) twoBlocks with faults := [false, false, true] } =
          .error .restart v ∧
      v.data ≠ (countingWorker sampleConfig (some ⟨5, 50⟩) twoBlocks).data ∧
      ∃ v', execute sampleConfig (.rollBack ⟨5, 50⟩ true) (restarted sampleConfig v none) = .ok () v' := by
  have hrun : StorageRun sampleConfig (Retains sampleConfig)
      (countingWorker sampleConfig (some ⟨5, 50⟩) twoBlocks) := twoBlocks_run.mono (fun _ _ _ h => h.1)
  obtain ⟨done, -, hattempts, hone⟩ := interrupted_rollBack_converges sampleConfig _ hrun ⟨5, 50⟩ true
    (by decide +kernel)
  have hfail := @execute_of_fails sampleConfig (.rollBack ⟨5, 50⟩ true)
    { countingWorker sampleConfig (some ⟨5, 50⟩) twoBlocks with faults := [false, false, true] } (by decide +kernel)
  refine ⟨_, hfail, by decide +kernel, ?_⟩
  obtain ⟨-, hrestart⟩ := hattempts _ (Rescheduled.first.again _ hfail)
  obtain ⟨v', hv', -⟩ := hrestart (by decide) (hone _ _ hfail).2 none
  exact ⟨v', hv'⟩

/-- **An interrupted rollback does not converge.**  Behind the blocks 7 and 8 the point 4 is live, and an
uninterrupted rollback to it completes.  When its first call fails and the process restarts, the point is not
among the stored ones, and repeating the rollback panics. -/
theorem leftover_rollBack_lost :
    StorageRun leftoverConfig (fun _ _ _ => True) (countingWorker leftoverConfig none leftoverBlocks) ∧
      (∃ done, execute leftoverConfig (.rollBack ⟨4, 14⟩ true)
        { countingWorker leftoverConfig none leftoverBlocks with faults := [] } = .ok () done) ∧
      ∃ v, execute leftoverConfig (.rollBack ⟨4, 14⟩ true)
          { countingWorker leftoverConfig none leftoverBlocks with faults := [true] } = .error .restart v ∧
        ∀ intersect v', execute leftoverConfig (.rollBack ⟨4, 14⟩ true) (restarted leftoverConfig v intersect) ≠
          .ok () v' := by
  have hfail := @execute_of_fails leftoverConfig (.rollBack ⟨4, 14⟩ true)
    { countingWorker leftoverConfig none leftoverBlocks with faults := [true] } (by decide +kernel)
  refine ⟨leftoverBlocks_run, ⟨_, execute_of_completes (by decide +kernel)⟩, _, hfail, ?_⟩
  intro intersect v' hexec
  rw [execute_back] at hexec
  obtain ⟨pos, hpos, -⟩ := rollBack_ok hexec
  have hnone : (restarted leftoverConfig (workerAfter leftoverConfig (.rollBack ⟨4, 14⟩ true)
      { countingWorker leftoverConfig none leftoverBlocks with faults := [true] }) none).rollbackBuffer.position
        ⟨4, 14⟩ = none := by decide +kernel
  rw [show (restarted leftoverConfig _ intersect).rollbackBuffer = _ from restarted_rollbackBuffer _ _ intersect,
    hnone] at hpos
  cases hpos

end DogeIndexer.Polyphony
