import DogeIndexer.Compressor.Outcomes

/-!
# The roll stage and its log

Model of the stage that feeds the chain database (`compressor-xdg/src/sync/roll.rs`), and of what its calls do
to the write-ahead log: the entries of a call go under the next sequence numbers, and the oldest ones may be
pruned.  A journal keeps every entry that was ever committed, with the chain stored at the end of its call.

* `execute_cases` — what an event does to the database.
* `JournalRun.logged` — the log is the end of the journal, and both end below the next sequence number.
-/

set_option autoImplicit false

namespace DogeIndexer.Compressor

open Fallible Effect

/-! ## The stage -/

inductive PullEvent where
  | rollForward (height : Nat) (hash : BlockHash) (block : Block) (tip : Nat × BlockHash)
  | rollBack (height : Nat) (hash : BlockHash) (tip : Nat × BlockHash)

structure Stage where
  node : Node
  mutable : Bool

/-- Whether an event switches the stage to mutable mode. -/
def PullEvent.switches (cfg : Config) : PullEvent → Bool
  | .rollForward height _ _ tip =>
    match cfg.immutableAfterConfs with
    | some confirmations => decide (height + confirmations > tip.1)
    | none => true
  | .rollBack height _ tip =>
    match cfg.immutableAfterConfs with
    | some confirmations => decide (height + confirmations > tip.1)
    | none => false

/-- `Worker::execute` of the roll stage; the flag is set before the call and stays set when it fails. -/
def Stage.execute (deps : Deps) (cfg : Config) (rocks : Rocks) (unit : PullEvent) : EStateM Err Stage Unit := fun s =>
  let mutable := s.mutable || unit.switches cfg
  let result := match unit with
    | .rollForward height _ block _ => applyBlockWithContext deps cfg rocks height block mutable s.node
    | .rollBack height hash _ => rollback deps cfg rocks height hash mutable s.node
  match result with
  | .ok () node => .ok () ⟨node, mutable⟩
  | .error e node => .error e ⟨node, mutable⟩

/-- `ChainDB::open` on the tables of an earlier process: the log is cleared. -/
def ChainDB.reopen (t : Tables) : ChainDB :=
  ⟨{ t with mutableKV := Table.empty }, 1, t.blockByHeight.lastEntry.map fun e => e.2.1⟩

def Stage.wal (s : Stage) : Table Nat Log := s.node.db.tables.mutableKV

def Stage.nextWalSeq (s : Stage) : Nat := s.node.db.nextWalSeq

/-- The stored chain. -/
def Stage.chain (s : Stage) : List (Nat × BlockHash × Block) := s.node.db.tables.blockByHeight.entries

/-! ## Log entries of a call -/

/-- Log entries under the sequence numbers from `first` on. -/
def sequenced (first : Nat) (logs : List Log) : List (Nat × Log) := (logs.zipIdx first).map Prod.swap

theorem sequenced_keys (first : Nat) (logs : List Log) :
    (sequenced first logs).map Prod.fst = List.range' first logs.length := by
  unfold sequenced
  rw [List.map_map]
  exact List.zipIdx_map_snd first logs

theorem sequenced_logs (first : Nat) (logs : List Log) : (sequenced first logs).map Prod.snd = logs := by
  unfold sequenced
  rw [List.map_map]
  exact List.zipIdx_map_fst first logs

@[simp] theorem sequenced_length (first : Nat) (logs : List Log) : (sequenced first logs).length = logs.length := by
  simp [sequenced]

theorem sequenced_append (first : Nat) (logs logs' : List Log) :
    sequenced first (logs ++ logs') = sequenced first logs ++ sequenced (first + logs.length) logs' := by
  unfold sequenced
  rw [List.zipIdx_append, List.map_append]

/-- The keys are those from `a` up to `next`. -/
def Sequenced {V : Type} (t : Table Nat V) (a next : Nat) : Prop :=
  a ≤ next ∧ t.entries.map Prod.fst = List.range' a (next - a)

/-- The oldest entries are gone, and `logs` are at the end. -/
def Appended (wal : Table Nat Log) (next : Nat) (logs : List Log) (wal' : Table Nat Log) : Prop :=
  ∃ pruned kept, wal.entries = pruned ++ kept ∧ wal'.entries = kept ++ sequenced next logs

section

variable {V : Type} {t : Table Nat V} {a next : Nat}

theorem Sequenced.lt (h : Sequenced t a next) : ∀ e ∈ t.entries, e.1 < next := by
  intro e he
  have hkey : e.1 ∈ List.range' a (next - a) := by
    rw [← h.2]
    exact List.mem_map_of_mem he
  have hle := h.1
  rw [List.mem_range'_1] at hkey
  omega

/-- The numbers in use are an interval that ends below `next`. -/
theorem Sequenced.isSome_iff (h : Sequenced t a next) (k : Nat) : (t.get k).isSome = true ↔ a ≤ k ∧ k < next := by
  have hle := h.1
  rw [Option.isSome_iff_exists, ← Table.mem_keys, h.2, List.mem_range'_1]
  omega

theorem sequenced_sorted (first : Nat) (logs : List Log) : Entries.Sorted (sequenced first logs) := by
  have hkeys : ((sequenced first logs).map Prod.fst).Pairwise (· < ·) := by
    rw [sequenced_keys]
    exact List.pairwise_lt_range'
  exact List.pairwise_map.mp hkeys

end

/-! ## Calls -/

/-- Entries under fresh numbers come last. -/
theorem appended_insertAll {wal : Table Nat Log} {next : Nat} (hwal : ∀ e ∈ wal.entries, e.1 < next)
    (logs : List Log) : Appended wal next logs (wal.insertAll (sequenced next logs)) := by
  refine ⟨[], wal.entries, rfl, Table.entries_insertAll_last (sequenced_sorted next logs) ?_⟩
  intro e he e' he'
  have hkey : e'.1 ∈ List.range' next logs.length := by
    rw [← sequenced_keys]
    exact List.mem_map_of_mem he'
  rw [List.mem_range'_1] at hkey
  exact lt_of_lt_of_le (hwal e he) hkey.1

theorem prune_entries (wal : Table Nat Log) (beforeHeight : Nat) :
    (prune wal beforeHeight).entries = wal.entries.dropWhile fun e => e.2.height < beforeHeight := by
  have hfold : prune wal beforeHeight =
      wal.eraseAll ((wal.entries.takeWhile fun e => e.2.height < beforeHeight).map Prod.fst) := by
    unfold prune Table.eraseAll
    rw [List.foldl_map]
  rw [hfold]
  exact Table.entries_eraseAll_left List.takeWhile_append_dropWhile.symm

/-- Pruning stops before an entry that is high enough. -/
theorem Appended.pruned {wal wal' : Table Nat Log} {next beforeHeight : Nat} {log : Log}
    (h : Appended wal next [log] wal') (hheight : beforeHeight ≤ log.height) :
    Appended wal next [log] (prune wal' beforeHeight) := by
  obtain ⟨pruned, kept, hsplit, hentries⟩ := h
  refine ⟨pruned ++ kept.takeWhile fun e => e.2.height < beforeHeight,
    kept.dropWhile fun e => e.2.height < beforeHeight, ?_, ?_⟩
  · rw [List.append_assoc, List.takeWhile_append_dropWhile, hsplit]
  · rw [prune_entries, hentries]
    have hlast : (sequenced next [log]).dropWhile (fun e => e.2.height < beforeHeight) = sequenced next [log] := by
      change [(next, log)].dropWhile _ = [(next, log)]
      exact List.dropWhile_cons_of_neg (by simpa using hheight)
    rw [List.dropWhile_append, hlast]
    split
    · rename_i hempty
      rw [List.isEmpty_iff.mp hempty]
      rfl
    · rfl

/-- The log entries of a rollback: the removed blocks, last first, and the point. -/
def rollbackLogs (removed : List (Nat × BlockHash × Block)) (point : Nat × BlockHash × Block) : List Log :=
  removed.reverse.map (fun e => .undo e.1 e.2.1 e.2.2) ++ [.mark point.1 point.2.1 point.2.2]

/-- What a call does to a database in which the numbers from the next one on are free. -/
inductive DbStep (mutable : Bool) (db : ChainDB) : PullEvent → Bool → ChainDB → Prop
  | failed (unit : PullEvent) : DbStep mutable db unit true db
  | stored {height : Nat} {hash : BlockHash} {block : Block} {tip : Nat × BlockHash} {tables : Tables}
      (hparent : ∀ parent, db.lastBlockHash = some parent → block.prevBlockhash = parent)
      (hblocks : tables.blockByHeight = db.tables.blockByHeight.insert height (block.hash, block))
      (hlog : if mutable then ∃ entry, Appended db.tables.mutableKV db.nextWalSeq [.apply height block entry]
        tables.mutableKV else tables.mutableKV = db.tables.mutableKV) :
      DbStep mutable db (.rollForward height hash block tip) true ⟨tables, db.nextWalSeq + 1, some block.hash⟩
  | unflushed {height : Nat} {hash : BlockHash} {block : Block} {tip : Nat × BlockHash} {tables : Tables}
      (hheight : height % 5000 = 0)
      (hlog : mutable = false → tables.mutableKV = db.tables.mutableKV) :
      DbStep mutable db (.rollForward height hash block tip) false { db with tables := tables }
  | undone {height : Nat} {hash : BlockHash} {block : Block} {tip : Nat × BlockHash}
      {removed : List (Nat × BlockHash × Block)} {tables : Tables}
      (hscan : db.tables.blockByHeight.entriesFrom height = (height, hash, block) :: removed)
      (hblocks : tables.blockByHeight = db.tables.blockByHeight.eraseAll (removed.reverse.map Prod.fst))
      (hlog : if mutable then Appended db.tables.mutableKV db.nextWalSeq (rollbackLogs removed (height, hash, block))
        tables.mutableKV else tables.mutableKV = db.tables.mutableKV) :
      DbStep mutable db (.rollBack height hash tip) true
        ⟨tables, if mutable then db.nextWalSeq + removed.length + 1 else db.nextWalSeq, some hash⟩

section

variable {deps : Deps} {cfg : Config} {mutable : Bool}

/-- The log that a block is staged with. -/
theorem stageBlock_log {db : ChainDB} {height : Nat} {block : Block} {s : BlockState} {tables : Tables}
    (hwal : ∀ e ∈ db.tables.mutableKV.entries, e.1 < db.nextWalSeq)
    (h : stageBlock cfg db height block mutable s = .ok tables) :
    tables.blockByHeight = db.tables.blockByHeight.insert height (block.hash, block) ∧
      if mutable then ∃ entry, Appended db.tables.mutableKV db.nextWalSeq [.apply height block entry]
        tables.mutableKV else tables.mutableKV = db.tables.mutableKV := by
  unfold stageBlock at h
  obtain ⟨staged, -, h⟩ := bind_eq_ok.mp h
  cases h
  refine ⟨rfl, ?_⟩
  cases mutable with
  | false => rfl
  | true =>
    refine ⟨resolverEntry db.tables block s staged, ?_⟩
    have hnew := appended_insertAll hwal [.apply height block (resolverEntry db.tables block s staged)]
    simp only [if_true]
    split
    · split
      · exact hnew.pruned (Nat.sub_le height _)
      · exact hnew
    · exact hnew

/-- The undo of blocks, with their log entries. -/
theorem undoBlocks_log {entries : List (Nat × BlockHash × Block)} {x x' : Tables × Nat}
    (h : entries.foldlM (undoBlock deps cfg mutable) x = .ok x') :
    x'.1.blockByHeight = x.1.blockByHeight.eraseAll (entries.map Prod.fst) ∧
      if mutable then x'.2 = x.2 + entries.length ∧ x'.1.mutableKV =
        x.1.mutableKV.insertAll (sequenced x.2 (entries.map fun e => .undo e.1 e.2.1 e.2.2))
      else x'.2 = x.2 ∧ x'.1.mutableKV = x.1.mutableKV := by
  induction entries generalizing x with
  | nil =>
    cases h
    cases mutable with
    | false => exact ⟨rfl, rfl, rfl⟩
    | true => exact ⟨rfl, rfl, rfl⟩
  | cons e entries ih =>
    rw [List.foldlM_cons] at h
    obtain ⟨x₁, hundo, h⟩ := bind_eq_ok.mp h
    obtain ⟨hblocks, hlog⟩ := ih h
    have hstep : x₁.1.blockByHeight = x.1.blockByHeight.erase e.1 ∧
        if mutable then x₁.2 = x.2 + 1 ∧ x₁.1.mutableKV = x.1.mutableKV.insert x.2 (.undo e.1 e.2.1 e.2.2)
        else x₁.2 = x.2 ∧ x₁.1.mutableKV = x.1.mutableKV := by
      unfold undoBlock at hundo
      simp only at hundo
      split at hundo
      · cases hundo
      · split at hundo
        · cases hundo
        · obtain ⟨brc20, -, hundo⟩ := bind_eq_ok.mp hundo
          obtain ⟨u, -, hundo⟩ := bind_eq_ok.mp hundo
          cases hundo
          cases mutable with
          | false => exact ⟨rfl, rfl, rfl⟩
          | true => exact ⟨rfl, rfl, rfl⟩
    refine ⟨by rw [hblocks, hstep.1]; rfl, ?_⟩
    cases mutable with
    | false => exact ⟨hlog.1.trans hstep.2.1, hlog.2.trans hstep.2.2⟩
    | true =>
      obtain ⟨hnext, hwal⟩ := hstep.2
      simp only [if_true] at hlog ⊢
      rw [hnext, hwal] at hlog
      refine ⟨?_, hlog.2⟩
      rw [hlog.1, List.length_cons]
      omega

variable {rocks : Rocks}

theorem execute_mutable (deps : Deps) (cfg : Config) (rocks : Rocks) (unit : PullEvent) (s : Stage) :
    (endState (Stage.execute deps cfg rocks unit s)).mutable = (s.mutable || unit.switches cfg) := by
  unfold Stage.execute
  simp only
  split
  · rfl
  · rfl

/-- A call of `apply_block_with_context` is a step of the database. -/
theorem apply_dbStep (n : Node) (hwal : ∀ e ∈ n.db.tables.mutableKV.entries, e.1 < n.db.nextWalSeq) (height : Nat)
    (hash : BlockHash) (block : Block) (tip : Nat × BlockHash) :
    ∃ flushed, DbStep mutable n.db (.rollForward height hash block tip) flushed
      (endState (applyBlockWithContext deps cfg rocks height block mutable n)).db ∧
      (flushed = false → rocks.flush = false) := by
  cases hstaged : stagedTables deps cfg height block mutable n with
  | none =>
    obtain ⟨e, n', hrun, hdb⟩ := apply_unstaged hstaged rocks
    rw [hrun]
    refine ⟨true, ?_, fun h => by cases h⟩
    change DbStep mutable n.db _ true n'.db
    rw [hdb]
    exact .failed _
  | some tables =>
    obtain ⟨memory, hruns⟩ := apply_staged hstaged
    have hparts : (∀ parent, n.db.lastBlockHash = some parent → block.prevBlockhash = parent) ∧
        ∃ s, stageBlock cfg n.db height block mutable s = .ok tables := by
      unfold stagedTables at hstaged
      split at hstaged
      · cases hstaged
      · rename_i hprev
        split at hstaged
        · cases hstaged
        · split at hstaged
          · cases hstaged
          · rename_i hstage
            cases hstaged
            refine ⟨fun parent hparent => ?_, _, hstage⟩
            rw [hparent] at hprev
            simpa using Eq.symm (by simpa using hprev)
    obtain ⟨hparent, s, hstage⟩ := hparts
    obtain ⟨hblocks, hlog⟩ := stageBlock_log hwal hstage
    rw [hruns rocks]
    split_ifs with hcommit hflush
    · exact ⟨true, .failed _, fun h => by cases h⟩
    · refine ⟨false, .unflushed hflush.1 ?_, fun _ => hflush.2⟩
      rintro rfl
      exact hlog
    · exact ⟨true, .stored hparent hblocks hlog, fun h => by cases h⟩

/-- A call of `rollback` is a step of the database. -/
theorem rollback_dbStep (n : Node) (hwal : ∀ e ∈ n.db.tables.mutableKV.entries, e.1 < n.db.nextWalSeq)
    (height : Nat) (hash : BlockHash) (tip : Nat × BlockHash) :
    DbStep mutable n.db (.rollBack height hash tip) true
      (endState (rollback deps cfg rocks height hash mutable n)).db := by
  unfold rollback
  split
  · exact .failed _
  · rename_i foundHeight foundHash foundBlock removed hscan
    split
    · exact .failed _
    · rename_i hpoint
      obtain ⟨rfl, rfl⟩ : height = foundHeight ∧ hash = foundHash := by
        rw [not_or] at hpoint
        exact ⟨not_not.mp hpoint.1, not_not.mp hpoint.2⟩
      split
      · exact .failed _
      · rename_i t w hfold
        obtain ⟨hblocks, hlog⟩ := undoBlocks_log hfold
        cases hcommit : rocks.commit with
        | false =>
          cases mutable with
          | false => exact .failed _
          | true => exact .failed _
        | true =>
          cases mutable with
          | false =>
            obtain ⟨rfl, hwal'⟩ := hlog
            exact .undone hscan hblocks hwal'
          | true =>
            obtain ⟨hnext, hwal'⟩ := hlog
            simp only [List.length_reverse] at hnext
            subst hnext
            refine .undone hscan hblocks ?_
            change Appended _ _ _ (t.mutableKV.insert _ _)
            have happended := appended_insertAll hwal (rollbackLogs removed (height, hash, foundBlock))
            unfold rollbackLogs at happended ⊢
            rw [sequenced_append] at happended
            unfold Table.insertAll at happended hwal'
            rw [List.foldl_append, List.length_map, List.length_reverse] at happended
            simp only at hwal'
            rw [hwal']
            exact happended

/-- **What an event does to the database.** -/
theorem execute_cases (deps : Deps) (cfg : Config) (rocks : Rocks) (unit : PullEvent) (s : Stage)
    (hwal : ∀ e ∈ s.wal.entries, e.1 < s.nextWalSeq) :
    ∃ flushed, DbStep (s.mutable || unit.switches cfg) s.node.db unit flushed
      (endState (Stage.execute deps cfg rocks unit s)).node.db ∧ (flushed = false → rocks.flush = false) := by
  have hnode : ∀ result : EStateM.Result Err Node Unit, ∀ m : Bool,
      (endState (match result with
        | .ok () node => .ok () ⟨node, m⟩
        | .error e node => .error e ⟨node, m⟩ : EStateM.Result Err Stage Unit)).node = endState result := by
    intro result m
    cases result with
    | ok _ _ => rfl
    | error _ _ => rfl
  unfold Stage.execute
  simp only
  rw [hnode]
  cases unit with
  | rollForward height hash block tip => exact apply_dbStep s.node hwal height hash block tip
  | rollBack height hash tip => exact ⟨true, rollback_dbStep s.node hwal height hash tip, fun h => by cases h⟩

end

/-! ## The journal -/

/-- The stage, and every log entry committed so far with the chain that was stored at the end of its call. -/
structure Journaled where
  stage : Stage
  journal : Table Nat (Log × List (Nat × BlockHash × Block))

/-- The log entries of the journal, pruned or not. -/
def Journaled.logs (x : Journaled) : List (Nat × Log) := x.journal.entries.map fun e => (e.1, e.2.1)

/-- A call has led to `stage`: what it committed is in the log from the next sequence number on. -/
def Journaled.record (x : Journaled) (stage : Stage) : Journaled :=
  ⟨stage, x.journal.insertAll
    ((stage.wal.entriesFrom x.stage.nextWalSeq).map fun e => (e.1, e.2, stage.chain))⟩

/-- Runs of the stage from any database, in either mode; the events executed satisfy `C`. -/
inductive JournalRun (deps : Deps) (cfg : Config) (C : Stage → PullEvent → Rocks → Prop) : Journaled → Prop
  | open_ (t : Tables) (memory : Option UtxoResolver) (mutable : Bool) :
      JournalRun deps cfg C ⟨⟨⟨ChainDB.reopen t, memory⟩, mutable⟩, Table.empty⟩
  | execute {x : Journaled} (h : JournalRun deps cfg C x) (unit : PullEvent) (rocks : Rocks)
      (hcond : C x.stage unit rocks) :
      JournalRun deps cfg C (x.record (endState (Stage.execute deps cfg rocks unit x.stage)))

/-- The flush after a mutable block does not fail. -/
def Flushes (cfg : Config) (s : Stage) (unit : PullEvent) (rocks : Rocks) : Prop :=
  match unit with
  | .rollForward height _ _ _ =>
    (s.mutable || unit.switches cfg) = true → height % 5000 = 0 → rocks.flush = true
  | .rollBack _ _ _ => True

instance (cfg : Config) (s : Stage) (unit : PullEvent) (rocks : Rocks) : Decidable (Flushes cfg s unit rocks) :=
  match unit with
  | .rollForward _ _ _ _ => inferInstanceAs (Decidable (_ → _ → _))
  | .rollBack _ _ _ => isTrue trivial

/-- The log is the end of the journal, and the numbers are consecutive up to the next one. -/
structure Logged (x : Journaled) : Prop where
  numbers : ∃ a, Sequenced x.journal a x.stage.nextWalSeq
  wal : x.stage.wal.entries <:+ x.logs
  empty : x.stage.mutable = false → x.journal = Table.empty

section

variable {deps : Deps} {cfg : Config} {C : Stage → PullEvent → Rocks → Prop} {x : Journaled} {s : Stage}
  {unit : PullEvent} {rocks : Rocks}

theorem Logged.lt (h : Logged x) : ∀ e ∈ x.stage.wal.entries, e.1 < x.stage.nextWalSeq := by
  intro e he
  obtain ⟨a, hnumbers⟩ := h.numbers
  obtain ⟨e', he', rfl⟩ := List.mem_map.mp (h.wal.subset he)
  exact hnumbers.lt e' he'

/-- The entries of a call are the end of its log. -/
theorem Appended.entriesFrom {wal wal' : Table Nat Log} {next : Nat} {logs : List Log}
    (h : Appended wal next logs wal') (hwal : ∀ e ∈ wal.entries, e.1 < next) :
    wal'.entriesFrom next = sequenced next logs := by
  obtain ⟨pruned, kept, hsplit, hentries⟩ := h
  unfold Table.entriesFrom
  rw [hentries, List.filter_append, List.filter_eq_nil_iff.mpr, List.filter_eq_self.mpr, List.nil_append]
  · intro e he
    have hkey : e.1 ∈ List.range' next logs.length := by
      rw [← sequenced_keys]
      exact List.mem_map_of_mem he
    rw [List.mem_range'_1] at hkey
    exact decide_eq_true hkey.1
  · intro e he hle
    have hlt := hwal e (by rw [hsplit]; exact List.mem_append_right _ he)
    exact absurd (of_decide_eq_true hle) (not_le_of_gt hlt)

/-- The entries of a call come last in the journal. -/
theorem Logged.record_entries (h : Logged x) (s : Stage) :
    (x.record s).journal.entries =
      x.journal.entries ++ (s.wal.entriesFrom x.stage.nextWalSeq).map fun e => (e.1, e.2, s.chain) := by
  obtain ⟨a, hnumbers⟩ := h.numbers
  refine Table.entries_insertAll_last (List.pairwise_map.mpr (s.wal.entriesFrom_sorted _)) ?_
  intro e he e' he'
  obtain ⟨l, hl, rfl⟩ := List.mem_map.mp he'
  exact lt_of_lt_of_le (hnumbers.lt e he) (Table.mem_entriesFrom.mp hl).1

/-- A call that writes nothing leaves the journal alone. -/
theorem Logged.record_unchanged (h : Logged x) (hwal : s.wal = x.stage.wal) :
    (x.record s).journal = x.journal := by
  have hnone : s.wal.entriesFrom x.stage.nextWalSeq = [] := by
    rw [hwal]
    refine List.filter_eq_nil_iff.mpr fun e he hle => ?_
    exact absurd (of_decide_eq_true hle) (not_le_of_gt (h.lt e he))
  unfold Journaled.record
  rw [hnone]
  rfl

/-- A mutable call keeps the log. -/
theorem Logged.record_logs (h : Logged x) {logs : List Log}
    (happended : Appended x.stage.wal x.stage.nextWalSeq logs s.wal)
    (hnext : s.nextWalSeq = x.stage.nextWalSeq + logs.length) (hmutable : s.mutable = true) : Logged (x.record s) := by
  obtain ⟨a, hle, hkeys⟩ := h.numbers
  have hentries := h.record_entries s
  rw [happended.entriesFrom h.lt] at hentries
  refine ⟨⟨a, ?_, ?_⟩, ?_, fun hfalse => ?_⟩
  · change a ≤ s.nextWalSeq
    omega
  · change (x.record s).journal.entries.map Prod.fst = List.range' a (s.nextWalSeq - a)
    rw [hentries, List.map_append, List.map_map, hkeys]
    change _ ++ (sequenced _ logs).map Prod.fst = _
    rw [sequenced_keys, hnext]
    have hmid : x.stage.nextWalSeq = a + (x.stage.nextWalSeq - a) := by omega
    conv_lhs => rw [hmid]
    rw [Nat.add_sub_cancel_left, List.range'_append_1]
    congr 1
    omega
  · obtain ⟨pruned, kept, hsplit, hwal'⟩ := happended
    unfold Journaled.logs
    rw [hentries, List.map_append, List.map_map]
    have hlast : (sequenced x.stage.nextWalSeq logs).map
        ((fun e : Nat × Log × List (Nat × BlockHash × Block) => (e.1, e.2.1)) ∘ fun e => (e.1, e.2, s.chain)) =
          sequenced x.stage.nextWalSeq logs := List.map_id _
    rw [hlast]
    change s.wal.entries <:+ _
    rw [hwal']
    have hkept : kept <:+ x.logs := List.IsSuffix.trans ⟨pruned, hsplit.symm⟩ h.wal
    obtain ⟨before, hbefore⟩ := hkept
    refine ⟨before, ?_⟩
    rw [← List.append_assoc, hbefore]
    rfl
  · have hfalse : s.mutable = false := hfalse
    rw [hmutable] at hfalse
    cases hfalse

/-- A call that writes no entry keeps the log; the next number may move while the log is empty. -/
theorem Logged.record_silent (h : Logged x) (hwal : s.wal = x.stage.wal)
    (hmode : s.mutable = false → x.stage.mutable = false)
    (hnext : s.nextWalSeq = x.stage.nextWalSeq ∨ x.stage.mutable = false) : Logged (x.record s) := by
  have hjournal := h.record_unchanged hwal
  refine ⟨?_, ?_, fun hfalse => ?_⟩
  · rw [hjournal]
    change ∃ a, Sequenced x.journal a s.nextWalSeq
    rcases hnext with hnext | hfalse
    · rw [hnext]
      exact h.numbers
    · rw [h.empty hfalse]
      exact ⟨s.nextWalSeq, le_refl _, by rw [Nat.sub_self]; rfl⟩
  · unfold Journaled.logs
    rw [hjournal]
    change s.wal.entries <:+ x.logs
    rw [hwal]
    exact h.wal
  · rw [hjournal]
    exact h.empty (hmode hfalse)

/-- A step of the database keeps the log, unless the flush after a mutable block fails. -/
theorem Logged.step {flushed : Bool} (h : Logged x) (hmode : s.mutable = false → x.stage.mutable = false)
    (hstep : DbStep s.mutable x.stage.node.db unit flushed s.node.db) (hflushed : flushed = false → s.mutable = false) :
    Logged (x.record s) := by
  obtain ⟨⟨db, memory⟩, mutable⟩ := s
  change DbStep mutable _ unit flushed db at hstep
  cases hstep with
  | failed _ => exact h.record_silent rfl hmode (Or.inl rfl)
  | stored hparent hblocks hlog =>
    cases mutable with
    | false => exact h.record_silent hlog hmode (Or.inr (hmode rfl))
    | true =>
      obtain ⟨entry, happended⟩ := hlog
      exact h.record_logs happended rfl rfl
  | unflushed hheight hlog => exact h.record_silent (hlog (hflushed rfl)) hmode (Or.inl rfl)
  | @undone height hash block tip removed tables hscan hblocks hlog =>
    cases mutable with
    | false => exact h.record_silent hlog hmode (Or.inl rfl)
    | true =>
      refine h.record_logs hlog ?_ rfl
      unfold rollbackLogs
      rw [List.length_append, List.length_map, List.length_reverse]
      rfl

/-- The database step of an event whose flush does not fail. -/
theorem Logged.executed (h : Logged x) (hflush : Flushes cfg x.stage unit rocks) :
    ∃ s flushed, endState (Stage.execute deps cfg rocks unit x.stage) = s ∧
      (s.mutable = false → x.stage.mutable = false) ∧
      DbStep s.mutable x.stage.node.db unit flushed s.node.db ∧ (flushed = false → s.mutable = false) := by
  obtain ⟨flushed, hstep, hflushed⟩ := execute_cases deps cfg rocks unit x.stage h.lt
  have hmutable := execute_mutable deps cfg rocks unit x.stage
  refine ⟨_, flushed, rfl, fun hfalse => ?_, by rw [hmutable]; exact hstep, fun hfalse => ?_⟩
  · rw [hmutable] at hfalse
    exact (Bool.or_eq_false_iff.mp hfalse).1
  · rw [hmutable]
    cases hmode : x.stage.mutable || unit.switches cfg with
    | false => rfl
    | true =>
      have hfailed := hflushed hfalse
      generalize (endState (Stage.execute deps cfg rocks unit x.stage)).node.db = db at hstep
      cases hstep with
      | failed _ => cases hfalse
      | stored _ _ _ => cases hfalse
      | unflushed hheight _ =>
        have := hflush hmode hheight
        rw [hfailed] at this
        cases this
      | undone _ _ _ => cases hfalse

/-- **The log of every run** in which no flush fails after a mutable block. -/
theorem JournalRun.logged (hC : ∀ s unit rocks, C s unit rocks → Flushes cfg s unit rocks)
    (h : JournalRun deps cfg C x) : Logged x := by
  induction h with
  | open_ t memory mutable => exact ⟨⟨1, le_refl _, rfl⟩, List.suffix_refl _, fun _ => rfl⟩
  | execute h unit rocks hcond ih =>
    obtain ⟨s, flushed, hs, hmode, hstep, hflushed⟩ := ih.executed (hC _ _ _ hcond)
    rw [hs]
    exact ih.step hmode hstep hflushed

end

end DogeIndexer.Compressor
