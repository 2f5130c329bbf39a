import DogeIndexer.Compressor.Roll

/-!
# The update stream

Model of `MutableKV::stream_mutable` (`compressor-xdg/src/storage/mutable/mod.rs`): a reader of the log that
opens an iterator at its last position, skips one entry, returns what follows, and waits for a notification.
It runs beside the roll stage, whose calls write to the log and prune it.

* `Reads.step` — what a reader returns is read under the numbers after its start, one by one.
* `stream_gapless` — no gap and no repeat, at any interleaving.
-/

set_option autoImplicit false

namespace DogeIndexer.Compressor

open Effect

/-! ## The reader -/

/-- Where the stream is. -/
inductive Phase where
  /-- An iterator is open; `rest` is what it has yet to return. -/
  | iterating (rest : List (Nat × Log))
  /-- The iterator is exhausted. -/
  | waiting
  /-- The stream has ended with an error. -/
  | closed

structure Reader where
  lastSeq : Nat
  phase : Phase
  yielded : List Log

/-- `MutableKV::iter_entries_from_no_tx` with the intersect skipped.  An iterator reads the log as it is when
it is opened; the entry skipped is the first one found, whichever number it has. -/
def openIterator (wal : Table Nat Log) (seq : Nat) : List (Nat × Log) := (wal.entriesFrom seq).tail

/-- The start of `MutableKV::stream_mutable`. -/
def Reader.start (wal : Table Nat Log) (initWalSeq : Nat) : Reader :=
  ⟨initWalSeq, .iterating (openIterator wal initWalSeq), []⟩

/-- The next step; `readable` is whether RocksDB reads the entry. -/
def Reader.step (wal : Table Nat Log) (readable : Bool) (r : Reader) : Reader :=
  match r.phase with
  | .closed => r
  -- a notification has arrived
  | .waiting => { r with phase := .iterating (openIterator wal r.lastSeq) }
  | .iterating [] => { r with phase := .waiting }
  | .iterating ((walSeq, log) :: rest) =>
    if readable = false ∨ walSeq ≠ r.lastSeq + 1 then { r with phase := .closed }
    else ⟨walSeq, .iterating rest, r.yielded ++ [log]⟩

/-- The stage and a reader that was started at `initWalSeq`, in any interleaving. -/
inductive StreamRun (deps : Deps) (cfg : Config) (C : Stage → PullEvent → Rocks → Prop) (initWalSeq : Nat) :
    Journaled → Reader → Prop
  | start {x : Journaled} (h : JournalRun deps cfg C x) :
      StreamRun deps cfg C initWalSeq x (Reader.start x.stage.wal initWalSeq)
  | write {x : Journaled} {r : Reader} (h : StreamRun deps cfg C initWalSeq x r) (unit : PullEvent) (rocks : Rocks)
      (hcond : C x.stage unit rocks) :
      StreamRun deps cfg C initWalSeq (x.record (endState (Stage.execute deps cfg rocks unit x.stage))) r
  | read {x : Journaled} {r : Reader} (h : StreamRun deps cfg C initWalSeq x r) (readable : Bool) :
      StreamRun deps cfg C initWalSeq x (r.step x.stage.wal readable)

/-! ## What is read -/

/-- The reader has returned the entries after `initWalSeq`, and its iterator holds entries of the log. -/
structure Reads (initWalSeq : Nat) (logs : List (Nat × Log)) (r : Reader) : Prop where
  lastSeq : r.lastSeq = initWalSeq + r.yielded.length
  yielded : ∀ e ∈ sequenced (initWalSeq + 1) r.yielded, e ∈ logs
  rest : ∀ rest, r.phase = .iterating rest → rest ⊆ logs

section

variable {initWalSeq : Nat} {logs logs' : List (Nat × Log)} {r : Reader} {wal : Table Nat Log}

theorem openIterator_subset (h : wal.entries ⊆ logs) (seq : Nat) : openIterator wal seq ⊆ logs := by
  intro e he
  exact h (List.mem_of_mem_filter (List.mem_of_mem_tail he))

theorem Reads.start (h : wal.entries ⊆ logs) (initWalSeq : Nat) :
    Reads initWalSeq logs (Reader.start wal initWalSeq) := by
  refine ⟨rfl, fun e he => (List.not_mem_nil he).elim, ?_⟩
  rintro rest hrest
  cases hrest
  exact openIterator_subset h initWalSeq

theorem Reads.mono (h : Reads initWalSeq logs r) (hlogs : logs ⊆ logs') : Reads initWalSeq logs' r :=
  ⟨h.lastSeq, fun e he => hlogs (h.yielded e he), fun rest hrest => List.Subset.trans (h.rest rest hrest) hlogs⟩

/-- **A step of the reader** returns the entry after the last one, or none. -/
theorem Reads.step (h : Reads initWalSeq logs r) (hwal : wal.entries ⊆ logs) (readable : Bool) :
    Reads initWalSeq logs (r.step wal readable) := by
  unfold Reader.step
  split
  · exact h
  · refine ⟨h.lastSeq, h.yielded, ?_⟩
    rintro rest hrest
    cases hrest
    exact openIterator_subset hwal r.lastSeq
  · exact ⟨h.lastSeq, h.yielded, fun rest hrest => by cases hrest⟩
  · rename_i walSeq log rest hphase
    split
    · exact ⟨h.lastSeq, h.yielded, fun rest hrest => by cases hrest⟩
    · rename_i hread
      rw [not_or, not_not] at hread
      obtain ⟨-, hseq⟩ := hread
      have hrest := h.rest _ hphase
      refine ⟨?_, ?_, ?_⟩
      · simp only
        rw [hseq, h.lastSeq, List.length_append]
        rfl
      · intro e he
        simp only [sequenced_append] at he
        rcases List.mem_append.mp he with he | he
        · exact h.yielded e he
        · have hnext : walSeq = initWalSeq + 1 + r.yielded.length := by
            rw [hseq, h.lastSeq]
            omega
          rw [← hnext] at he
          rw [List.mem_singleton.mp he]
          exact hrest List.mem_cons_self
      · rintro rest' hrest'
        cases hrest'
        exact fun e he => hrest (List.mem_cons_of_mem _ he)

end

/-! ## The stream -/

/-- The reader has returned exactly the entries `initWalSeq + 1`, ..., `initWalSeq + k`; the numbers in the log are
an interval that ends below the next one, and under a number stands the one entry that was ever written under it. -/
structure Gapless (initWalSeq : Nat) (x : Journaled) (r : Reader) : Prop where
  position : r.lastSeq = initWalSeq + r.yielded.length
  yielded : ∀ i log, r.yielded[i]? = some log → (x.journal.get (initWalSeq + 1 + i)).map Prod.fst = some log
  interval : ∃ a, a ≤ x.stage.nextWalSeq ∧
    ∀ k, (x.stage.wal.get k).isSome = true ↔ a ≤ k ∧ k < x.stage.nextWalSeq
  written : ∀ k log, x.stage.wal.get k = some log → (x.journal.get k).map Prod.fst = some log

section

variable {deps : Deps} {cfg : Config} {C : Stage → PullEvent → Rocks → Prop} {initWalSeq : Nat} {x : Journaled}
  {r : Reader}

/-- A log entry of the journal is found under its number. -/
theorem Journaled.get_of_mem {k : Nat} {log : Log} (h : (k, log) ∈ x.logs) :
    (x.journal.get k).map Prod.fst = some log := by
  obtain ⟨e, he, heq⟩ := List.mem_map.mp h
  cases heq
  rw [Table.mem_entries.mp he]
  rfl

/-- The numbers in the log are an interval. -/
theorem Logged.interval (h : Logged x) : ∃ a, Sequenced x.stage.wal a x.stage.nextWalSeq := by
  obtain ⟨a, hle, hkeys⟩ := h.numbers
  obtain ⟨before, hbefore⟩ := h.wal
  have hall : (before.map Prod.fst) ++ x.stage.wal.entries.map Prod.fst = List.range' a (x.stage.nextWalSeq - a) := by
    rw [← List.map_append, hbefore, ← hkeys]
    unfold Journaled.logs
    rw [List.map_map]
    rfl
  have hlength := congrArg List.length hall
  rw [List.length_append, List.length_map, List.length_map, List.length_range'] at hlength
  refine ⟨a + before.length, by omega, ?_⟩
  have hdrop := congrArg (List.drop before.length) hall
  rw [List.drop_left' (List.length_map _), List.drop_range'] at hdrop
  rw [hdrop]
  congr 1
  · omega
  · omega

/-- Along a run the reader returns entries of the journal. -/
theorem StreamRun.reads (hC : ∀ s unit rocks, C s unit rocks → Flushes cfg s unit rocks)
    (h : StreamRun deps cfg C initWalSeq x r) : Logged x ∧ Reads initWalSeq x.logs r := by
  induction h with
  | start h =>
    have hlogged := h.logged hC
    exact ⟨hlogged, Reads.start hlogged.wal.subset initWalSeq⟩
  | write h unit rocks hcond ih =>
    obtain ⟨hlogged, hreads⟩ := ih
    obtain ⟨s, flushed, hs, hmode, hstep, hflushed⟩ := hlogged.executed (hC _ _ _ hcond)
    rw [hs]
    refine ⟨hlogged.step hmode hstep hflushed, hreads.mono ?_⟩
    unfold Journaled.logs
    rw [hlogged.record_entries s, List.map_append]
    exact List.subset_append_left _ _
  | read h readable ih =>
    obtain ⟨hlogged, hreads⟩ := ih
    exact ⟨hlogged, hreads.step hlogged.wal.subset readable⟩

/-- **The update stream has no gap and no repeat**, at every interleaving of the reader with calls of the stage
in which no flush fails after a mutable block. -/
theorem stream_gapless (h : StreamRun deps cfg (Flushes cfg) initWalSeq x r) : Gapless initWalSeq x r := by
  obtain ⟨hlogged, hreads⟩ := h.reads (fun _ _ _ => id)
  obtain ⟨a, hinterval⟩ := hlogged.interval
  refine ⟨hreads.lastSeq, ?_, ⟨a, hinterval.1, hinterval.isSome_iff⟩, ?_⟩
  · intro i log hlog
    refine Journaled.get_of_mem (hreads.yielded _ ?_)
    refine List.mem_map.mpr ⟨(log, initWalSeq + 1 + i), ?_, rfl⟩
    rw [List.mk_mem_zipIdx_iff_le_and_getElem?_sub]
    exact ⟨Nat.le_add_right _ _, by rw [Nat.add_sub_cancel_left]; exact hlog⟩
  · intro k log hlog
    exact Journaled.get_of_mem (hlogged.wal.subset (Table.mem_entries.mpr hlog))

end

/-- A block with nothing but a coinbase, at the tip. -/
def coinbaseEvent (height : Nat) (txid : Txid) : PullEvent :=
  .rollForward height (Fin.ofNat _ (height + 1))
    ⟨Fin.ofNat _ (height + 1), Fin.ofNat _ height, [coinbaseTx txid [5000000000]]⟩ (height, Fin.ofNat _ (height + 1))

/-- Log entries are pruned after one confirmation. -/
def pruneAfterOne : Config := { fromFirstBlock with immutableAfterConfs := some 1 }

/-- The entry at the reader's position and the one after it are pruned: it ends with an error. -/
theorem stream_gapless_pruned :
    ∃ x r, StreamRun emptyScripts pruneAfterOne (Flushes pruneAfterOne) 1 x r ∧
      x.stage.wal.entries.map Prod.fst = [3, 4] ∧ r.lastSeq = 2 ∧ r.phase = .closed ∧ Gapless 1 x r := by
  have hopen : JournalRun emptyScripts pruneAfterOne (Flushes pruneAfterOne)
      ⟨⟨⟨ChainDB.reopen Tables.empty, none⟩, false⟩, Table.empty⟩ := .open_ Tables.empty none false
  have hsecond := (hopen.execute (coinbaseEvent 0 10) ⟨true, true⟩ (fun _ _ => rfl)).execute (coinbaseEvent 1 11)
    ⟨true, true⟩ (fun _ _ => rfl)
  have hstart : StreamRun emptyScripts pruneAfterOne (Flushes pruneAfterOne) 1 _ _ := .start hsecond
  have hread := hstart.read true
  have hlast := (hread.write (coinbaseEvent 2 12) ⟨true, true⟩ (fun _ _ => rfl)).write (coinbaseEvent 3 13)
    ⟨true, true⟩ (fun _ _ => rfl)
  have hclosed := ((hlast.read true).read true).read true
  exact ⟨_, _, hclosed, by decide +kernel, by decide +kernel, rfl, stream_gapless hclosed⟩

/-- The flush after block 5000 fails: its entry is in the log under the next number. -/
theorem unflushed_entry_beyond_next :
    ∃ x r, StreamRun emptyScripts fromFirstBlock (fun _ _ _ => True) 1 x r ∧
      (x.stage.wal.get x.stage.nextWalSeq).isSome = true ∧ ¬ Gapless 1 x r := by
  have hopen : JournalRun emptyScripts fromFirstBlock (fun _ _ _ => True)
      ⟨⟨⟨ChainDB.reopen Tables.empty, none⟩, false⟩, Table.empty⟩ := .open_ Tables.empty none false
  have hfirst := (hopen.execute (coinbaseEvent 4999 10) ⟨true, true⟩ trivial).execute (coinbaseEvent 5000 11)
    ⟨true, false⟩ trivial
  refine ⟨_, _, StreamRun.start hfirst, ?_, fun hgapless => ?_⟩
  · decide +kernel
  · obtain ⟨a, -, hinterval⟩ := hgapless.interval
    exact absurd ((hinterval _).mp (by decide +kernel)).2 (lt_irrefl _)

end DogeIndexer.Compressor
