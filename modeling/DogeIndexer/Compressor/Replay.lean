import DogeIndexer.Compressor.Stream

/-!
# Replaying the log

A client follows the chain by the entries of the log alone: an applied block is appended, a mark truncates the
chain to its point, an undo is ignored (`Worker::process_action` of `polyphony-xdg`).

* `replay_rollback` — the entries of a rollback lead to the chain it leaves.
* `replay_converges` — from every applied block and every mark, the entries that follow lead to the stored chain.
-/

set_option autoImplicit false

namespace DogeIndexer.Compressor

open Effect

/-! ## The client -/

def Log.hash : Log → BlockHash
  | .apply _ block _ => block.hash
  | .undo _ hash _ => hash
  | .mark _ hash _ => hash

def Log.isApply : Log → Bool
  | .apply _ _ _ => true
  | _ => false

def Log.isMark : Log → Bool
  | .mark _ _ _ => true
  | _ => false

/-- A client can be at an applied block or at a mark. -/
def Log.isPoint (log : Log) : Bool := log.isApply || log.isMark

/-- The chain up to a point that must be on it. -/
def truncateTo (height : Nat) (hash : BlockHash) :
    List (Nat × BlockHash × Block) → Option (List (Nat × BlockHash × Block))
  | [] => none
  | e :: chain => if e.1 = height ∧ e.2.1 = hash then some [e] else (truncateTo height hash chain).map (e :: ·)

/-- One entry: `none` when a block does not follow the tip or a mark is not on the chain. -/
def follow (chain : List (Nat × BlockHash × Block)) : Log → Option (List (Nat × BlockHash × Block))
  | .apply height block _ =>
    match chain.getLast? with
    | some tip => if tip.2.1 = block.prevBlockhash then some (chain ++ [(height, block.hash, block)]) else none
    | none => none
  | .undo _ _ _ => some chain
  | .mark height hash _ => truncateTo height hash chain

/-- The entries of a log, in order. -/
def replay (chain : List (Nat × BlockHash × Block)) (logs : List Log) : Option (List (Nat × BlockHash × Block)) :=
  logs.foldlM follow chain

/-- Blocks come above those stored, as the pull stage numbers them. -/
def Ascends (s : Stage) : PullEvent → Prop
  | .rollForward height _ _ _ => ∀ e ∈ s.chain, e.1 < height
  | .rollBack _ _ _ => True

instance (s : Stage) (unit : PullEvent) : Decidable (Ascends s unit) :=
  match unit with
  | .rollForward height _ _ _ => inferInstanceAs (Decidable (∀ e ∈ s.chain, e.1 < height))
  | .rollBack _ _ _ => isTrue trivial

theorem replay_append (chain : List (Nat × BlockHash × Block)) (logs logs' : List Log) :
    replay chain (logs ++ logs') = (replay chain logs).bind fun chain' => replay chain' logs' := by
  unfold replay
  rw [List.foldlM_append]
  rfl

/-- The point is found where its height is. -/
theorem truncateTo_split {before removed : List (Nat × BlockHash × Block)} {height : Nat} {hash : BlockHash}
    {block : Block} (h : ∀ e ∈ before, e.1 ≠ height) :
    truncateTo height hash (before ++ (height, hash, block) :: removed) = some (before ++ [(height, hash, block)]) := by
  induction before with
  | nil => exact if_pos ⟨rfl, rfl⟩
  | cons e before ih =>
    have hne : ¬ (e.1 = height ∧ e.2.1 = hash) := fun heq => h e List.mem_cons_self heq.1
    change (if e.1 = height ∧ e.2.1 = hash then some [e]
      else (truncateTo height hash (before ++ (height, hash, block) :: removed)).map (e :: ·)) = _
    rw [if_neg hne, ih fun e' he' => h e' (List.mem_cons_of_mem _ he')]
    rfl

/-! ## One call -/

/-- The chain below a point, and what is above it. -/
theorem entriesFrom_split {t : Table Nat (BlockHash × Block)} {height : Nat} {point : BlockHash × Block}
    {removed : List (Nat × BlockHash × Block)} (h : t.entriesFrom height = (height, point) :: removed) :
    ∃ before, t.entries = before ++ (height, point) :: removed ∧ (∀ e ∈ before, e.1 ≠ height) ∧
      (t.eraseAll (removed.reverse.map Prod.fst)).entries = before ++ [(height, point)] := by
  obtain ⟨before, hsplit⟩ := t.entriesFrom_suffix height
  rw [h] at hsplit
  refine ⟨before, hsplit.symm, fun e he => ?_, ?_⟩
  · exact Table.keys_disjoint hsplit.symm e he _ List.mem_cons_self
  · have hsame : t.eraseAll (removed.reverse.map Prod.fst) = t.eraseAll (removed.map Prod.fst) := by
      refine Table.ext_get fun k => ?_
      rw [Table.get_eraseAll, Table.get_eraseAll, List.map_reverse]
      simp only [List.mem_reverse]
    rw [hsame]
    refine Table.entries_eraseAll_right ?_
    rw [List.append_assoc]
    exact hsplit.symm

theorem replay_undos (chain removed : List (Nat × BlockHash × Block)) :
    replay chain (removed.map fun e => .undo e.1 e.2.1 e.2.2) = some chain := by
  induction removed with
  | nil => rfl
  | cons e removed ih => exact ih

/-- **The entries of a rollback** lead a client to its point. -/
theorem replay_rollback {before removed : List (Nat × BlockHash × Block)} {height : Nat} {hash : BlockHash}
    {block : Block} (h : ∀ e ∈ before, e.1 ≠ height) :
    replay (before ++ (height, hash, block) :: removed) (rollbackLogs removed (height, hash, block)) =
      some (before ++ [(height, hash, block)]) := by
  unfold rollbackLogs
  rw [replay_append, replay_undos, Option.bind_some]
  change (truncateTo height hash _).bind some = _
  rw [truncateTo_split h]
  rfl

/-- Only the last entry of a rollback is a point. -/
theorem rollbackLogs_point {removed : List (Nat × BlockHash × Block)} {point : Nat × BlockHash × Block} {j : Nat}
    {log : Log} (h : (rollbackLogs removed point)[j]? = some log) (hpoint : log.isPoint = true) :
    j + 1 = (rollbackLogs removed point).length ∧ log = .mark point.1 point.2.1 point.2.2 := by
  unfold rollbackLogs at h ⊢
  rw [List.getElem?_append] at h
  split at h
  · rw [List.getElem?_map] at h
    obtain ⟨e, -, rfl⟩ := Option.map_eq_some_iff.mp h
    cases hpoint
  · rename_i hlt
    obtain ⟨hlast, heq⟩ := List.getElem?_eq_some_iff.mp h
    rw [List.length_append]
    simp only [List.length_singleton] at hlast ⊢
    refine ⟨by omega, ?_⟩
    rw [← heq]
    simp

/-! ## Runs -/

/-- From every point of the journal the entries that follow lead to the stored chain, and its tip is the last hash. -/
structure Converges (x : Journaled) : Prop where
  tip : x.journal.entries ≠ [] →
    ∃ tip, x.stage.chain.getLast? = some tip ∧ x.stage.node.db.lastBlockHash = some tip.2.1
  replays : ∀ i e, x.journal.entries[i]? = some e → e.2.1.isPoint = true →
    replay e.2.2 ((x.journal.entries.drop (i + 1)).map fun e => e.2.1) = some x.stage.chain ∧
      e.2.2.getLast?.map (fun e => (e.1, e.2.1)) = some (e.2.1.height, e.2.1.hash)

section

variable {deps : Deps} {cfg : Config} {x : Journaled} {s : Stage} {unit : PullEvent}

/-- A call that writes nothing, to the log or to the chain. -/
theorem Converges.unchanged (h : Converges x) (hlogged : Logged x) (hdb : s.node.db = x.stage.node.db) :
    Converges (x.record s) := by
  have hjournal : (x.record s).journal = x.journal := by
    refine hlogged.record_unchanged ?_
    unfold Stage.wal
    rw [hdb]
  have hchain : (x.record s).stage.chain = x.stage.chain := by
    change s.node.db.tables.blockByHeight.entries = _
    rw [hdb]
    rfl
  refine ⟨?_, ?_⟩
  · rw [hjournal, hchain]
    change _ → ∃ tip, _ ∧ s.node.db.lastBlockHash = _
    rw [hdb]
    exact h.tip
  · rw [hjournal, hchain]
    exact h.replays

/-- A call before the first entry. -/
theorem Converges.empty (hlogged : Logged x) (hmutable : x.stage.mutable = false) (hwal : s.wal = x.stage.wal) :
    Converges (x.record s) := by
  have hempty : (x.record s).journal.entries = [] := by
    rw [hlogged.record_unchanged hwal, hlogged.empty hmutable]
    rfl
  refine ⟨fun h => absurd hempty h, fun i e hi => ?_⟩
  rw [hempty] at hi
  cases hi

/-- **A call that writes `logs`**, the last of which is its only point. -/
theorem Converges.append (h : Converges x) (hlogged : Logged x) {logs : List Log}
    (happended : Appended x.stage.wal x.stage.nextWalSeq logs s.wal) {tip : Nat × BlockHash × Block}
    (htip : s.chain.getLast? = some tip) (hhash : s.node.db.lastBlockHash = some tip.2.1)
    (hreplay : x.journal.entries ≠ [] → replay x.stage.chain logs = some s.chain)
    (hpoint : ∀ j log, logs[j]? = some log → log.isPoint = true →
      j + 1 = logs.length ∧ (tip.1, tip.2.1) = (log.height, log.hash)) : Converges (x.record s) := by
  have hentries := hlogged.record_entries s
  rw [happended.entriesFrom hlogged.lt] at hentries
  have hlogs : ((sequenced x.stage.nextWalSeq logs).map fun e => (e.1, e.2, s.chain)).map
      (fun e : Nat × Log × List (Nat × BlockHash × Block) => e.2.1) = logs := by
    unfold sequenced
    rw [List.map_map, List.map_map]
    exact List.zipIdx_map_fst _ logs
  refine ⟨fun _ => ⟨tip, htip, hhash⟩, fun i e hi hisPoint => ?_⟩
  change _ = some s.chain ∧ _
  rw [hentries] at hi ⊢
  rw [List.getElem?_append] at hi
  split at hi
  · -- an entry of an earlier call
    rename_i hlt
    obtain ⟨hold, hlast⟩ := h.replays i e hi hisPoint
    refine ⟨?_, hlast⟩
    rw [List.drop_append_of_le_length hlt, List.map_append, hlogs, replay_append, hold, Option.bind_some]
    exact hreplay (List.ne_nil_of_length_pos (Nat.zero_lt_of_lt hlt))
  · -- the point of this call
    rename_i hge
    rw [List.getElem?_map] at hi
    obtain ⟨entry, hentry, rfl⟩ := Option.map_eq_some_iff.mp hi
    have hlog : logs[i - x.journal.entries.length]? = some entry.2 := by
      rw [← hlogs, List.getElem?_map, List.getElem?_map, hentry]
      rfl
    obtain ⟨hend, heq⟩ := hpoint _ _ hlog hisPoint
    refine ⟨?_, by rw [htip, ← heq]; rfl⟩
    rw [List.drop_of_length_le]
    · rfl
    · rw [List.length_append, List.length_map, sequenced_length]
      omega

/-- A step of the database. -/
theorem Converges.step {flushed : Bool} (h : Converges x) (hlogged : Logged x)
    (hmode : s.mutable = false → x.stage.mutable = false)
    (hstep : DbStep s.mutable x.stage.node.db unit flushed s.node.db) (hflushed : flushed = false → s.mutable = false)
    (hascends : Ascends x.stage unit) : Converges (x.record s) := by
  obtain ⟨⟨db, memory⟩, mutable⟩ := s
  change DbStep mutable _ unit flushed db at hstep
  cases hstep with
  | failed _ => exact h.unchanged hlogged rfl
  | @stored height hash block tip tables hparent hblocks hlog =>
    cases mutable with
    | false => exact Converges.empty hlogged (hmode rfl) hlog
    | true =>
      obtain ⟨entry, happended⟩ := hlog
      have hchain : tables.blockByHeight.entries = x.stage.chain ++ [(height, block.hash, block)] := by
        rw [hblocks]
        exact Table.entries_insert_last _ hascends
      have htip : tables.blockByHeight.entries.getLast? = some (height, block.hash, block) := by
        rw [hchain]
        exact List.getLast?_concat
      refine h.append hlogged happended htip rfl ?_ ?_
      · intro hne
        obtain ⟨below, hbelow, hlast⟩ := h.tip hne
        have hprev := hparent _ hlast
        change (follow x.stage.chain (.apply height block entry)).bind some = some tables.blockByHeight.entries
        unfold follow
        rw [hbelow]
        simp only
        rw [if_pos hprev.symm, hchain]
        rfl
      · intro j log hj hisPoint
        cases j with
        | zero =>
          cases hj
          exact ⟨rfl, rfl⟩
        | succ j => cases hj
  | unflushed hheight hlog => exact Converges.empty hlogged (hmode (hflushed rfl)) (hlog (hflushed rfl))
  | @undone height hash block tip removed tables hscan hblocks hlog =>
    cases mutable with
    | false => exact Converges.empty hlogged (hmode rfl) hlog
    | true =>
      obtain ⟨before, hsplit, hbelow, herased⟩ := entriesFrom_split hscan
      rw [← hblocks] at herased
      have htip : tables.blockByHeight.entries.getLast? = some (height, hash, block) := by
        rw [herased]
        exact List.getLast?_concat
      refine h.append hlogged hlog htip rfl ?_ ?_
      · intro _
        change replay x.stage.node.db.tables.blockByHeight.entries _ = some tables.blockByHeight.entries
        rw [hsplit, herased]
        exact replay_rollback hbelow
      · intro j log hj hisPoint
        obtain ⟨hend, rfl⟩ := rollbackLogs_point hj hisPoint
        exact ⟨hend, rfl⟩

/-- Every run converges. -/
theorem JournalRun.converges
    (h : JournalRun deps cfg (fun s unit rocks => Flushes cfg s unit rocks ∧ Ascends s unit) x) :
    Logged x ∧ Converges x := by
  refine ⟨h.logged fun _ _ _ hC => hC.1, ?_⟩
  induction h with
  | open_ t memory mutable => exact ⟨fun h => absurd rfl h, fun i e hi => by cases hi⟩
  | execute h unit rocks hcond ih =>
    have hlogged := h.logged fun _ _ _ hC => hC.1
    obtain ⟨s, flushed, hs, hmode, hstep, hflushed⟩ := hlogged.executed hcond.1
    rw [hs]
    exact ih.step hlogged hmode hstep hflushed hcond.2

/-- What follows an entry of the log follows it in the journal. -/
theorem Logged.entriesFrom_succ (h : Logged x) {i : Nat} (hi : (x.stage.wal.get i).isSome = true) :
    x.stage.wal.entriesFrom (i + 1) = x.logs.filter fun e => i < e.1 := by
  obtain ⟨log, hlog⟩ := Option.isSome_iff_exists.mp hi
  obtain ⟨before, hbefore⟩ := h.wal
  have hsorted : x.logs.Pairwise fun e e' => e.1 < e'.1 := List.pairwise_map.mpr x.journal.sorted
  rw [← hbefore] at hsorted ⊢
  rw [List.filter_append, List.filter_eq_nil_iff.mpr, List.nil_append]
  · rfl
  · intro e he hlt
    have hgt := (List.pairwise_append.mp hsorted).2.2 e he _ (Table.mem_entries.mpr hlog)
    exact absurd (of_decide_eq_true hlt) (not_lt_of_gt hgt)

/-- **Replaying the log converges to the stored chain.**  A client at an applied block or a mark, whose chain was
the stored one at that entry, follows all later entries (every block follows its tip, every mark is on its chain)
and ends with the chain that is stored, in every run in which no flush fails after a mutable block. -/
theorem replay_converges
    (h : JournalRun deps cfg (fun s unit rocks => Flushes cfg s unit rocks ∧ Ascends s unit) x) {i : Nat} {log : Log}
    {chain : List (Nat × BlockHash × Block)} (hentry : x.journal.get i = some (log, chain))
    (hpoint : log.isPoint = true) :
    chain.getLast?.map (fun e => (e.1, e.2.1)) = some (log.height, log.hash) ∧
      replay chain ((x.logs.filter fun e => i < e.1).map Prod.snd) = some x.stage.chain ∧
      ((x.stage.wal.get i).isSome = true →
        x.stage.wal.entriesFrom (i + 1) = x.logs.filter fun e => i < e.1) := by
  obtain ⟨hlogged, hconverges⟩ := h.converges
  obtain ⟨j, hj⟩ := List.mem_iff_getElem?.mp (Table.mem_entries.mpr hentry)
  obtain ⟨hreplay, htip⟩ := hconverges.replays j _ hj hpoint
  refine ⟨htip, ?_, hlogged.entriesFrom_succ⟩
  have hafter : (x.logs.filter fun e => i < e.1).map Prod.snd =
      (x.journal.entries.drop (j + 1)).map fun e => e.2.1 := by
    unfold Journaled.logs
    rw [List.filter_map, List.map_map, ← Table.filter_lt_eq_drop x.journal.sorted hj]
    rfl
  rw [hafter]
  exact hreplay

end

/-- Two blocks, a reorganisation of the second one, and a client at the first. -/
theorem replay_converges_reorg :
    ∃ x log chain, JournalRun emptyScripts fromFirstBlock
        (fun s unit rocks => Flushes fromFirstBlock s unit rocks ∧ Ascends s unit) x ∧
      x.journal.get 1 = some (log, chain) ∧ x.logs.map Prod.fst = [1, 2, 3, 4, 5] ∧
      replay chain ((x.logs.filter fun e => 1 < e.1).map Prod.snd) = some x.stage.chain ∧
      x.stage.chain.map (fun e => e.2.1) = [1, 9] := by
  have hopen : JournalRun emptyScripts fromFirstBlock
      (fun s unit rocks => Flushes fromFirstBlock s unit rocks ∧ Ascends s unit)
      ⟨⟨⟨ChainDB.reopen Tables.empty, none⟩, false⟩, Table.empty⟩ := .open_ Tables.empty none false
  have hsecond := (hopen.execute (coinbaseEvent 0 10) ⟨true, true⟩ ⟨fun _ _ => rfl, by decide +kernel⟩).execute
    (coinbaseEvent 1 11) ⟨true, true⟩ ⟨fun _ _ => rfl, by decide +kernel⟩
  have hback := hsecond.execute (.rollBack 0 1 (1, 2)) ⟨true, true⟩ ⟨trivial, trivial⟩
  have hlast := hback.execute (.rollForward 1 9 ⟨9, 1, [coinbaseTx 12 [5000000000]]⟩ (1, 9)) ⟨true, true⟩
    ⟨fun _ _ => rfl, by decide +kernel⟩
  exact ⟨_, _, _, hlast, rfl, by decide +kernel, (replay_converges hlast rfl rfl).2.1, by decide +kernel⟩

/-- The flush after block 5000 fails, and the entry of the rollback that follows takes the number of its entry: a
client at block 4999 does not find the mark on its chain. -/
theorem unflushed_mark_not_found :
    ∃ x log chain, JournalRun emptyScripts fromFirstBlock (fun s unit _ => Ascends s unit) x ∧
      x.journal.get 1 = some (log, chain) ∧ log.isPoint = true ∧
      (x.stage.wal.entriesFrom 2).map (fun e => (e.1, e.2.isMark)) = [(2, true)] ∧
      replay chain ((x.stage.wal.entriesFrom 2).map Prod.snd) = none := by
  have hopen : JournalRun emptyScripts fromFirstBlock (fun s unit _ => Ascends s unit)
      ⟨⟨⟨ChainDB.reopen Tables.empty, none⟩, false⟩, Table.empty⟩ := .open_ Tables.empty none false
  have hsecond := (hopen.execute (coinbaseEvent 4999 10) ⟨true, true⟩ (by decide +kernel)).execute
    (coinbaseEvent 5000 11) ⟨true, false⟩ (by decide +kernel)
  have hback := hsecond.execute (.rollBack 5000 5001 (5000, 5001)) ⟨true, true⟩ trivial
  exact ⟨_, _, _, hback, rfl, rfl, by decide +kernel, by decide +kernel⟩

end DogeIndexer.Compressor
