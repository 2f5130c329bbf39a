import DogeIndexer.Compressor.Replay
import DogeIndexer.Compressor.Serve

/-!
# Where a client's stream starts

A client asks for updates from points it knows, and the server looks for each of them in its log, from the start and
only up to the first entry at the point's height or above.

* `scanUntilOr_eq_some_iff` — what the scan finds.
* `intersects_iff` — a point is found exactly if one of its entries leads the entries at its height and above.
* `intersection_complete` — in a run of blocks and rollbacks that are not led by others, every logged point of the
  chain is found.
-/

set_option autoImplicit false

namespace DogeIndexer.Compressor

open Effect

/-! ## The search -/

/-- `KVTable::scan_until_or`, over the entries from the start. -/
def scanUntilOr {K V : Type} (predicate bailPredicate : V → Bool) : List (K × V) → Option K
  | [] => none
  | (k, v) :: entries =>
    if predicate v then some k
    else if bailPredicate v then none
    else scanUntilOr predicate bailPredicate entries

/-- An applied block or a mark, for one point. -/
def Log.isAt (height : Nat) (hash : BlockHash) (log : Log) : Bool :=
  (log.isApply || log.isMark) && log.height = height && log.hash = hash

/-- `MutableKV::find_wal_seq`. -/
def findWalSeq (wal : Table Nat Log) (height : Nat) (hash : BlockHash) : Option Nat :=
  scanUntilOr (Log.isAt height hash) (fun v => v.height ≥ height) wal.entries

/-- `BlockHash::from_byte_array`, after the check of the length. -/
def blockHashOf (bytes : Bytes) : Option BlockHash :=
  if bytes.length = 32 then some (Fin.ofNat (2 ^ 256) (Machine.ofBE bytes)) else none

/-- `SyncServerImpl::stream_updates_with_context`. -/
def streamUpdatesWithContext (wal : Table Nat Log) : List Api.BlockRef → Except Status Reader
  | [] => .error ⟨.notFound, "no intersect found with mutable part of chain"⟩
  | intersect :: intersects =>
    match blockHashOf intersect.hash with
    | none => .error ⟨.invalidArgument, "invalid intersect block hash"⟩
    | some hash =>
      match findWalSeq wal intersect.height hash with
      | some walSeq => .ok (Reader.start wal walSeq)
      | none => streamUpdatesWithContext wal intersects

/-- **What the scan finds**: the first entry to satisfy the predicate, if none before it stops the scan. -/
theorem scanUntilOr_eq_some_iff {K V : Type} {p bail : V → Bool} {l : List (K × V)} {k : K} :
    scanUntilOr p bail l = some k ↔
      ∃ before v after, l = before ++ (k, v) :: after ∧ p v = true ∧
        ∀ e ∈ before, p e.2 = false ∧ bail e.2 = false := by
  induction l with
  | nil => simp [scanUntilOr]
  | cons e l ih =>
    obtain ⟨k', v'⟩ := e
    rw [scanUntilOr]
    constructor
    · intro h
      split at h
      · rename_i hp
        cases h
        exact ⟨[], v', l, rfl, hp, by simp⟩
      · rename_i hp
        split at h
        · cases h
        · rename_i hbail
          obtain ⟨before, v, after, rfl, hv, hbefore⟩ := ih.mp h
          refine ⟨(k', v') :: before, v, after, rfl, hv, ?_⟩
          rintro e (_ | ⟨_, he⟩)
          · exact ⟨Bool.eq_false_iff.mpr hp, Bool.eq_false_iff.mpr hbail⟩
          · exact hbefore e he
    · rintro ⟨before, v, after, hl, hv, hbefore⟩
      cases before with
      | nil =>
        cases hl
        rw [if_pos hv]
      | cons e before =>
        obtain ⟨rfl, rfl⟩ := List.cons.inj hl
        obtain ⟨hp, hbail⟩ := hbefore _ List.mem_cons_self
        rw [if_neg (by simp [hp]), if_neg (by simp [hbail])]
        exact ih.mpr ⟨before, v, after, rfl, hv, fun e he => hbefore e (List.mem_cons_of_mem _ he)⟩

/-! ## Leading entries -/

/-- The search returns the number of an entry for the point. -/
def Intersects (wal : Table Nat Log) (height : Nat) (hash : BlockHash) : Prop :=
  ∃ seq log, findWalSeq wal height hash = some seq ∧ wal.get seq = some log ∧ log.isAt height hash = true

/-- An entry for the point has no entry at its height or above before it. -/
def Leads (l : List (Nat × Log)) (height : Nat) (hash : BlockHash) : Prop :=
  ∃ before k log after, l = before ++ (k, log) :: after ∧ log.isAt height hash = true ∧
    ∀ e ∈ before, e.2.height < height

theorem Log.height_of_isAt {log : Log} {height : Nat} {hash : BlockHash} (h : log.isAt height hash = true) :
    log.height = height ∧ log.hash = hash := by
  simp only [Log.isAt, Bool.and_eq_true, decide_eq_true_eq] at h
  exact ⟨h.1.2, h.2⟩

theorem leads_of_find {wal : Table Nat Log} {height seq : Nat} {hash : BlockHash}
    (h : findWalSeq wal height hash = some seq) : Leads wal.entries height hash := by
  obtain ⟨before, v, after, hl, hv, hbefore⟩ := scanUntilOr_eq_some_iff.mp h
  refine ⟨before, seq, v, after, hl, hv, fun e he => ?_⟩
  have := (hbefore e he).2
  simp only [ge_iff_le, decide_eq_false_iff_not, not_le] at this
  exact this

/-- **A point is found exactly if an entry of its own leads**, in every log. -/
theorem intersects_iff (wal : Table Nat Log) (height : Nat) (hash : BlockHash) :
    Intersects wal height hash ↔ Leads wal.entries height hash := by
  constructor
  · rintro ⟨seq, log, hfind, -, -⟩
    exact leads_of_find hfind
  · rintro ⟨before, k, log, after, hl, hat, hbefore⟩
    refine ⟨k, log, scanUntilOr_eq_some_iff.mpr ⟨before, log, after, hl, hat, fun e he => ?_⟩, ?_, hat⟩
    · have hlt := hbefore e he
      refine ⟨Bool.eq_false_iff.mpr fun hp => ?_, ?_⟩
      · exact absurd (Log.height_of_isAt hp).1 (by omega)
      · simp only [ge_iff_le, decide_eq_false_iff_not, not_le]
        exact hlt
    · refine Table.mem_entries.mp ?_
      rw [hl]
      simp

theorem not_intersects {wal : Table Nat Log} {height : Nat} {hash : BlockHash}
    (h : findWalSeq wal height hash = none) : ¬ Intersects wal height hash := by
  rintro ⟨seq, log, hfind, -, -⟩
  rw [h] at hfind
  cases hfind

/-- A client that knows no other point is refused. -/
theorem streamUpdates_refused {wal : Table Nat Log} {intersect : Api.BlockRef} (hash : BlockHash)
    (hhash : blockHashOf intersect.hash = some hash) (h : findWalSeq wal intersect.height hash = none) :
    streamUpdatesWithContext wal [intersect] =
      .error ⟨.notFound, "no intersect found with mutable part of chain"⟩ := by
  simp [streamUpdatesWithContext, hhash, h]

theorem Leads.append {l : List (Nat × Log)} {height : Nat} {hash : BlockHash} (h : Leads l height hash)
    (l' : List (Nat × Log)) : Leads (l ++ l') height hash := by
  obtain ⟨before, k, log, after, rfl, hat, hbefore⟩ := h
  exact ⟨before, k, log, after ++ l', by simp, hat, hbefore⟩

/-- An entry above all others leads. -/
theorem Leads.last {l : List (Nat × Log)} {height : Nat} {hash : BlockHash} (h : ∀ e ∈ l, e.2.height < height)
    {k : Nat} {log : Log} (hat : log.isAt height hash = true) : Leads (l ++ [(k, log)]) height hash :=
  ⟨l, k, log, [], rfl, hat, h⟩

/-! ## Runs -/

/-- An event comes above the log, or its point leads already; a rollback that comes above the log undoes nothing. -/
def Clear (s : Stage) : PullEvent → Prop
  | .rollForward height _ block _ =>
    Leads s.wal.entries height block.hash ∨ ∀ e ∈ s.wal.entries, e.2.height < height
  | .rollBack height hash _ =>
    Leads s.wal.entries height hash ∨ (∀ e ∈ s.wal.entries, e.2.height < height) ∧ ∀ e ∈ s.chain, e.1 ≤ height

/-- So it is for every event in mutable mode. -/
def Unobstructed (cfg : Config) (s : Stage) (unit : PullEvent) : Prop :=
  (s.mutable || unit.switches cfg) = true → Clear s unit

/-- Every point of the chain that is logged leads. -/
def Complete (s : Stage) : Prop :=
  ∀ p ∈ s.chain, (∃ e ∈ s.wal.entries, e.2.isAt p.1 p.2.1 = true) → Leads s.wal.entries p.1 p.2.1

section

variable {deps : Deps} {cfg : Config} {x : Journaled} {s : Stage}

/-- A log from which nothing was pruned is the one before the call, with the entries of the call. -/
theorem Logged.unpruned (h : Logged x) (hs : s.wal.entries = (x.record s).logs) {logs : List Log}
    (happended : Appended x.stage.wal x.stage.nextWalSeq logs s.wal) :
    x.stage.wal.entries = x.logs ∧
      s.wal.entries = x.stage.wal.entries ++ sequenced x.stage.nextWalSeq logs := by
  have hlogs : (x.record s).logs = x.logs ++ sequenced x.stage.nextWalSeq logs := by
    unfold Journaled.logs
    rw [h.record_entries, happended.entriesFrom h.lt, List.map_append, List.map_map]
    exact congrArg _ (List.map_id _)
  obtain ⟨pruned, kept, hsplit, hentries⟩ := happended
  obtain ⟨before, hbefore⟩ := h.wal
  have hkept : kept = x.logs := List.append_cancel_right (hentries.symm.trans (hs.trans hlogs))
  have hlength : before.length + (pruned.length + kept.length) = kept.length := by
    have := congrArg List.length hbefore
    rwa [hsplit, List.length_append, List.length_append, ← hkept] at this
  have hpruned : pruned = [] := List.length_eq_zero_iff.mp (by omega)
  rw [hpruned, List.nil_append] at hsplit
  exact ⟨by rw [hsplit, hkept], by rw [hentries, hsplit]⟩

/-- The entries of a call are about its own point, which leads. -/
theorem Complete.append (h : Complete x.stage) {logs : List Log} (height : Nat) (hash : BlockHash)
    (hentries : s.wal.entries = x.stage.wal.entries ++ sequenced x.stage.nextWalSeq logs)
    (hchain : ∀ p ∈ s.chain, p ∈ x.stage.chain ∨ p.1 = height ∧ p.2.1 = hash)
    (hpoint : ∀ log ∈ logs, log.isPoint = true → log.height = height ∧ log.hash = hash)
    (hleads : Leads s.wal.entries height hash) : Complete s := by
  rintro p hp ⟨e, he, hat⟩
  have hself : p.1 = height ∧ p.2.1 = hash → Leads s.wal.entries p.1 p.2.1 := by
    rintro ⟨h1, h2⟩
    rwa [h1, h2]
  rw [hentries] at he
  rcases List.mem_append.mp he with hold | hnew
  · rcases hchain p hp with hmem | hnewp
    · rw [hentries]
      exact (h p hmem ⟨e, hold, hat⟩).append _
    · exact hself hnewp
  · refine hself ?_
    have hmem : e.2 ∈ logs := by
      rw [← sequenced_logs x.stage.nextWalSeq logs]
      exact List.mem_map_of_mem hnew
    obtain ⟨h1, h2⟩ := Log.height_of_isAt hat
    have hisPoint : e.2.isPoint = true := by
      simp only [Log.isAt, Bool.and_eq_true] at hat
      exact hat.1.1
    obtain ⟨h3, h4⟩ := hpoint e.2 hmem hisPoint
    exact ⟨h1.symm.trans h3, h2.symm.trans h4⟩

/-- A log that is still empty. -/
theorem Logged.wal_nil (h : Logged x) (hmutable : x.stage.mutable = false) : x.stage.wal.entries = [] := by
  have hwal := h.wal
  unfold Journaled.logs at hwal
  rw [h.empty hmutable] at hwal
  exact List.suffix_nil.mp hwal

theorem Complete.of_nil (h : s.wal.entries = []) : Complete s := by
  rintro p - ⟨e, he, -⟩
  rw [h] at he
  cases he

/-- A step of the database. -/
theorem Complete.step {unit : PullEvent} {flushed : Bool} (hlogged : Logged x)
    (hmode : s.mutable = false → x.stage.mutable = false)
    (hstep : DbStep s.mutable x.stage.node.db unit flushed s.node.db) (hflushed : flushed = false → s.mutable = false)
    (hclear : s.mutable = true → Clear x.stage unit)
    (h : x.stage.wal.entries = x.logs → Complete x.stage) (hunpruned : s.wal.entries = (x.record s).logs) :
    Complete s := by
  obtain ⟨⟨db, memory⟩, mutable⟩ := s
  have hempty : mutable = false → db.tables.mutableKV = x.stage.wal →
      Complete ⟨⟨db, memory⟩, mutable⟩ := by
    rintro rfl hsame
    refine Complete.of_nil ?_
    change db.tables.mutableKV.entries = []
    rw [hsame]
    exact hlogged.wal_nil (hmode rfl)
  change DbStep mutable _ unit flushed db at hstep
  cases hstep with
  | failed _ =>
    refine h ?_
    have hjournal := @Logged.record_unchanged x ⟨⟨x.stage.node.db, memory⟩, mutable⟩ hlogged rfl
    unfold Journaled.logs at hunpruned ⊢
    rw [hjournal] at hunpruned
    exact hunpruned
  | @stored height hash block tip tables hparent hblocks hlog =>
    cases mutable with
    | false => exact hempty rfl hlog
    | true =>
      obtain ⟨entry, happended⟩ := hlog
      obtain ⟨hbefore, hentries⟩ := hlogged.unpruned hunpruned happended
      have hat : (Log.apply height block entry).isAt height block.hash = true := by
        simp [Log.isAt, Log.isApply, Log.height, Log.hash]
      refine (h hbefore).append height block.hash hentries ?_ ?_ ?_
      · intro p hp
        change p ∈ tables.blockByHeight.entries at hp
        rw [hblocks] at hp
        rcases Entries.mem_insert hp with rfl | hold
        · exact .inr ⟨rfl, rfl⟩
        · exact .inl hold
      · intro log hlog _
        cases List.mem_singleton.mp hlog
        exact ⟨rfl, rfl⟩
      · rw [hentries]
        rcases hclear rfl with hleads | habove
        · exact hleads.append _
        · exact Leads.last habove hat
  | unflushed hheight hlog => exact hempty (hflushed rfl) (hlog (hflushed rfl))
  | @undone height hash block tip removed tables hscan hblocks hlog =>
    cases mutable with
    | false => exact hempty rfl hlog
    | true =>
      obtain ⟨hbefore, hentries⟩ := hlogged.unpruned hunpruned hlog
      have hat : (Log.mark height hash block).isAt height hash = true := by
        simp [Log.isAt, Log.isMark, Log.height, Log.hash]
      refine (h hbefore).append height hash hentries ?_ ?_ ?_
      · intro p hp
        change p ∈ tables.blockByHeight.entries at hp
        rw [hblocks, Table.entries_eraseAll] at hp
        exact .inl (List.mem_filter.mp hp).1
      · intro log hlog hisPoint
        obtain ⟨j, hj⟩ := List.mem_iff_getElem?.mp hlog
        obtain ⟨-, rfl⟩ := rollbackLogs_point hj hisPoint
        exact ⟨rfl, rfl⟩
      · rw [hentries]
        rcases hclear rfl with hleads | ⟨habove, htop⟩
        · exact hleads.append _
        · -- nothing above the point is stored, so the mark is the only entry
          have hnone : removed = [] := by
            refine List.eq_nil_iff_forall_not_mem.mpr fun e he => ?_
            have hsorted := x.stage.node.db.tables.blockByHeight.entriesFrom_sorted height
            rw [hscan] at hsorted
            have hmem : e ∈ x.stage.chain := by
              refine (Table.entriesFrom_suffix _ height).subset ?_
              rw [hscan]
              exact List.mem_cons_of_mem _ he
            exact absurd (htop e hmem) (not_le_of_gt (hsorted.head_lt e he))
          rw [hnone]
          exact Leads.last habove hat

/-- Every run whose events are not obstructed keeps every logged point of the chain in the lead. -/
theorem JournalRun.complete
    (h : JournalRun deps cfg (fun s unit rocks => Flushes cfg s unit rocks ∧ Unobstructed cfg s unit) x) :
    x.stage.wal.entries = x.logs → Complete x.stage := by
  induction h with
  | open_ t memory mutable => exact fun _ => Complete.of_nil rfl
  | @execute x h unit rocks hcond ih =>
    intro hunpruned
    have hlogged := h.logged fun _ _ _ hC => hC.1
    obtain ⟨s, flushed, hs, hmode, hstep, hflushed⟩ := @Logged.executed deps cfg x unit rocks hlogged hcond.1
    have hmutable := execute_mutable deps cfg rocks unit x.stage
    rw [hs] at hunpruned hmutable ⊢
    refine Complete.step hlogged hmode hstep hflushed (fun htrue => ?_) ih hunpruned
    exact hcond.2 (hmutable.symm.trans htrue)

/-- **The search for intersects is complete** in every run in which no block is logged at or above the height of a
later one (and no rollback undoes blocks from before the log began): the search finds an entry for every point of
the chain that has one in the log, as long as nothing was pruned.  In any log at all, a point is found exactly if
an entry of its own leads. -/
theorem intersection_complete (deps : Deps) (cfg : Config) (x : Journaled)
    (h : JournalRun deps cfg (fun s unit rocks => Flushes cfg s unit rocks ∧ Unobstructed cfg s unit) x)
    (hunpruned : x.stage.wal.entries = x.logs) :
    (∀ p ∈ x.stage.chain, (∃ e ∈ x.stage.wal.entries, e.2.isAt p.1 p.2.1 = true) →
      Intersects x.stage.wal p.1 p.2.1) ∧
    ∀ (wal : Table Nat Log) (height : Nat) (hash : BlockHash),
      Intersects wal height hash ↔ Leads wal.entries height hash :=
  ⟨fun p hp he => (intersects_iff _ _ _).mpr (h.complete hunpruned p hp he), intersects_iff⟩

end

/-- A block that is rolled back and applied again is found by its first entry. -/
theorem intersection_complete_again :
    ∃ x, JournalRun emptyScripts fromFirstBlock
        (fun s unit rocks => Flushes fromFirstBlock s unit rocks ∧ Unobstructed fromFirstBlock s unit) x ∧
      x.stage.wal.entries.map Prod.fst = [1, 2, 3, 4, 5] ∧ Intersects x.stage.wal 1 2 := by
  have hopen : JournalRun emptyScripts fromFirstBlock
      (fun s unit rocks => Flushes fromFirstBlock s unit rocks ∧ Unobstructed fromFirstBlock s unit)
      ⟨⟨⟨ChainDB.reopen Tables.empty, none⟩, false⟩, Table.empty⟩ := .open_ Tables.empty none false
  have hfirst := hopen.execute (coinbaseEvent 0 10) ⟨true, true⟩ ⟨fun _ _ => rfl, fun _ => .inr (by decide +kernel)⟩
  have hsecond := hfirst.execute (coinbaseEvent 1 11) ⟨true, true⟩
    ⟨fun _ _ => rfl, fun _ => .inr (by decide +kernel)⟩
  have hback := hsecond.execute (.rollBack 0 1 (1, 2)) ⟨true, true⟩
    ⟨trivial, fun _ => .inl (@leads_of_find _ _ 1 _ (by decide +kernel))⟩
  have hagain := hback.execute (coinbaseEvent 1 11) ⟨true, true⟩
    ⟨fun _ _ => rfl, fun _ => .inl (@leads_of_find _ _ 2 _ (by decide +kernel))⟩
  have hlogged := hagain.logged fun _ _ _ hC => hC.1
  exact ⟨_, hagain, by decide +kernel,
    (intersection_complete _ _ _ hagain (hlogged.wal.eq_of_length (by decide +kernel))).1
      (1, 2, ⟨2, 1, [coinbaseTx 11 [5000000000]]⟩) (by decide +kernel) (by decide +kernel)⟩

/-- After a reorganisation the tip of the chain has an entry, and the search stops at the block it replaced: a
client at the tip is told that there is no intersect. -/
theorem reorganised_not_found :
    ∃ x block, JournalRun emptyScripts fromFirstBlock
        (fun s unit rocks => Flushes fromFirstBlock s unit rocks ∧ Ascends s unit) x ∧
      x.stage.wal.entries = x.logs ∧ (1, 9, block) ∈ x.stage.chain ∧
      (∃ e ∈ x.stage.wal.entries, e.2.isAt 1 9 = true) ∧ ¬ Intersects x.stage.wal 1 9 ∧
      streamUpdatesWithContext x.stage.wal [blockRefMessage 1 9] =
        .error ⟨.notFound, "no intersect found with mutable part of chain"⟩ := by
  have hopen : JournalRun emptyScripts fromFirstBlock
      (fun s unit rocks => Flushes fromFirstBlock s unit rocks ∧ Ascends s unit)
      ⟨⟨⟨ChainDB.reopen Tables.empty, none⟩, false⟩, Table.empty⟩ := .open_ Tables.empty none false
  have hsecond := (hopen.execute (coinbaseEvent 0 10) ⟨true, true⟩ ⟨fun _ _ => rfl, by decide +kernel⟩).execute
    (coinbaseEvent 1 11) ⟨true, true⟩ ⟨fun _ _ => rfl, by decide +kernel⟩
  have hback := hsecond.execute (.rollBack 0 1 (1, 2)) ⟨true, true⟩ ⟨trivial, trivial⟩
  have hlast := hback.execute (.rollForward 1 9 ⟨9, 1, [coinbaseTx 12 [5000000000]]⟩ (1, 9)) ⟨true, true⟩
    ⟨fun _ _ => rfl, by decide +kernel⟩
  have hlogged := hlast.logged fun _ _ _ hC => hC.1
  refine ⟨_, ⟨9, 1, [coinbaseTx 12 [5000000000]]⟩, hlast, hlogged.wal.eq_of_length (by decide +kernel),
    by decide +kernel, by decide +kernel, not_intersects (by decide +kernel), streamUpdates_refused 9 ?_ ?_⟩
  · decide +kernel
  · decide +kernel

end DogeIndexer.Compressor
