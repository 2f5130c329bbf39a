import DogeIndexer.Compressor.PullEvents

/-!
# Runs of the pull stage

The pull stage and the roll stage work on one database with a queue of events between them: the database lags
behind the events that have been sent.  In a run whose calls go by points on the chain the events always fit, so
the roll stage refuses none of them.

* `Stores.execute` — the roll stage takes an event that fits, and stores the chain with it.
* `PullRun.placed` — all events sent fit, and the database holds the chain of those consumed.
* `pull_events_fit` — every run of such calls; a call that goes by another point sends events that do not fit.
* `restarted_events_refused` — a run with such a call, and what the roll stage reports.
-/

set_option autoImplicit false

namespace DogeIndexer.Compressor

open Fallible

/-! ## Stored points -/

section

variable {t : Table Nat (BlockHash × Block)}

theorem points_eraseAll (t : Table Nat (BlockHash × Block)) (keys : List Nat) :
    points (t.eraseAll keys) = (points t).filter fun p => p.1 ∉ keys := by
  unfold points
  rw [Table.entries_eraseAll, List.filter_map]
  rfl

/-- A block at a height above the others, or in the place of the last one. -/
theorem points_insert {front : List Point} {height : Nat} {hash : BlockHash} {block : Block}
    (hlower : ∀ p ∈ front, p.1 < height) (h : points t = front ∨ ∃ hash', points t = front ++ [(height, hash')]) :
    points (t.insert height (hash, block)) = front ++ [(height, hash)] := by
  have hkeep : front.filter (fun p => p.1 ∉ [height]) = front := by
    refine List.filter_eq_self.mpr fun p hp => ?_
    simpa using Nat.ne_of_lt (hlower p hp)
  have herased : points (t.eraseAll [height]) = front := by
    rw [points_eraseAll]
    rcases h with h | ⟨hash', h⟩
    · rw [h, hkeep]
    · rw [h, List.filter_append, hkeep, List.filter_eq_nil_iff.mpr (by simp), List.append_nil]
  have hinsert : t.insert height (hash, block) = (t.eraseAll [height]).insert height (hash, block) := by
    refine Table.ext_get fun k => ?_
    rw [Table.get_insert, Table.get_insert, Table.get_eraseAll]
    split
    · rfl
    · rename_i hk
      rw [if_neg (by simpa using fun heq => hk heq)]
  rw [hinsert]
  unfold points at herased ⊢
  rw [Table.entries_insert_last, List.map_append, herased]
  · rfl
  · intro e he
    exact hlower (e.1, e.2.1) (herased ▸ List.mem_map_of_mem he)

theorem mem_points {p : Point} : p ∈ points t ↔ ∃ block, (p.1, p.2, block) ∈ t.entries := by
  constructor
  · intro h
    obtain ⟨e, he, rfl⟩ := List.mem_map.mp h
    exact ⟨e.2.2, he⟩
  · rintro ⟨block, h⟩
    exact List.mem_map.mpr ⟨_, h, rfl⟩

/-- What a rollback removes are the points above its own. -/
theorem points_above {height : Nat} {hash : BlockHash} {block : Block} {removed : List (Nat × BlockHash × Block)}
    (hscan : t.entriesFrom height = (height, hash, block) :: removed) :
    points (t.eraseAll (removed.reverse.map Prod.fst)) = (points t).filter fun p => p.1 ≤ height := by
  have hsorted := t.entriesFrom_sorted height
  rw [hscan] at hsorted
  rw [points_eraseAll]
  refine List.filter_congr fun p hp => ?_
  obtain ⟨b, hb⟩ := mem_points.mp hp
  rw [decide_eq_decide, List.map_reverse, List.mem_reverse]
  constructor
  · intro hkept
    by_contra habove
    have hmem : (p.1, p.2, b) ∈ t.entriesFrom height :=
      Table.mem_entriesFrom.mpr ⟨by omega, Table.mem_entries.mp hb⟩
    rw [hscan] at hmem
    rcases List.mem_cons.mp hmem with heq | hmem
    · exact habove (le_of_eq (congrArg Prod.fst heq))
    · exact hkept (List.mem_map_of_mem (f := Prod.fst) hmem)
  · intro hle hkey
    obtain ⟨e, he, heq⟩ := List.mem_map.mp hkey
    have := hsorted.head_lt e he
    simp only at this
    omega

end

/-! ## Calls of the roll stage -/

section

variable {deps : Deps} {cfg : Config} {rocks : Rocks} {height : Nat} {block : Block} {mutable : Bool} {n : Node}

theorem stagedTables_blocks {tables : Tables} (h : stagedTables deps cfg height block mutable n = some tables) :
    tables.blockByHeight = n.db.tables.blockByHeight.insert height (block.hash, block) := by
  unfold stagedTables at h
  split at h
  · cases h
  · split at h
    · cases h
    · split at h
      · cases h
      · rename_i hstage
        cases h
        unfold stageBlock at hstage
        obtain ⟨staged, -, hstage⟩ := bind_eq_ok.mp hstage
        cases hstage
        rfl

/-- The blocks after a call of `apply_block_with_context`; a failed flush leaves the block stored. -/
theorem apply_blocks :
    match applyBlockWithContext deps cfg rocks height block mutable n with
    | .ok () n' => n'.db.tables.blockByHeight = n.db.tables.blockByHeight.insert height (block.hash, block) ∧
        n'.db.lastBlockHash = some block.hash
    | .error _ n' => n'.db.lastBlockHash = n.db.lastBlockHash ∧
        (n'.db.tables.blockByHeight = n.db.tables.blockByHeight ∨
          n'.db.tables.blockByHeight = n.db.tables.blockByHeight.insert height (block.hash, block)) := by
  cases hstaged : stagedTables deps cfg height block mutable n with
  | none =>
    obtain ⟨e, n', hrun, hdb⟩ := apply_unstaged hstaged rocks
    rw [hrun]
    exact ⟨by rw [hdb], .inl (by rw [hdb])⟩
  | some tables =>
    obtain ⟨memory, hruns⟩ := apply_staged hstaged
    have hblocks := stagedTables_blocks hstaged
    rw [hruns rocks]
    split_ifs
    · exact ⟨rfl, .inl rfl⟩
    · exact ⟨rfl, .inr hblocks⟩
    · exact ⟨hblocks, rfl⟩

/-- The blocks after a call of `rollback`. -/
theorem rollback_blocks {hash : BlockHash} :
    match rollback deps cfg rocks height hash mutable n with
    | .ok () n' => points n'.db.tables.blockByHeight =
        ((points n.db.tables.blockByHeight).filter fun p => p.1 ≤ height) ∧ n'.db.lastBlockHash = some hash
    | .error _ n' => n'.db = n.db := by
  unfold rollback
  generalize hscan : n.db.tables.blockByHeight.entriesFrom height = scan
  match scan with
  | [] => exact rfl
  | (foundHeight, foundHash, foundBlock) :: removed =>
    by_cases hpoint : height ≠ foundHeight ∨ hash ≠ foundHash
    · simp only [if_pos hpoint]
    · simp only [if_neg hpoint]
      obtain ⟨rfl, rfl⟩ : height = foundHeight ∧ hash = foundHash := by
        rw [not_or] at hpoint
        exact ⟨not_not.mp hpoint.1, not_not.mp hpoint.2⟩
      cases hfold : removed.reverse.foldlM (undoBlock deps cfg mutable) (n.db.tables, n.db.nextWalSeq) with
      | error e => rfl
      | ok x =>
        have hpoints := points_above hscan
        rw [← (undoBlocks_log hfold).1] at hpoints
        cases rocks.commit with
        | false => cases mutable <;> rfl
        | true => cases mutable <;> exact ⟨hpoints, rfl⟩

end

/-- The database holds a chain of points; of the next event the block may be stored already, when the flush after
its commit failed. -/
structure Stores (s : Stage) (queue : List PullEvent) (stored : List Point) : Prop where
  last : s.node.db.lastBlockHash = stored.getLast?.map Prod.snd
  chain : points s.node.db.tables.blockByHeight = stored ∨
    ∃ height hash block tip rest, queue = .rollForward height hash block tip :: rest ∧
      points s.node.db.tables.blockByHeight = stored ++ [(height, hash)]

section

variable {deps : Deps} {cfg : Config} {genesisHash : BlockHash} {s : Stage} {rest : List PullEvent}
  {stored stored' : List Point}

/-- **The roll stage takes an event that fits**, or fails for another reason and keeps it. -/
theorem Stores.execute {unit : PullEvent} (h : Stores s (unit :: rest) stored) (hstored : Contiguous stored)
    (hafter : unit.after genesisHash stored = some stored') (rocks : Rocks) :
    match Stage.execute deps cfg rocks unit s with
    | .ok () s' => Stores s' rest stored'
    | .error e s' => ¬ e.Misplaced ∧ Stores s' (unit :: rest) stored := by
  cases unit with
  | rollForward height hash block tip =>
    simp only [PullEvent.after] at hafter
    split at hafter
    · rename_i hfits
      cases hafter
      obtain ⟨rfl, hparent⟩ := hfits
      obtain ⟨hheight, hparent⟩ := Prod.mk.inj hparent
      have hlower : ∀ p ∈ stored, p.1 < height := by
        intro p hp
        have hkey : p.1 ∈ stored.map Prod.fst := List.mem_map_of_mem hp
        rw [hstored, List.mem_range'_1] at hkey
        rw [hstored.chainTip_height] at hheight
        omega
      have hpoints : points s.node.db.tables.blockByHeight = stored ∨
          ∃ hash', points s.node.db.tables.blockByHeight = stored ++ [(height, hash')] := by
        rcases h.chain with heq | ⟨_, hash', _, _, _, hqueue, heq⟩
        · exact .inl heq
        · cases hqueue
          exact .inr ⟨_, heq⟩
      have hmisplaced : ∀ mutable e n', applyBlockWithContext deps cfg rocks height block mutable s.node = .error e n' →
          ¬ e.Misplaced := by
        intro mutable e n' hrun he
        obtain ⟨last, hlast, hother⟩ := (apply_misplaced_iff deps cfg rocks height mutable s.node block).mp ⟨e, n', hrun, he⟩
        rw [h.last] at hlast
        obtain ⟨p, hp, rfl⟩ := Option.map_eq_some_iff.mp hlast
        rw [hparent, chainTip_of_last hp] at hother
        exact hother rfl
      have hblocks := @apply_blocks deps cfg rocks height block (s.mutable || (PullEvent.rollForward height block.hash
        block tip).switches cfg) s.node
      unfold Stage.execute
      simp only
      cases hrun : applyBlockWithContext deps cfg rocks height block (s.mutable || (PullEvent.rollForward height
          block.hash block tip).switches cfg) s.node with
      | ok u n' =>
        rw [hrun] at hblocks
        refine ⟨?_, .inl ?_⟩
        · rw [List.getLast?_concat]
          exact hblocks.2
        · rw [hblocks.1]
          exact points_insert hlower hpoints
      | error e n' =>
        rw [hrun] at hblocks
        refine ⟨hmisplaced _ e n' hrun, ⟨hblocks.1.trans h.last, ?_⟩⟩
        rcases hblocks.2 with hsame | hinsert
        · change points n'.db.tables.blockByHeight = stored ∨ _
          rw [hsame]
          exact h.chain
        · refine .inr ⟨height, block.hash, block, tip, rest, rfl, ?_⟩
          rw [hinsert]
          exact points_insert hlower hpoints
    · cases hafter
  | rollBack height hash tip =>
    rw [after_rollBack] at hafter
    split at hafter
    · rename_i hp
      cases hafter
      have hpoints : points s.node.db.tables.blockByHeight = stored := by
        rcases h.chain with heq | ⟨_, _, _, _, _, hqueue, -⟩
        · exact heq
        · cases hqueue
      have hblocks := @rollback_blocks deps cfg rocks height (s.mutable || (PullEvent.rollBack height hash tip).switches
        cfg) s.node hash
      unfold Stage.execute
      simp only
      cases hrun : rollback deps cfg rocks height hash (s.mutable || (PullEvent.rollBack height hash tip).switches cfg)
          s.node with
      | ok u n' =>
        rw [hrun] at hblocks
        obtain ⟨front, removed, -, hcut⟩ := hstored.cut hp
        refine ⟨?_, .inl ?_⟩
        · rw [hcut, List.getLast?_concat]
          exact hblocks.2
        · rw [← hpoints]
          exact hblocks.1
      | error e n' =>
        rw [hrun] at hblocks
        refine ⟨fun he => ?_, ?_⟩
        · obtain ⟨b, hb⟩ := mem_points.mp (hpoints ▸ hp)
          exact (rollback_misplaced_iff deps cfg rocks height _ s.node hash).mp ⟨e, n', hrun, he⟩ b hb
        · exact ⟨(congrArg ChainDB.lastBlockHash hblocks).trans h.last, .inl
            ((congrArg (fun db => points db.tables.blockByHeight) hblocks).trans hpoints)⟩
    · cases hafter

end

/-! ## Runs -/

/-- The points that a call goes by are on the chain of the events sent so far. -/
def System.Current (pull : PullStage) (s : System) (w : PullWorker) (answer : Answer) : Prop :=
  ∀ chain, resulting pull.genesisHash s.base s.sent = some chain → Compressor.Current pull chain s.page w answer

/-- All events sent fit; the database holds the chain of those consumed. -/
structure Placed (pull : PullStage) (s : System) : Prop where
  base : Contiguous s.base
  consumed : ∃ done stored, s.sent = done ++ s.queue ∧ resulting pull.genesisHash s.base done = some stored ∧
    Stores s.stage s.queue stored
  sent : ∃ chain, resulting pull.genesisHash s.base s.sent = some chain ∧
    ∀ w, s.worker = some w → Ready pull.genesisHash chain s.page w

section

variable {deps : Deps} {cfg : Config} {pull : PullStage} {memory : Option UtxoResolver} {s : System}

/-- The next event fits what the events before it result in. -/
theorem Placed.next (h : Placed pull s) {done rest : List PullEvent} {unit : PullEvent} {stored : List Point}
    (hsent : s.sent = done ++ unit :: rest) (hdone : resulting pull.genesisHash s.base done = some stored) :
    Contiguous stored ∧ ∃ stored', unit.after pull.genesisHash stored = some stored' := by
  obtain ⟨chain, hchain, -⟩ := h.sent
  rw [hsent, resulting_append, hdone, Option.bind_some, resulting_cons] at hchain
  obtain ⟨stored', hafter, -⟩ := Option.bind_eq_some_iff.mp hchain
  exact ⟨h.base.resulting hdone, stored', hafter⟩

/-- The stored points count from one. -/
theorem Placed.contiguous (h : Placed pull s) : Contiguous (points s.blocks) := by
  obtain ⟨done, stored, hsent, hdone, hstores⟩ := h.consumed
  rcases hstores.chain with heq | ⟨height, hash, block, tip, rest, hqueue, heq⟩
  · rw [System.blocks, heq]
    exact h.base.resulting hdone
  · -- the block of the next event, whose flush failed
    rw [hqueue] at hsent
    obtain ⟨hstored, stored', hafter⟩ := h.next hsent hdone
    have hstored' := hstored.after hafter
    simp only [PullEvent.after] at hafter
    split at hafter
    · cases hafter
      rw [System.blocks, heq]
      exact hstored'
    · cases hafter

/-- A process that starts on stored tables. -/
theorem placed_start {t : Tables} (h : Contiguous (points t.blockByHeight)) (pull : PullStage)
    (memory : Option UtxoResolver) : Placed pull (System.start t memory) where
  base := h
  consumed := by
    refine ⟨[], points t.blockByHeight, rfl, rfl, ?_, .inl rfl⟩
    unfold points
    rw [List.getLast?_map, Option.map_map]
    rfl
  sent := ⟨points t.blockByHeight, rfl, fun w hw => by cases hw⟩

/-- The worker that a start makes. -/
theorem ready_bootstrap {blocks : Table Nat (BlockHash × Block)} {tip : Point} {w : PullWorker}
    (h : PullWorker.bootstrap pull blocks tip = some w) (hblocks : Contiguous (points blocks)) (chain : List Point) :
    Ready pull.genesisHash chain [] w := by
  obtain ⟨intersects, hintersects, rfl⟩ := Option.map_eq_some_iff.mp h
  cases hlast : blocks.lastEntry with
  | none =>
    rw [intersectOptions_of_empty _ hlast] at hintersects
    cases hintersects
    exact .empty _ _ rfl
  | some e =>
    obtain ⟨tipHeight, v⟩ := e
    have hpos : 1 ≤ tipHeight := hblocks.height_pos (mem_points.mpr ⟨v.2, List.mem_of_getLast? hlast⟩ :
      (tipHeight, v.1) ∈ points blocks)
    obtain ⟨first, rest, rfl, hfirst, hne, hlower⟩ := intersectOptions_heights hlast hpos hintersects
    have hlong : (first :: rest).length ≠ 1 := by
      simpa [List.length_cons] using hne
    rw [if_neg hlong]
    exact .stored first rest tip (hfirst ▸ hpos) hlower rfl

/-- A call of `schedule` in a run: it completes, and its events fit exactly if it goes by points on the chain. -/
theorem Placed.schedule (h : Placed pull s) {w : PullWorker} (hw : s.worker = some w) {answer : Answer}
    (hanswer : Answers pull w answer) :
    ∃ units w', s.schedule pull w answer =
        { s with
          worker := some w'
          queue := s.queue ++ units
          sent := s.sent ++ units
          page := w'.cursor.take (min 50 (answer.page pull).length) } ∧
      ((∃ chain, resulting pull.genesisHash s.base (s.sent ++ units) = some chain) ↔ s.Current pull w answer) ∧
      (s.Current pull w answer → Placed pull (s.schedule pull w answer)) := by
  obtain ⟨chain, hchain, hready⟩ := h.sent
  obtain ⟨units, w', hrun, hiff, hnext⟩ := (hready w hw).schedule (h.base.resulting hchain) hanswer
    (intersectOptions_isSome pull.genesisHash h.contiguous)
  have hschedule : s.schedule pull w answer = { s with
      worker := some w'
      queue := s.queue ++ units
      sent := s.sent ++ units
      page := w'.cursor.take (min 50 (answer.page pull).length) } := by
    unfold System.schedule
    rw [hrun]
  have hcurrent : s.Current pull w answer ↔ Compressor.Current pull chain s.page w answer := by
    constructor
    · intro hcurrent
      exact hcurrent chain hchain
    · intro hcurrent chain' hchain'
      cases hchain.symm.trans hchain'
      exact hcurrent
  have hresult : resulting pull.genesisHash s.base (s.sent ++ units) = resulting pull.genesisHash chain units := by
    rw [resulting_append, hchain, Option.bind_some]
  refine ⟨units, w', hschedule, by rw [hresult, hiff, hcurrent], fun hgoes => ?_⟩
  obtain ⟨chain', hchain'⟩ := hiff.mpr (hcurrent.mp hgoes)
  rw [hschedule]
  obtain ⟨done, stored, hsent, hdone, hstores⟩ := h.consumed
  refine ⟨h.base, ⟨done, stored, by simp [hsent], hdone, hstores.last, ?_⟩, chain', hresult.trans hchain', ?_⟩
  · rcases hstores.chain with heq | ⟨height, hash, block, tip, rest, hqueue, heq⟩
    · exact .inl heq
    · exact .inr ⟨height, hash, block, tip, rest ++ units, by simp [hqueue], heq⟩
  · intro v hv
    cases hv
    exact hnext chain' hchain'

/-- A step of the roll stage: the event is not refused. -/
theorem Placed.roll (h : Placed pull s) (deps : Deps) (cfg : Config) (rocks : Rocks) :
    Placed pull (s.roll deps cfg rocks) ∧ ∀ e, s.reports deps cfg rocks = some e → ¬ e.Misplaced := by
  obtain ⟨done, stored, hsent, hdone, hstores⟩ := h.consumed
  unfold System.roll System.reports
  cases hqueue : s.queue with
  | nil =>
    refine ⟨h, fun e he => ?_⟩
    cases he
  | cons unit rest =>
    rw [hqueue] at hsent hstores
    obtain ⟨hstored, stored', hafter⟩ := h.next hsent hdone
    have hexecute := @Stores.execute deps cfg _ _ _ _ _ _ hstores hstored hafter rocks
    cases hrun : Stage.execute deps cfg rocks unit s.stage with
    | ok u stage =>
      rw [hrun] at hexecute
      simp only [hrun]
      refine ⟨⟨h.base, ⟨done ++ [unit], stored', by simp [hsent], ?_, hexecute⟩, h.sent⟩, fun e he => ?_⟩
      · rw [resulting_append, hdone, Option.bind_some, resulting_singleton, hafter]
      · cases he
    | error e stage =>
      rw [hrun] at hexecute
      simp only [hrun]
      refine ⟨⟨h.base, ⟨done, stored, hsent, hdone, hexecute.2⟩, h.sent⟩, fun e' he' => ?_⟩
      cases he'
      exact hexecute.1

/-- **All events of a run fit**, and the database holds the chain of those consumed. -/
theorem PullRun.placed (h : PullRun deps cfg pull memory (System.Current pull) s) : Placed pull s := by
  induction h with
  | open_ => exact @placed_start Tables.empty Contiguous.nil pull memory
  | reopen _ ih => exact placed_start ih.contiguous pull memory
  | restart _ tip ih =>
    obtain ⟨chain, hchain, -⟩ := ih.sent
    exact ⟨ih.base, ih.consumed, chain, hchain, fun w hw => ready_bootstrap hw ih.contiguous chain⟩
  | schedule _ hw hanswer hC ih =>
    obtain ⟨-, -, -, -, hplaced⟩ := ih.schedule hw hanswer
    exact hplaced hC
  | roll _ rocks ih => exact (ih.roll deps cfg rocks).1

end

/-- **The events of the pull stage fit** in every run whose calls go by points on the chain of the events sent
before: every rollback names a point of that chain, every block follows its tip at the next height, and the roll
stage refuses no event.  A call that goes by another point sends events that do not fit. -/
theorem pull_events_fit (deps : Deps) (cfg : Config) (pull : PullStage) (memory : Option UtxoResolver) (s : System)
    (h : PullRun deps cfg pull memory (System.Current pull) s) :
    (∃ chain, resulting pull.genesisHash s.base s.sent = some chain) ∧
      (∀ rocks e, s.reports deps cfg rocks = some e → ¬ e.Misplaced) ∧
      ∀ w answer, s.worker = some w → Answers pull w answer →
        ((∃ chain, resulting pull.genesisHash s.base (s.schedule pull w answer).sent = some chain) ↔
          s.Current pull w answer) := by
  have hplaced := h.placed
  obtain ⟨chain, hchain, -⟩ := hplaced.sent
  refine ⟨⟨chain, hchain⟩, fun rocks => (hplaced.roll deps cfg rocks).2, fun w answer hw hanswer => ?_⟩
  obtain ⟨units, w', hschedule, hiff, -⟩ := hplaced.schedule hw hanswer
  rw [hschedule]
  exact hiff

/-- A stage that starts from a genesis block with the hash 1. -/
def fromGenesis : PullStage := ⟨1, none, 50⟩

/-- The worker that starts while nothing is stored. -/
def emptyWorker : PullWorker := ⟨[(0, 1)], (9, 99), false⟩

/-- The peer answers with one block that has nothing but a coinbase. -/
def answerOf (hash prev : BlockHash) (txid : Txid) : Answer :=
  ⟨[⟨hash, prev⟩], [], [⟨hash, prev, [coinbaseTx txid [5000000000]]⟩]⟩

theorem answers_answerOf (w : PullWorker) (hash prev : BlockHash) (txid : Txid) (h : ∃ p ∈ w.cursor, p.2 = prev) :
    Answers fromGenesis w (answerOf hash prev txid) :=
  ⟨List.isChain_singleton _, ⟨⟨hash, prev⟩, [], rfl, h⟩, rfl⟩

/-- The stage restarts before the first block is stored: it sends the block again without a rollback. -/
theorem restarted_events_refused :
    ∃ s, PullRun emptyScripts fromFirstBlock fromGenesis none (fun _ _ _ => True) s ∧
      s.reports emptyScripts fromFirstBlock ⟨true, true⟩ = some (.previousHashMismatch 2 1 (some 2)) ∧
      resulting fromGenesis.genesisHash s.base s.sent = none := by
  have hstart : PullRun emptyScripts fromFirstBlock fromGenesis none (fun _ _ _ => True) _ :=
    PullRun.open_.restart (9, 99)
  have hanswer : Answers fromGenesis emptyWorker (answerOf 2 1 11) :=
    answers_answerOf emptyWorker 2 1 11 ⟨(0, 1), by decide, rfl⟩
  have hpage := hstart.schedule (w := emptyWorker) rfl hanswer trivial
  have hagain := (hpage.restart (9, 99)).schedule (w := emptyWorker) rfl hanswer trivial
  exact ⟨_, hagain.roll ⟨true, true⟩, by decide +kernel, by decide +kernel⟩

/-- A second page after a restart, when the first block is stored. -/
theorem pull_events_fit_restarted :
    ∃ s, PullRun emptyScripts fromFirstBlock fromGenesis none (System.Current fromGenesis) s ∧ s.sent.length = 3 ∧
      (∃ chain, resulting fromGenesis.genesisHash s.base s.sent = some chain) ∧
      ∀ rocks e, s.reports emptyScripts fromFirstBlock rocks = some e → ¬ e.Misplaced := by
  have hstart : PullRun emptyScripts fromFirstBlock fromGenesis none (System.Current fromGenesis) _ :=
    PullRun.open_.restart (9, 99)
  have hpage := hstart.schedule (w := emptyWorker) rfl (answers_answerOf emptyWorker 2 1 11 ⟨(0, 1), by decide, rfl⟩) (by
    rintro chain hchain
    cases hchain
    refine ⟨fun _ p hp hne => ?_, fun first height hfirst hheight => .inr (.inr ⟨?_, rfl⟩)⟩
    · cases hp
      exact absurd rfl hne
    · cases hfirst
      cases hheight.symm.trans (by decide +kernel : emptyWorker.heightOf 1 = some 0)
      rfl)
  have hstored := (hpage.roll ⟨true, true⟩).restart (9, 99)
  have hnext := hstored.schedule (w := ⟨[(1, 2), (0, 1)], (9, 99), false⟩) (by decide +kernel)
    (answers_answerOf _ 3 2 12 ⟨(1, 2), by decide, rfl⟩) (by
      intro chain hchain
      cases hchain.symm.trans (by decide +kernel : _ = some [((1, 2) : Point)])
      refine ⟨fun _ p hp _ => ?_, fun first height hfirst hheight => .inr (.inl ?_)⟩
      · cases hp
        exact List.mem_cons_self
      · cases hfirst
        cases hheight.symm.trans (by decide +kernel : PullWorker.heightOf _ 2 = some 1)
        exact List.mem_cons_self)
  have hfit := pull_events_fit _ _ _ _ _ hnext
  exact ⟨_, hnext, by decide +kernel, hfit.1, hfit.2.1⟩

end DogeIndexer.Compressor
