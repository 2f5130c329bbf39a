import DogeIndexer.Compressor.ChainDB

/-!
# What the chain database reports

Which errors the calls of the chain database report.  Two of them say that an event does not fit the stored
chain; they come from the checks at the beginning of `apply_block_with_context` and `rollback`
(`compressor-xdg/src/storage/mod.rs`) and from nowhere else.

* `internal_resolveAndProcess`, `internal_stageBlock`, `internal_undoBlock` — the work behind the checks reports
  other errors.
* `apply_misplaced_iff` — a block is refused exactly if its parent is not the last block.
* `rollback_misplaced_iff` — a point is refused exactly if it is not stored.
-/

set_option autoImplicit false

namespace DogeIndexer.Compressor

open Fallible

/-- The event does not fit the stored chain: `PreviousHashMismatch` or `InvalidRollbackPoint`. -/
def Err.Misplaced : Err → Prop
  | .previousHashMismatch _ _ _ => True
  | .invalidRollbackPoint _ => True
  | _ => False

/-- The computation never reports that an event does not fit. -/
abbrev Internal {α : Type} (x : Except Err α) : Prop := Raises (fun e => ¬ e.Misplaced) x

/-- The same for the processing of a block. -/
abbrev InternalProcess {α : Type} (x : Process α) : Prop := Effect.Raises (fun e => ¬ e.Misplaced) x

theorem internal_orPanic {α : Type} (o : Option α) : Internal (orPanic o) := by
  cases o with
  | some a => exact .ok a
  | none => exact .error not_false

theorem internal_missingTxo {α : Type} (hash : BlockHash) (txid : Txid) (vout : Nat) :
    Internal (.error (.missingTxo hash txid vout) : Except Err α) := .error not_false

theorem internal_lift {α : Type} {x : Except Err α} (h : Internal x) : InternalProcess (lift x) := by
  cases x with
  | ok a => exact .pure a
  | error e => exact .throw (h e rfl)

/-! ## Dunes -/

section Dunes

variable (deps : Deps) (cfg : Config) (checks : Bool) (tx : Transaction)

theorem internal_credit (balances : Balances) (id amount : U128) : Internal (credit checks balances id amount) :=
  (internal_orPanic _).map _

theorem internal_unallocated (resolver : Table TxoRef TxoBody) : Internal (unallocated checks tx resolver) := by
  refine .foldlM (fun balances input => ?_) _ _
  dsimp only
  split
  · exact .ok _
  · split
    · exact internal_missingTxo _ _ _
    · exact .foldlM (fun _ _ => internal_credit checks _ _ _) _ _

theorem internal_etched (etching : Etching) (height : Nat) (t : DuneTables) :
    Internal (etched deps cfg etching height t) := by
  unfold etched
  cases etching.dune with
  | none => exact (internal_orPanic _).bind fun _ => .ok _
  | some dune => exact .ite (.ok _) (.ok _)

theorem internal_allocationOf (txIndex : Nat) (dunestone : Dunestone) (height : Nat) (t : DuneTables) :
    Internal (allocationOf deps cfg txIndex dunestone height t) := by
  unfold allocationOf
  split
  · exact .ok _
  · refine (internal_etched deps cfg _ height t).bind ?_
    rintro ⟨dune, t⟩
    dsimp only
    split
    · exact .ok _
    · exact .ite (.ok _) (.ok _)

theorem internal_allocate (id : U128) (s : U128 × List Balances) (amount : U128) (output : Nat) :
    Internal (allocate checks id s amount output) := by
  unfold allocate
  split
  · exact (internal_orPanic _).bind fun _ => (internal_orPanic _).bind fun _ =>
      (internal_credit checks _ _ _).bind fun _ => .ok _
  · exact .ok _

theorem internal_distribute (id : U128) (destinations : List Nat) (amount : U128) (s : U128 × List Balances) :
    Internal (distribute checks id destinations amount s) := by
  unfold distribute
  split
  · split
    · exact .error not_false
    · exact .foldlM (fun _ _ => internal_allocate checks _ _ _ _) _ _
  · exact .foldlM (fun _ _ => internal_allocate checks _ _ _ _) _ _

theorem internal_processEdict (st : EdictState) (edict : Edict) :
    Internal (processEdict deps checks tx st edict) := by
  unfold processEdict
  dsimp only
  split
  · exact .ok _
  · split
    · exact .ok _
    · refine .bind ?_ fun premineAmount => .bind ?_ fun _ => .ok _
      · split
        · exact internal_orPanic _
        · exact .ok _
      · split
        · exact internal_distribute checks _ _ _ _
        · exact internal_allocate checks _ _ _ _

theorem internal_countMints (limits mintable : Balances) (t : DuneTables) :
    Internal (countMints checks limits mintable t) := by
  refine .foldlM (fun t entry => ?_) _ _
  refine (internal_orPanic _).bind fun limit => (internal_orPanic _).bind fun minted => ?_
  split
  · exact (internal_orPanic _).bind fun _ => (internal_orPanic _).bind fun _ => .ok _
  · exact .ok _

theorem internal_runEdicts (dunestone : Dunestone) (height : Nat) (st : EdictState) (t : DuneTables) :
    Internal (runEdicts deps cfg tx dunestone height st t) :=
  .bind (.foldlM (fun _ _ => internal_processEdict deps cfg.checks tx _ _) _ _) fun _ =>
    (internal_countMints cfg.checks _ _ t).bind fun _ => .ok _

theorem internal_applyDunestone (txIndex height : Nat) (dunestone : Dunestone) (unallocated : Balances)
    (t : DuneTables) : Internal (applyDunestone deps cfg txIndex tx height dunestone unallocated t) := by
  refine (internal_allocationOf deps cfg txIndex dunestone height t).bind ?_
  rintro ⟨allocation, successfulEtch, t⟩
  refine .bind ?_ ?_
  · split
    · exact .ok _
    · exact internal_runEdicts deps cfg tx dunestone height _ t
  · rintro ⟨st, mints, t⟩
    dsimp only
    split
    · exact .ok _
    · exact (internal_orPanic _).bind fun _ => .ok _

theorem internal_assignRest (cenotaph : Bool) (pointer : Option Nat) (unallocated : Balances)
    (allocated : List Balances) : Internal (assignRest deps checks cenotaph pointer tx unallocated allocated) := by
  have hadd : ∀ (balances : Balances) (e : U128 × U128),
      Internal (if e.2 > 0 then credit checks balances e.1 e.2 else .ok balances) :=
    fun _ _ => .ite (internal_credit checks _ _ _) (.ok _)
  unfold assignRest
  split
  · exact .bind (.foldlM (fun _ _ => internal_credit checks _ _ _) _ _) fun _ => .ok _
  · split
    · exact (internal_orPanic _).bind fun _ => .bind (.foldlM (fun _ _ => hadd _ _) _ _) fun _ => .ok _
    · exact .bind (.foldlM (fun _ _ => hadd _ _) _ _) fun _ => .ok _

theorem internal_indexRunes (resolver : Table TxoRef TxoBody) (txIndex height : Nat) (t : DuneTables) :
    Internal (indexRunes deps cfg resolver txIndex tx height t) := by
  refine (internal_unallocated cfg.checks tx resolver).bind fun unallocated => ?_
  dsimp only
  split
  · exact (internal_assignRest deps cfg.checks tx false none unallocated _).bind fun _ => .ok _
  · refine (internal_applyDunestone deps cfg tx txIndex height _ unallocated t).bind ?_
    rintro ⟨st, successfulEtch, mints, t⟩
    exact (internal_assignRest deps cfg.checks tx _ _ st.unallocated st.allocated).bind fun _ => .ok _

end Dunes

/-! ## Inscriptions -/

section Inscriptions

variable (deps : Deps) (checks : Bool)

theorem internal_add64 (a b : U64) : Internal (add64 checks a b) := internal_orPanic _

theorem internal_sub64 (a b : U64) : Internal (sub64 checks a b) := internal_orPanic _

theorem internal_collectInputs (resolver : Table TxoRef TxoBody) (height : Nat) (tx : Transaction) :
    Internal (collectInputs deps checks resolver height tx) := by
  refine .foldlM (fun s txin => ?_) _ _
  unfold collectInput
  split
  · exact (internal_add64 checks _ _).bind fun _ => .ok _
  · split
    · exact internal_missingTxo _ _ _
    · refine .bind (.foldlM (fun s entry => ?_) _ _) fun _ => (internal_add64 checks _ _).bind fun _ => .ok _
      refine (internal_add64 checks _ _).bind fun _ => ?_
      dsimp only
      split
      · exact .ok _
      · exact .ok _

theorem internal_previousPartials (partials : PartialTables) (previousTxid : Txid) :
    Internal (previousPartials partials previousTxid) := by
  unfold previousPartials
  split
  · exact .ok _
  · exact .bind (.mapM (fun _ => internal_orPanic _) _) fun _ => .ok _

theorem internal_reveal (tx : Transaction) (txid : Txid) (totalInputValue totalOutputValue : U64)
    (s : InscriptionState) : Internal (reveal deps checks tx txid totalInputValue totalOutputValue s) := by
  refine (internal_orPanic _).bind fun first => (internal_previousPartials _ _).bind ?_
  rintro ⟨txids, txs⟩
  dsimp only
  split
  · exact .ok _
  · exact .ok _
  · exact (internal_sub64 checks _ _).bind fun _ => .ok _

theorem internal_floatingInscriptions (resolver : Table TxoRef TxoBody) (height : Nat) (tx : Transaction)
    (txid : Txid) (s : InscriptionState) :
    Internal (floatingInscriptions deps checks resolver height tx txid s) := by
  refine .bind (.foldlM (fun _ _ => internal_add64 checks _ _) _ _) fun total => ?_
  refine (internal_collectInputs deps checks resolver height tx).bind fun inputs => ?_
  refine .bind (.ite (internal_reveal deps checks tx txid _ total s) (.ok _)) ?_
  rintro ⟨revealed, messages, s⟩
  exact .ite (.ok _) (.ok _)

theorem internal_sweepOutput (txid : Txid) (vout : Nat) (outputValue stop : U64) (l : List Flotsam) :
    Internal (sweepOutput checks txid vout outputValue stop l) := by
  induction l with
  | nil => exact .ok _
  | cons flotsam rest ih =>
    exact .ite (.ok _) ((internal_sub64 checks _ _).bind fun _ => ih.bind fun _ => .ok _)

theorem internal_sweep (txid : Txid) (vout : Nat) (outputValue : U64) (l : List Flotsam) (outputs : List TxOut) :
    Internal (sweep checks txid vout outputValue l outputs) := by
  induction outputs generalizing vout outputValue l with
  | nil => exact .ok _
  | cons output outputs ih =>
    refine (internal_add64 checks _ _).bind fun stop => (internal_sweepOutput checks txid vout _ stop l).bind ?_
    rintro ⟨placed, left⟩
    exact (ih _ _ _).bind fun _ => .ok _

theorem internal_updateInscriptionLocation (counters : Counters) (flotsam : Flotsam) :
    Internal (updateInscriptionLocation checks counters flotsam) := by
  unfold updateInscriptionLocation
  split
  · exact .ok _
  · exact (internal_add64 checks _ _).bind fun _ => (internal_add64 checks _ _).bind fun _ => .ok _

theorem internal_locateAllLost (outputValue : U64) (counters : Counters) (l : List Flotsam) :
    Internal (locateAllLost checks outputValue counters l) := by
  induction l generalizing counters with
  | nil => exact .ok _
  | cons flotsam rest ih =>
    have hone : Internal (locateLost checks outputValue counters flotsam) :=
      (internal_add64 checks _ _).bind fun _ => (internal_sub64 checks _ _).bind fun _ =>
        (internal_updateInscriptionLocation checks counters flotsam).bind fun _ => .ok _
    refine hone.bind ?_
    rintro ⟨satpoint, counters⟩
    exact (ih counters).bind fun _ => .ok _

theorem internal_creditTransfer (t : Brc20Tables) (valid : List (InscriptionId × BRC20Message))
    (id : InscriptionId) (transfer : UnusedTransfer) (receiver : ScriptHash) :
    Internal (creditTransfer checks t valid id transfer receiver) :=
  .bind ((internal_orPanic _).bind fun _ => .ok _) fun _ => .ok _

theorem internal_returnTransfers (unused : Table InscriptionId UnusedTransfer)
    (s : Brc20Tables × List (InscriptionId × BRC20Message)) (left : List Flotsam) :
    Internal (returnTransfers checks unused s left) := by
  refine .foldlM (fun s flotsam => ?_) _ _
  dsimp only
  split
  · exact internal_creditTransfer checks _ _ _ _ _
  · exact .ok _

theorem internal_creditOutgoing (scripts : Table OutPoint ScriptHash) (unused : Table InscriptionId UnusedTransfer)
    (s : Brc20Tables × List (InscriptionId × BRC20Message)) (outgoing : List (SatPoint × InscriptionId)) :
    Internal (creditOutgoing checks scripts unused s outgoing) := by
  refine .foldlM (fun s e => ?_) _ _
  dsimp only
  split
  · exact .bind (.ite (.ok _) (internal_orPanic _)) fun _ => internal_creditTransfer checks _ _ _ _ _
  · exact .ok _

theorem internal_locateRest (coinbase : Bool) (inputs : InputState) (outgoing : List (SatPoint × InscriptionId))
    (left : List Flotsam) (outputValue : U64) (s : InscriptionState) :
    Internal (locateRest checks coinbase inputs outgoing left outputValue s) := by
  refine .ite ((internal_locateAllLost checks _ _ _).bind fun _ => ?_)
    ((internal_returnTransfers checks _ _ _).bind fun _ => .bind (.mapM (fun _ => ?_) _) fun _ => ?_)
  · exact (internal_sub64 checks _ _).bind fun _ => (internal_add64 checks _ _).bind fun _ => .ok _
  · exact (internal_add64 checks _ _).bind fun _ => (internal_sub64 checks _ _).bind fun _ => .ok _
  · exact (internal_sub64 checks _ _).bind fun _ => (internal_add64 checks _ _).bind fun _ => .ok _

theorem internal_locate (tx : Transaction) (txid : Txid) (inputs : InputState) (s : InscriptionState) :
    Internal (locate checks tx txid inputs s) := by
  refine (internal_sweep checks txid 0 0 _ tx.output).bind ?_
  rintro ⟨placed, left, outputValue⟩
  exact .bind (.foldlM (fun _ _ => internal_updateInscriptionLocation checks _ _) _ _) fun _ =>
    internal_locateRest checks _ _ _ _ _ _

theorem internal_applyMint (s : MessageState) (id : InscriptionId) (receiver : Option ScriptHash)
    (terms : BRC20Terms) (action : BRC20.AmountAction) :
    Internal (applyMint checks s id receiver terms action) := by
  unfold applyMint
  cases receiver with
  | none => exact .ok _
  | some receiver =>
    exact .ite (.ok _) ((internal_orPanic _).bind fun _ => (internal_orPanic _).bind fun _ =>
      .bind ((internal_orPanic _).bind fun _ => .ok _) fun _ => .ok _)

theorem internal_applyTransferInit (s : MessageState) (id : InscriptionId) (receiver : Option ScriptHash)
    (action : BRC20.AmountAction) : Internal (applyTransferInit checks s id receiver action) := by
  unfold applyTransferInit
  cases receiver with
  | none => exact .ok _
  | some receiver =>
    dsimp only
    split
    · exact .ok _
    · exact .ite (.ok _) ((internal_orPanic _).bind fun _ => .ok _)

theorem internal_processMessage (idToScript : Table InscriptionId ScriptHash) (s : MessageState)
    (message : InscriptionId × RawProtocolMessage) : Internal (processMessage deps checks idToScript s message) := by
  unfold processMessage
  dsimp only
  split
  · exact .ite (.ok _) (.ok _)
  · split
    · exact .ok _
    · split
      · exact internal_applyMint checks _ _ _ _ _
      · split
        · exact internal_applyTransferInit checks _ _ _ _
        · exact .ok _

theorem internal_placeOutputs (txid : Txid) (outputs : Nat) (outgoing : List (SatPoint × InscriptionId)) :
    Internal (placeOutputs txid outputs outgoing) := by
  refine .foldlM (fun acc e => ?_) _ _
  dsimp only
  split
  · exact .ok _
  · exact .error not_false

theorem internal_indexInscriptions (cfg : Config) (resolver : Table TxoRef TxoBody) (tx : Transaction) (txid : Txid)
    (height : Nat) (s : InscriptionState) : Internal (indexInscriptions deps cfg resolver tx txid height s) := by
  refine (internal_floatingInscriptions deps cfg.checks resolver height tx txid s).bind ?_
  rintro ⟨inputs, messages, s⟩
  refine (internal_locate cfg.checks tx txid inputs s).bind fun located => ?_
  refine (internal_creditOutgoing cfg.checks _ _ _ _).bind ?_
  rintro ⟨t, valid⟩
  exact .bind (.foldlM (fun _ _ => internal_processMessage deps cfg.checks _ _ _) _ _) fun _ =>
    (internal_placeOutputs txid _ _).bind fun _ => .ok _

end Inscriptions

/-! ## Blocks -/

section Blocks

variable (deps : Deps) (cfg : Config)

theorem internal_forget (ref : TxoRef) : InternalProcess (forget deps cfg ref) := by
  refine .bind .get fun s => ?_
  dsimp only
  split
  · exact .pure _
  · refine .bind (internal_lift (internal_orPanic _)) ?_
    rintro ⟨body, memory⟩
    exact .bind (.modify _) fun _ => .pure _

theorem internal_remember (ref : TxoRef) (body : TxoBody) : InternalProcess (remember deps cfg ref body) := by
  refine .bind .get fun s => ?_
  split
  · exact .pure _
  · exact .bind (internal_lift (internal_orPanic _)) fun _ => .modify _

theorem internal_resolveInput (txos : Table TxoRef TxoBody) (ref : TxoRef) :
    InternalProcess (resolveInput deps cfg txos ref) := by
  refine .bind (internal_forget deps cfg ref) fun remembered => ?_
  split
  · exact .modify _
  · exact .pure _

theorem internal_processRunes (height idx : Nat) (tx : Transaction) :
    InternalProcess (processRunes deps cfg height idx tx) := by
  unfold processRunes
  split
  · refine .bind .get fun s => .bind (internal_lift (internal_indexRunes deps cfg tx _ idx height _)) ?_
    rintro ⟨result, dunes⟩
    exact .bind (.modify _) fun _ => .pure _
  · exact .pure _

theorem internal_processInscriptions (height : Nat) (tx : Transaction) :
    InternalProcess (processInscriptions deps cfg height tx) := by
  unfold processInscriptions
  split
  · refine .bind .get fun s => .bind (internal_lift (internal_indexInscriptions deps cfg _ tx _ height _)) ?_
    rintro ⟨result, inscriptions⟩
    exact .bind (.modify _) fun _ => .pure _
  · exact .pure _

theorem internal_produceOutputs (height : Nat) (txid : Txid) (transfers : Table InscriptionId (Ticker × U128))
    (vout : Nat) (outputs : List TxOut) (dunes : List Balances) (inscriptions : List (List (U64 × InscriptionId))) :
    InternalProcess (produceOutputs deps cfg height txid transfers vout outputs dunes inscriptions) := by
  induction outputs generalizing vout dunes inscriptions with
  | nil => exact .pure _
  | cons output outputs ih =>
    cases dunes with
    | nil => exact .pure _
    | cons dunes allDunes =>
      cases inscriptions with
      | nil => exact .pure _
      | cons inscriptions allInscriptions =>
        have hbody : Internal (outputBody height output dunes inscriptions transfers) :=
          .bind (.mapM (fun _ => (internal_orPanic _).map _) _) fun _ => .ok _
        exact .bind (internal_lift hbody) fun body => .bind (.modify _) fun _ =>
          .bind (internal_remember deps cfg _ body) fun _ => ih _ _ _

theorem internal_consumeInput (blockHash : BlockHash) (txin : TxIn) :
    InternalProcess (consumeInput deps cfg blockHash txin) := by
  refine .bind .get fun s => ?_
  split
  · exact .throw not_false
  · exact .bind (internal_forget deps cfg _) fun _ => .pure _

theorem internal_processTx (height : Nat) (blockHash : BlockHash) (entry : Transaction × Nat) :
    InternalProcess (processTx deps cfg height blockHash entry) := by
  obtain ⟨tx, idx⟩ := entry
  refine .bind (internal_processRunes deps cfg height idx tx) fun dunes => ?_
  refine .bind (internal_processInscriptions deps cfg height tx) ?_
  rintro ⟨inscriptions, transfers⟩
  exact .bind (.forM (internal_consumeInput deps cfg blockHash) _) fun _ =>
    internal_produceOutputs deps cfg height _ transfers 0 _ dunes inscriptions

theorem internal_resolveAndProcess (txos : Table TxoRef TxoBody) (height : Nat) (block : Block) :
    InternalProcess (resolveAndProcess deps cfg txos height block) := by
  refine .bind (.forM (internal_resolveInput deps cfg txos) _) fun _ => ?_
  split
  · exact .throw not_false
  · refine .bind (internal_processRunes deps cfg height 0 _) fun dunes => ?_
    refine .bind (.forM (internal_processTx deps cfg height block.hash) _) fun _ => ?_
    refine .bind (internal_processInscriptions deps cfg height _) ?_
    rintro ⟨inscriptions, transfers⟩
    exact internal_produceOutputs deps cfg height _ transfers 0 _ dunes inscriptions

theorem internal_stageBlock (db : ChainDB) (height : Nat) (block : Block) (mutable : Bool) (s : BlockState) :
    Internal (stageBlock cfg db height block mutable s) := by
  refine .bind (.foldlM (fun staged tx => .bind (.foldlM (fun staged output => ?_) _ _) fun _ => .ok _) _ _)
    fun _ => .ok _
  unfold stageOutput
  dsimp only
  split
  · exact internal_missingTxo _ _ _
  · exact .ok _

end Blocks

/-! ## Undo -/

section Undo

variable (deps : Deps) (cfg : Config) (mutable : Bool)

theorem internal_undoMessage (checks : Bool) (t : Brc20Tables) (message : BRC20Message) :
    Internal (undoMessage checks t message) := by
  cases message with
  | deploy tick => exact .ok _
  | mint tick amt receiver => exact (internal_orPanic _).bind fun _ => (internal_orPanic _).bind fun _ => .ok _
  | transfer tick amt outpoint receiver => exact (internal_orPanic _).bind fun _ => .ok _
  | transferInit tick amt receiver => exact (internal_orPanic _).bind fun _ => .ok _

theorem internal_undoDunes (height idx : Nat) (mints : List (Nat × Nat)) (tx : Transaction) (t : DuneTables) :
    Internal (undoDunes deps height mints idx tx t) := by
  unfold undoDunes
  split
  · exact .ok _
  · refine .bind ?_ fun t => .foldlM (fun t claim => ?_) _ _
    · split
      · unfold undoEtching
        split
        · exact .ok _
        · exact .ite ((internal_orPanic _).bind fun _ => .ok _) (.ok _)
      · exact .ok _
    · dsimp only
      split
      · exact .ok _
      · exact .ite ((internal_orPanic _).bind fun _ => .ok _) (.ok _)

theorem internal_undoTx (height : Nat) (hash : BlockHash) (mints : List (Nat × Nat)) (s : UndoState)
    (entry : Transaction × Nat) : Internal (undoTx deps height hash mints s entry) := by
  obtain ⟨tx, idx⟩ := entry
  refine (internal_undoDunes deps height idx mints tx _).bind fun dunes => ?_
  refine .bind (.ite (.foldlM (fun s txin => ?_) _ _) (.ok _)) fun _ => .ok _
  unfold restoreInput
  split
  · exact internal_missingTxo _ _ _
  · exact .ok _

theorem internal_undoBlock (s : Tables × Nat) (entry : Nat × BlockHash × Block) :
    Internal (undoBlock deps cfg mutable s entry) := by
  unfold undoBlock
  dsimp only
  split
  · exact .error not_false
  · refine .ite (.error not_false) ?_
    exact .bind (.foldlM (fun _ _ => internal_undoMessage cfg.checks _ _) _ _) fun _ =>
      .bind (.foldlM (fun _ _ => internal_undoTx deps _ _ _ _ _) _ _) fun _ => .ok _

end Undo

/-! ## Calls -/

section Calls

variable (deps : Deps) (cfg : Config) (rocks : Rocks) (height : Nat) (mutable : Bool) (n : Node)

/-- **A block is refused** exactly if the database has a last block and it is not the parent. -/
theorem apply_misplaced_iff (block : Block) :
    (∃ e n', applyBlockWithContext deps cfg rocks height block mutable n = .error e n' ∧ e.Misplaced) ↔
      ∃ last, n.db.lastBlockHash = some last ∧ last ≠ block.prevBlockhash := by
  have hcheck : (n.db.lastBlockHash.any (· ≠ block.prevBlockhash)) = true ↔
      ∃ last, n.db.lastBlockHash = some last ∧ last ≠ block.prevBlockhash := by
    simp [Option.any_eq_true]
  rw [← hcheck]
  unfold applyBlockWithContext
  constructor
  · rintro ⟨e, n', h, he⟩
    split at h
    · assumption
    · split at h
      · rename_i e' s hprocess
        cases h
        exact absurd he (internal_resolveAndProcess deps cfg _ height block _ _ _ hprocess)
      · split at h
        · rename_i e' hstage
          cases h
          exact absurd he (internal_stageBlock cfg n.db height block mutable _ _ hstage)
        · split at h
          · cases h
            exact he.elim
          · split at h
            · cases h
              exact he.elim
            · cases h
  · intro h
    rw [if_pos h]
    exact ⟨_, _, rfl, trivial⟩

/-- **A point is refused** exactly if no block is stored under its height and hash. -/
theorem rollback_misplaced_iff (hash : BlockHash) :
    (∃ e n', rollback deps cfg rocks height hash mutable n = .error e n' ∧ e.Misplaced) ↔
      ∀ block, (height, hash, block) ∉ n.db.tables.blockByHeight.entries := by
  have hmem : ∀ block, (height, hash, block) ∈ n.db.tables.blockByHeight.entries →
      (height, hash, block) ∈ n.db.tables.blockByHeight.entriesFrom height :=
    fun block h => Table.mem_entriesFrom.mpr ⟨le_refl _, Table.mem_entries.mp h⟩
  have hsorted := n.db.tables.blockByHeight.entriesFrom_sorted height
  unfold rollback
  split
  · rename_i hscan
    rw [hscan] at hmem
    exact iff_of_true ⟨_, _, rfl, trivial⟩ fun block h => List.not_mem_nil (hmem block h)
  · rename_i foundHeight foundHash foundBlock toRemove hscan
    rw [hscan] at hmem hsorted
    have hfound := (Table.mem_entriesFrom.mp (hscan ▸ List.mem_cons_self)).2
    split
    · rename_i hother
      refine iff_of_true ⟨_, _, rfl, trivial⟩ fun block h => ?_
      rcases List.mem_cons.mp (hmem block h) with heq | hlater
      · cases heq
        simp at hother
      · -- the first entry of the scan is at the height or above it
        have hlt := hsorted.head_lt _ hlater
        have hle := (Table.mem_entriesFrom.mp (hscan ▸ List.mem_cons_self)).1
        exact absurd (lt_of_le_of_lt hle hlt) (lt_irrefl _)
    · rename_i hpoint
      obtain ⟨rfl, rfl⟩ : height = foundHeight ∧ hash = foundHash := by
        rw [not_or] at hpoint
        exact ⟨not_not.mp hpoint.1, not_not.mp hpoint.2⟩
      refine iff_of_false ?_ fun h => h foundBlock (Table.mem_entries.mpr hfound)
      rintro ⟨e, n', h, he⟩
      split at h
      · rename_i e' hundo
        cases h
        exact Raises.foldlM (fun _ _ => internal_undoBlock deps cfg mutable _ _) _ _ _ hundo he
      · cases hcommit : rocks.commit with
        | true => cases mutable <;> simp [hcommit] at h
        | false =>
          have hrocks : Err.rocks = e := by
            cases mutable <;> simp only [hcommit, if_true] at h <;> exact (EStateM.Result.error.inj h).1
          exact (hrocks ▸ he : Err.Misplaced .rocks).elim

end Calls

end DogeIndexer.Compressor
