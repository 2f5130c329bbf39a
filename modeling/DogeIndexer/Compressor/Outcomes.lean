import DogeIndexer.Compressor.Live

/-!
# Outcomes of a call

What a call of `apply_block_with_context` leaves behind when it fails: the database as it was, unless
the flush after the commit fails, and a memory resolver that has gained nothing but outputs of the
block.

* `apply_cases` — the outcomes of a call.
* `failed_apply_unchanged_iff` — when a failed call leaves the database as it was.
-/

set_option autoImplicit false

namespace DogeIndexer.Compressor

open Fallible Effect

/-! ## Database -/

/-- The tables that a call commits, when it gets to the commit. -/
def stagedTables (deps : Deps) (cfg : Config) (height : Nat) (block : Block) (mutable : Bool) (n : Node) :
    Option Tables :=
  if n.db.lastBlockHash.any (· ≠ block.prevBlockhash) then none
  else
    match resolveAndProcess deps cfg n.db.tables.txos height block
        (initialState deps n.db.tables height n.memory) with
    | .error _ _ => none
    | .ok () s =>
      match stageBlock cfg n.db height block mutable s with
      | .error _ => none
      | .ok tables => some tables

section

variable {deps : Deps} {cfg : Config} {n : Node} {height : Nat} {block : Block} {mutable : Bool}

/-- A call that does not get to the commit fails and leaves the database alone. -/
theorem apply_unstaged (h : stagedTables deps cfg height block mutable n = none) (rocks : Rocks) :
    ∃ e n', applyBlockWithContext deps cfg rocks height block mutable n = .error e n' ∧ n'.db = n.db := by
  unfold stagedTables at h
  unfold applyBlockWithContext
  split
  · exact ⟨_, _, rfl, rfl⟩
  · rename_i hprev
    rw [if_neg hprev] at h
    split
    · exact ⟨_, _, rfl, rfl⟩
    · rename_i s hprocess
      rw [hprocess] at h
      simp only at h
      split
      · exact ⟨_, _, rfl, rfl⟩
      · rename_i tables hstage
        rw [hstage] at h
        cases h

/-- A call that gets to the commit: commit and flush decide. -/
theorem apply_staged {tables : Tables} (h : stagedTables deps cfg height block mutable n = some tables) :
    ∃ memory, ∀ rocks : Rocks, applyBlockWithContext deps cfg rocks height block mutable n =
      if rocks.commit = false then .error .rocks { n with memory := memory }
      else if height % 5000 = 0 ∧ rocks.flush = false then
        .error .rocks ⟨{ n.db with tables := tables }, memory⟩
      else .ok () ⟨⟨tables, n.db.nextWalSeq + 1, some block.hash⟩, memory⟩ := by
  unfold stagedTables at h
  split at h
  · cases h
  · rename_i hprev
    split at h
    · cases h
    · rename_i s hprocess
      split at h
      · cases h
      · rename_i tables' hstage
        cases h
        refine ⟨s.memory, fun rocks => ?_⟩
        unfold applyBlockWithContext
        rw [if_neg hprev, hprocess]
        simp only [hstage]

/-- **A failed call leaves the database as it was** unless it has committed something and the periodic
flush fails. -/
theorem failed_apply_unchanged_iff (deps : Deps) (cfg : Config) (rocks : Rocks) (height : Nat) (block : Block)
    (mutable : Bool) (n : Node) :
    (∀ e n', applyBlockWithContext deps cfg rocks height block mutable n = .error e n' → n'.db = n.db) ↔
      (height % 5000 = 0 → rocks.flush = false → rocks.commit = true →
        ∀ tables, stagedTables deps cfg height block mutable n = some tables → tables = n.db.tables) := by
  constructor
  · intro h hheight hflush hcommit tables hstaged
    obtain ⟨memory, hruns⟩ := apply_staged hstaged
    have hrun := hruns rocks
    rw [if_neg (by simp [hcommit]), if_pos ⟨hheight, hflush⟩] at hrun
    exact congrArg ChainDB.tables (h _ _ hrun)
  · intro h e n' hrun
    cases hstaged : stagedTables deps cfg height block mutable n with
    | none =>
      obtain ⟨e', n'', herr, hdb⟩ := apply_unstaged hstaged rocks
      rw [hrun] at herr
      cases herr
      exact hdb
    | some tables =>
      obtain ⟨memory, hruns⟩ := apply_staged hstaged
      have heq := hruns rocks
      rw [hrun] at heq
      split_ifs at heq with hcommit hflush
      · cases heq
        rfl
      · cases heq
        have htables := h hflush.1 hflush.2 (by simpa using hcommit) tables hstaged
        rw [htables]

end

/-- A block at a height at which the database is flushed. -/
def block5000 : Block := ⟨2, 1, [coinbaseTx 11 [5000000000], spendTx 12 ⟨10, 0⟩ [] [5000000000]]⟩

/-- The node before it. -/
def before5000 : Node :=
  (performed emptyScripts fromFirstBlock (Node.open_ true) [callOf 4999 1 0 [coinbaseTx 10 [5000000000]]]).2

/-- The error of a call, if it fails. -/
def errorOf {α : Type} : EStateM.Result Err Node α → Option Err
  | .ok _ _ => none
  | .error e _ => some e

theorem errorOf_eq_some {α : Type} {r : EStateM.Result Err Node α} {e : Err} (h : errorOf r = some e) :
    r = .error e (endState r) := by
  cases r with
  | ok a n => cases h
  | error e' n =>
    cases h
    rfl

/-- The flush after block 5000 fails: its writes stay, and it cannot be applied again. -/
theorem failed_apply_committed :
    ∃ n', applyBlockWithContext emptyScripts fromFirstBlock ⟨true, false⟩ 5000 block5000 true before5000 =
        .error .rocks n' ∧ n'.db ≠ before5000.db ∧
      ∃ n'', applyBlockWithContext emptyScripts fromFirstBlock ⟨true, true⟩ 5000 block5000 true n' =
        .error (.missingTxo 0 10 0) n'' := by
  refine ⟨_, errorOf_eq_some (by decide +kernel), ?_, _, errorOf_eq_some (by decide +kernel)⟩
  intro heq
  have hspent : (endState (applyBlockWithContext emptyScripts fromFirstBlock ⟨true, false⟩ 5000 block5000 true
      before5000)).db.tables.txos.get ⟨10, 0⟩ = none := by decide +kernel
  have hunspent : (before5000.db.tables.txos.get ⟨10, 0⟩).isSome = true := by decide +kernel
  rw [heq] at hspent
  rw [hspent] at hunspent
  cases hunspent

/-! ## Memory -/

/-- The memory resolver of a state has what it had in `mem`, and outputs of the block. -/
def Gains (block : Block) (mem : Table TxoRef TxoBody) (s : BlockState) : Prop :=
  ∀ ref body, s.mem.get ref = some body → mem.get ref = some body ∨ ref.txid ∈ txIds block

section

variable {deps : Deps} {cfg : Config} {block : Block} {mem : Table TxoRef TxoBody}

theorem lift_keeps {α : Type} {Q : BlockState → Prop} (x : Except Err α) : Keeps Q (lift x) := by
  cases x with
  | ok a => exact Keeps.pure a
  | error e => exact Keeps.throw e

/-- A step that leaves the memory alone. -/
theorem modify_gains {f : BlockState → BlockState} (hf : ∀ s, (f s).memory = s.memory) :
    Keeps (Gains block mem) (modify f : Process Unit) := by
  refine Keeps.modify (fun s h ref body hget => h ref body ?_)
  unfold BlockState.mem at hget ⊢
  rw [hf s] at hget
  exact hget

/-- A failed step of the memory resolver has done nothing. -/
theorem forget_error {ref : TxoRef} {s s' : BlockState} {e : Err} (h : forget deps cfg ref s = .error e s') :
    s' = s := by
  unfold forget at h
  rw [Effect.get_bind] at h
  cases hm : s.memory with
  | none =>
    rw [hm] at h
    cases h
  | some memory =>
    rw [hm] at h
    cases hremove : memory.remove deps cfg.checks ref with
    | none =>
      simp only [hremove] at h
      cases h
      rfl
    | some r =>
      simp only [hremove] at h
      cases h

theorem remember_error {ref : TxoRef} {body : TxoBody} {s s' : BlockState} {e : Err}
    (h : remember deps cfg ref body s = .error e s') : s' = s := by
  unfold remember at h
  rw [Effect.get_bind] at h
  cases hm : s.memory with
  | none =>
    rw [hm] at h
    cases h
  | some memory =>
    rw [hm] at h
    cases hinsert : memory.insert deps cfg.checks ref body with
    | none =>
      simp only [hinsert] at h
      cases h
      rfl
    | some r =>
      simp only [hinsert] at h
      cases h

theorem forget_gains (ref : TxoRef) : Keeps (Gains block mem) (forget deps cfg ref) := by
  intro s h
  cases hrun : forget deps cfg ref s with
  | ok o s' =>
    obtain ⟨-, -, hmem⟩ := forget_ok hrun
    intro r body hget
    have hget : s'.mem.get r = some body := hget
    rw [hmem, Table.get_erase] at hget
    split at hget
    · cases hget
    · exact h r body hget
  | error e s' =>
    rw [forget_error hrun]
    exact h

theorem remember_gains {ref : TxoRef} (href : ref.txid ∈ txIds block) (body : TxoBody) :
    Keeps (Gains block mem) (remember deps cfg ref body) := by
  intro s h
  cases hrun : remember deps cfg ref body s with
  | ok o s' =>
    obtain ⟨-, hwithin⟩ := remember_ok hrun
    intro r b hget
    have hget := hwithin r b hget
    rw [Table.get_insert] at hget
    split at hget
    · rename_i heq
      exact Or.inr (heq ▸ href)
    · exact h r b hget
  | error e s' =>
    rw [remember_error hrun]
    exact h

theorem resolveInput_gains (txos : Table TxoRef TxoBody) (ref : TxoRef) :
    Keeps (Gains block mem) (resolveInput deps cfg txos ref) := by
  refine Keeps.bind (forget_gains ref) (fun remembered => ?_)
  cases remembered.or (txos.get ref) with
  | none => exact Keeps.pure _
  | some body => exact modify_gains (fun _ => rfl)

theorem processRunes_gains (height idx : Nat) (tx : Transaction) :
    Keeps (Gains block mem) (processRunes deps cfg height idx tx) := by
  unfold processRunes
  split
  · refine Keeps.bind Keeps.get (fun s => Keeps.bind (lift_keeps _) (fun r => ?_))
    exact Keeps.bind (modify_gains (fun _ => rfl)) (fun _ => Keeps.pure _)
  · exact Keeps.pure _

theorem processInscriptions_gains (height : Nat) (tx : Transaction) :
    Keeps (Gains block mem) (processInscriptions deps cfg height tx) := by
  unfold processInscriptions
  split
  · refine Keeps.bind Keeps.get (fun s => Keeps.bind (lift_keeps _) (fun r => ?_))
    exact Keeps.bind (modify_gains (fun _ => rfl)) (fun _ => Keeps.pure _)
  · exact Keeps.pure _

theorem produceOutputs_gains {txid : Txid} (htxid : txid ∈ txIds block) (height : Nat)
    (transfers : Table InscriptionId (Ticker × U128)) (vout : Nat) (outputs : List TxOut) (dunes : List Balances)
    (placed : List (List (U64 × InscriptionId))) :
    Keeps (Gains block mem) (produceOutputs deps cfg height txid transfers vout outputs dunes placed) := by
  induction outputs generalizing vout dunes placed with
  | nil =>
    unfold produceOutputs
    exact Keeps.pure _
  | cons output outputs ih =>
    cases dunes with
    | nil => exact Keeps.pure _
    | cons dune dunes =>
      cases placed with
      | nil => exact Keeps.pure _
      | cons inscriptions placed =>
        unfold produceOutputs
        refine Keeps.bind (lift_keeps _) (fun body => ?_)
        refine Keeps.bind (modify_gains (fun _ => rfl)) (fun _ => ?_)
        exact Keeps.bind (remember_gains htxid body) (fun _ => ih _ _ _)

theorem consumeInput_gains (hash : BlockHash) (txin : TxIn) :
    Keeps (Gains block mem) (consumeInput deps cfg hash txin) := by
  refine Keeps.bind Keeps.get (fun s => ?_)
  cases s.resolver.get txin.previousOutput with
  | none => exact Keeps.throw _
  | some body => exact Keeps.bind (forget_gains _) (fun _ => Keeps.pure _)

theorem processTx_gains {tx : Transaction} (htx : tx.txid ∈ txIds block) (height idx : Nat) (hash : BlockHash) :
    Keeps (Gains block mem) (processTx deps cfg height hash (tx, idx)) := by
  refine Keeps.bind (processRunes_gains height idx tx) (fun dunes => ?_)
  refine Keeps.bind (processInscriptions_gains height tx) (fun r => ?_)
  refine Keeps.bind (Keeps.forM (fun txin _ => consumeInput_gains hash txin)) (fun _ => ?_)
  exact produceOutputs_gains htx _ _ _ _ _ _

/-- **Processing a block adds nothing but its outputs to the memory**, whether it completes or not. -/
theorem resolveAndProcess_gains (txos : Table TxoRef TxoBody) (height : Nat) :
    Keeps (Gains block mem) (resolveAndProcess deps cfg txos height block) := by
  refine Keeps.bind (Keeps.forM (fun ref _ => resolveInput_gains txos ref)) (fun _ => ?_)
  cases htx : block.txdata with
  | nil => exact Keeps.throw _
  | cons coinbase txs =>
    have hids : txIds block = coinbase.txid :: txs.map Transaction.txid := by
      unfold txIds
      rw [htx, List.map_cons]
    refine Keeps.bind (processRunes_gains height 0 coinbase) (fun dunes => ?_)
    refine Keeps.bind (Keeps.forM fun e he => ?_) (fun _ => ?_)
    · obtain ⟨tx, idx⟩ := e
      refine processTx_gains ?_ height idx block.hash
      rw [hids]
      exact List.mem_cons_of_mem _ (List.mem_map_of_mem (List.fst_mem_of_mem_zipIdx he))
    · refine Keeps.bind (processInscriptions_gains height coinbase) (fun r => ?_)
      exact produceOutputs_gains (by rw [hids]; exact List.mem_cons_self) _ _ _ _ _ _

end

/-! ## Either outcome -/

section

variable {deps : Deps} {cfg : Config} {rocks : Rocks} {n : Node} {height : Nat} {block : Block} {mutable : Bool}

/-- **The memory after a call**, completed or not, is what it was before and outputs of the block. -/
theorem apply_gains {ref : TxoRef} {body : TxoBody}
    (h : (endState (applyBlockWithContext deps cfg rocks height block mutable n)).mem.get ref = some body) :
    n.mem.get ref = some body ∨ ref.txid ∈ txIds block := by
  have hgains : Gains block n.mem (endState (resolveAndProcess deps cfg n.db.tables.txos height block
      (initialState deps n.db.tables height n.memory))) :=
    resolveAndProcess_gains n.db.tables.txos height _ (fun _ _ hget => Or.inl hget)
  unfold applyBlockWithContext at h
  split at h
  · exact Or.inl h
  · split at h
    · rename_i hprocess
      rw [hprocess] at hgains
      exact hgains ref body h
    · rename_i hprocess
      rw [hprocess] at hgains
      split at h
      · exact hgains ref body h
      · split_ifs at h
        · exact hgains ref body h
        · exact hgains ref body h
        · exact hgains ref body h

/-- The outcomes of a call: it completes, it fails and leaves the database as it was, or it is committed
and the flush fails. -/
theorem apply_cases (deps : Deps) (cfg : Config) (rocks : Rocks) (height : Nat) (block : Block) (mutable : Bool)
    (n : Node) :
    (∃ n', applyBlockWithContext deps cfg rocks height block mutable n = .ok ⟨⟩ n' ∧
      Nonempty (Applied deps cfg n height block mutable n')) ∨
    (∃ e n', applyBlockWithContext deps cfg rocks height block mutable n = .error e n' ∧ n'.db = n.db) ∨
    (height % 5000 = 0 ∧ rocks.flush = false ∧ ∃ n', Nonempty (Applied deps cfg n height block mutable n') ∧
      applyBlockWithContext deps cfg rocks height block mutable n =
        .error .rocks ⟨{ n.db with tables := n'.db.tables }, n'.memory⟩) := by
  cases hstaged : stagedTables deps cfg height block mutable n with
  | none => exact Or.inr (Or.inl (apply_unstaged hstaged rocks))
  | some tables =>
    obtain ⟨memory, hruns⟩ := apply_staged hstaged
    have hrun := hruns rocks
    split_ifs at hrun with hcommit hflush
    · exact Or.inr (Or.inl ⟨_, _, hrun, rfl⟩)
    · -- with a flush that succeeds the call would have completed
      have hok := hruns ⟨true, true⟩
      rw [if_neg (by simp), if_neg (by simp)] at hok
      exact Or.inr (Or.inr ⟨hflush.1, hflush.2, _, apply_ok hok, hrun⟩)
    · exact Or.inl ⟨_, hrun, apply_ok hrun⟩

/-- The outcomes of `rollback`: it fails and leaves the node as it was, or the blocks above the point are
undone, last first. -/
theorem rollback_cases (deps : Deps) (cfg : Config) (rocks : Rocks) (height : Nat) (hash : BlockHash)
    (mutable : Bool) (n : Node) :
    (∃ e, rollback deps cfg rocks height hash mutable n = .error e n) ∨
    ∃ block toRemove t w log w', n.db.tables.blockByHeight.entriesFrom height = (height, hash, block) :: toRemove ∧
      toRemove.reverse.foldlM (undoBlock deps cfg mutable) (n.db.tables, n.db.nextWalSeq) = .ok (t, w) ∧
      rollback deps cfg rocks height hash mutable n =
        .ok () { n with db := ⟨{ t with mutableKV := log }, w', some hash⟩ } := by
  unfold rollback
  split
  · exact Or.inl ⟨_, rfl⟩
  · rename_i foundHeight foundHash foundBlock toRemove hscan
    split
    · exact Or.inl ⟨_, rfl⟩
    · rename_i hpoint
      obtain ⟨rfl, rfl⟩ : height = foundHeight ∧ hash = foundHash := by
        rw [not_or] at hpoint
        exact ⟨not_not.mp hpoint.1, not_not.mp hpoint.2⟩
      split
      · exact Or.inl ⟨_, rfl⟩
      · rename_i t w hfold
        cases hcommit : rocks.commit with
        | false =>
          refine Or.inl ⟨.rocks, ?_⟩
          cases mutable <;> rfl
        | true =>
          right
          cases mutable with
          | false => exact ⟨foundBlock, toRemove, t, w, t.mutableKV, w, hscan, hfold, rfl⟩
          | true =>
            exact ⟨foundBlock, toRemove, t, w, t.mutableKV.insert w (.mark height hash foundBlock), w + 1, hscan,
              hfold, rfl⟩

end

end DogeIndexer.Compressor
