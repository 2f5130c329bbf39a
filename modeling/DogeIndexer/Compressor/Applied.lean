import DogeIndexer.Compressor.Processed

/-!
# Applied blocks

Completed calls of `apply_block_with_context`, valid blocks, and runs of them.

* `apply_ok` — a completed call: the block is processed, staged and committed.
* `Applied.inscriptions_induct` — rule for results about the inscriptions of an applied block.
* `ValidBlock` — what the network guarantees of the next block of a chain.
* `Run` — a sequence of completed calls; `runCalls` performs them.
-/

set_option autoImplicit false

namespace DogeIndexer.Compressor

open Fallible

/-! ## One call -/

/-- A completed call of `apply_block_with_context`. -/
structure Applied (deps : Deps) (cfg : Config) (n : Node) (height : Nat) (block : Block) (mutable : Bool)
    (n' : Node) where
  final : BlockState
  staged : Staged
  processed : ProcessedBlock deps cfg n.db.tables.txos height block
    (initialState deps n.db.tables height n.memory) final
  follows : ∀ hash, n.db.lastBlockHash = some hash → block.prevBlockhash = hash
  steps : blockSteps deps cfg n height block = processed.steps ++ [(processed.coinbase, processed.closed)]
  stages : block.txdata.foldlM (stageTx final.resolver height block.hash) ⟨n.db.tables.txos, [], []⟩ =
    .ok staged
  tables : ∃ log, n'.db.tables = {
    txos := staged.txos
    blockByHeight := n.db.tables.blockByHeight.insert height (block.hash, block)
    resolverByHeight := n.db.tables.resolverByHeight.insert height
      (resolverEntry n.db.tables block final staged)
    dunes := final.dunes
    partials := final.inscriptions.partials
    counters := some final.inscriptions.counters
    brc20 := final.inscriptions.brc20
    mutableKV := log }
  lastBlockHash : n'.db.lastBlockHash = some block.hash
  memory : n'.memory = final.memory

/-- **A completed call has a record.** -/
theorem apply_ok {deps : Deps} {cfg : Config} {rocks : Rocks} {n n' : Node} {height : Nat} {block : Block}
    {mutable : Bool} (h : applyBlockWithContext deps cfg rocks height block mutable n = .ok ⟨⟩ n') :
    Nonempty (Applied deps cfg n height block mutable n') := by
  unfold applyBlockWithContext at h
  split at h
  · cases h
  · rename_i hprev
    split at h
    · cases h
    · rename_i s hprocess
      split at h
      · cases h
      · rename_i tables hstage
        split at h
        · cases h
        · split at h
          · cases h
          · cases h
            obtain ⟨run, hsteps⟩ := resolveAndProcess_ok hprocess
            unfold stageBlock at hstage
            obtain ⟨staged, hstaged, hstage⟩ := bind_eq_ok.mp hstage
            cases hstage
            refine ⟨⟨s, staged, run, ?_, hsteps, hstaged, ⟨_, rfl⟩, rfl, rfl⟩⟩
            intro hash hhash
            rw [hhash] at hprev
            simpa using Eq.symm (by simpa using hprev)

/-- The steps of a block are its transactions, the coinbase last. -/
theorem Applied.steps_fst {deps : Deps} {cfg : Config} {n n' : Node} {height : Nat} {block : Block}
    {mutable : Bool} (run : Applied deps cfg n height block mutable n') :
    (blockSteps deps cfg n height block).map Prod.fst = run.processed.txs ++ [run.processed.coinbase] := by
  rw [run.steps, List.map_append, run.processed.processes.map_fst, List.zipIdx_map_fst]
  rfl

/-- **Rule for the inscriptions of an applied block**: what each transaction preserves, the coinbase
coming last, holds at the end.  With the steps so far go the messages recorded. -/
theorem Applied.inscriptions_induct {deps : Deps} {cfg : Config} {n n' : Node} {height : Nat} {block : Block}
    {mutable : Bool} (run : Applied deps cfg n height block mutable n')
    {P : List (Transaction × BlockState) → List (InscriptionId × BRC20Message) → InscriptionState → Prop}
    (h : P [] [] (initialState deps n.db.tables height n.memory).inscriptions)
    (hstep : ∀ done tx s placed transfers messages i, tx ∈ block.txdata →
      (done ++ [(tx, s)]) <+: blockSteps deps cfg n height block →
      InscriptionsStep deps cfg height tx s.resolver s.inscriptions placed transfers messages i →
      P done s.brc20Resolver s.inscriptions → P (done ++ [(tx, s)]) (s.brc20Resolver ++ messages) i) :
    P (blockSteps deps cfg n height block) run.final.brc20Resolver run.final.inscriptions := by
  rw [run.steps] at hstep ⊢
  obtain ⟨hinscriptions, hmessages⟩ := run.processed.started_inscriptions
  have hclosed : P run.processed.steps run.processed.closed.brc20Resolver run.processed.closed.inscriptions := by
    refine ProcessedTxs.induct (P := fun done _ s => P done s.brc20Resolver s.inscriptions)
      run.processed.processes [] ?_ ?_
    · intro done tx idx rest later s s₁ hsuffix hpre ptx _ hP
      rw [ptx.inscriptions_eq, congrArg BlockState.brc20Resolver ptx.state]
      refine hstep done tx s _ _ _ _ ?_ (hpre.trans (List.prefix_append _ _)) ptx.inscriptions hP
      rw [run.processed.txdata]
      exact List.mem_cons_of_mem _ (List.fst_mem_of_mem_zipIdx (hsuffix.subset List.mem_cons_self))
    · rw [hinscriptions, hmessages]
      exact h
  rw [run.processed.inscriptions_eq, congrArg BlockState.brc20Resolver run.processed.state]
  refine hstep _ _ _ _ _ _ _ ?_ (List.prefix_refl _) run.processed.inscriptions hclosed
  rw [run.processed.txdata]
  exact List.mem_cons_self

/-- The txids of the stored blocks. -/
def Tables.HasTx (t : Tables) (txid : Txid) : Prop := ∃ e ∈ t.blockByHeight.entries, txid ∈ txIds e.2.2

/-! ## Valid blocks -/

/-- The references of a transaction's outputs. -/
def outputRefs (tx : Transaction) : List TxoRef := (List.range tx.output.length).map fun vout => ⟨tx.txid, vout⟩

theorem mem_outputRefs {tx : Transaction} {ref : TxoRef} :
    ref ∈ outputRefs tx ↔ ref.txid = tx.txid ∧ ref.vout < tx.output.length := by
  unfold outputRefs
  rw [List.mem_map]
  constructor
  · rintro ⟨vout, hvout, rfl⟩
    exact ⟨rfl, List.mem_range.mp hvout⟩
  · rintro ⟨htx, hvout⟩
    refine ⟨ref.vout, List.mem_range.mpr hvout, ?_⟩
    rw [← htx]

/-- The first transaction, and it alone, has the null input. -/
def CoinbaseFirst (block : Block) : Prop :=
  match block.txdata with
  | [] => False
  | coinbase :: txs => spent coinbase = [OutPoint.null] ∧ ∀ tx ∈ txs, OutPoint.null ∉ spent tx

theorem CoinbaseFirst.not_null {block : Block} {coinbase : Transaction} {txs : List Transaction}
    (h : CoinbaseFirst block) (htx : block.txdata = coinbase :: txs) :
    spent coinbase = [OutPoint.null] ∧ ∀ tx ∈ txs, OutPoint.null ∉ spent tx := by
  unfold CoinbaseFirst at h
  rw [htx] at h
  exact h

theorem CoinbaseFirst.isCoinbase {block : Block} {coinbase : Transaction} {txs : List Transaction}
    (h : CoinbaseFirst block) (htx : block.txdata = coinbase :: txs) :
    isCoinbase coinbase = true ∧ ∀ tx ∈ txs, Compressor.isCoinbase tx = false := by
  unfold CoinbaseFirst at h
  rw [htx] at h
  obtain ⟨hcb, hrest⟩ := h
  constructor
  · unfold spent at hcb
    obtain ⟨txin, hinput, hnull⟩ := List.map_eq_singleton_iff.mp hcb
    simp [Compressor.isCoinbase, hinput, hnull, OutPoint.isNull]
  · intro tx htx
    have hne := hrest tx htx
    unfold Compressor.isCoinbase
    cases hinput : tx.input with
    | nil => rfl
    | cons txin inputs =>
      have : txin.previousOutput ≠ OutPoint.null := by
        intro heq
        refine hne ?_
        unfold spent
        rw [hinput, List.map_cons, heq]
        exact List.mem_cons_self
      simp [OutPoint.isNull, this]

instance (block : Block) : Decidable (CoinbaseFirst block) :=
  match h : block.txdata with
  | [] => isFalse (by unfold CoinbaseFirst; rw [h]; exact id)
  | coinbase :: txs =>
    decidable_of_iff (spent coinbase = [OutPoint.null] ∧ ∀ tx ∈ txs, OutPoint.null ∉ spent tx)
      (by unfold CoinbaseFirst; rw [h])

/-- The inputs of each transaction are distinct and available: produced earlier and not yet spent. -/
def Spendable : List TxoRef → List Transaction → Prop
  | _, [] => True
  | available, tx :: txs =>
    (spent tx).Nodup ∧ (∀ ref ∈ spent tx, ref ∈ available) ∧
      Spendable (available.filter (· ∉ spent tx) ++ outputRefs tx) txs

instance Spendable.decide : ∀ (available : List TxoRef) (txs : List Transaction),
    Decidable (Spendable available txs)
  | _, [] => isTrue trivial
  | available, tx :: txs =>
    have := Spendable.decide (available.filter (· ∉ spent tx) ++ outputRefs tx) txs
    inferInstanceAs (Decidable (_ ∧ _ ∧ _))

/-- What the network guarantees of a block at a height, after the blocks in the tables. -/
structure ValidBlock (t : Tables) (height : Nat) (block : Block) : Prop where
  coinbase : CoinbaseFirst block
  txids : (txIds block).Nodup
  fresh : ∀ e ∈ t.blockByHeight.entries, ∀ tx ∈ e.2.2.txdata, tx.txid ∉ txIds block
  unproduced : ∀ e ∈ t.txos.entries, e.1.txid ∉ txIds block
  unspent : Spendable (t.txos.entries.map Prod.fst) (block.txdata.drop 1)
  count : block.txdata.length ≤ 65536
  outputs : ∀ tx ∈ block.txdata, tx.output.length < 2 ^ 32
  later : ∀ e ∈ t.blockByHeight.entries, e.1 < height
  height : height < 2 ^ 64

instance (t : Tables) (height : Nat) (block : Block) : Decidable (ValidBlock t height block) :=
  decidable_of_iff (CoinbaseFirst block ∧ (txIds block).Nodup ∧
      (∀ e ∈ t.blockByHeight.entries, ∀ tx ∈ e.2.2.txdata, tx.txid ∉ txIds block) ∧
      (∀ e ∈ t.txos.entries, e.1.txid ∉ txIds block) ∧
      Spendable (t.txos.entries.map Prod.fst) (block.txdata.drop 1) ∧ block.txdata.length ≤ 65536 ∧
      (∀ tx ∈ block.txdata, tx.output.length < 2 ^ 32) ∧ (∀ e ∈ t.blockByHeight.entries, e.1 < height) ∧
      height < 2 ^ 64)
    ⟨fun ⟨h₁, h₂, h₃, h₄, h₅, h₆, h₇, h₈, h₉⟩ => ⟨h₁, h₂, h₃, h₄, h₅, h₆, h₇, h₈, h₉⟩,
      fun ⟨h₁, h₂, h₃, h₄, h₅, h₆, h₇, h₈, h₉⟩ => ⟨h₁, h₂, h₃, h₄, h₅, h₆, h₇, h₈, h₉⟩⟩

theorem ValidBlock.not_hasTx {t : Tables} {height : Nat} {block : Block} (h : ValidBlock t height block)
    {txid : Txid} (hmem : txid ∈ txIds block) : ¬ t.HasTx txid := by
  rintro ⟨e, he, htx⟩
  obtain ⟨tx, hin, rfl⟩ := List.mem_map.mp htx
  exact h.fresh e he tx hin hmem

section

variable {deps : Deps} {cfg : Config} {n n' : Node} {height : Nat} {block : Block} {mutable : Bool}

theorem Applied.steps_txids (run : Applied deps cfg n height block mutable n')
    (h : (txIds block).Nodup) :
    ((blockSteps deps cfg n height block).map fun step => step.1.txid).Nodup := by
  have hmap : ((blockSteps deps cfg n height block).map fun step => step.1.txid) =
      ((blockSteps deps cfg n height block).map Prod.fst).map Transaction.txid := by
    rw [List.map_map]
    rfl
  unfold txIds at h
  rw [run.processed.txdata, List.map_cons] at h
  rw [hmap, run.steps_fst, List.map_append]
  exact (List.perm_append_singleton _ _).nodup_iff.mpr h

theorem Applied.hasTx (run : Applied deps cfg n height block mutable n')
    (hvalid : ValidBlock n.db.tables height block) {txid : Txid}
    (h : n.db.tables.HasTx txid ∨ txid ∈ txIds block) : n'.db.tables.HasTx txid := by
  obtain ⟨log, htables⟩ := run.tables
  rw [htables]
  rcases h with ⟨⟨h₀, e⟩, hmem, htx⟩ | htx
  · refine ⟨(h₀, e), ?_, htx⟩
    rw [Table.mem_entries, Table.get_insert, if_neg (Nat.ne_of_lt (hvalid.later _ hmem))]
    exact Table.mem_entries.mp hmem
  · refine ⟨(height, block.hash, block), ?_, htx⟩
    rw [Table.mem_entries, Table.get_insert, if_pos rfl]

end

/-! ## Runs -/

/-- The arguments of a call. -/
structure Call where
  height : Nat
  block : Block
  mutable : Bool
  rocks : Rocks

/-- A completed call between two nodes. -/
structure Transition where
  before : Node
  call : Call
  after : Node

/-- A sequence of completed calls. -/
inductive Run (deps : Deps) (cfg : Config) (start : Node) : List Transition → Node → Prop
  | nil : Run deps cfg start [] start
  | snoc {l : List Transition} {n n' : Node} (run : Run deps cfg start l n) (call : Call)
      (hcall : applyBlockWithContext deps cfg call.rocks call.height call.block call.mutable n = .ok ⟨⟩ n') :
      Run deps cfg start (l ++ [⟨n, call, n'⟩]) n'

/-- The start of a run: an empty database, with or without a memory resolver. -/
def Node.open_ (memory : Bool) : Node := ⟨ChainDB.open_, if memory then some UtxoResolver.new else none⟩

/-- Perform calls one after the other. -/
def runCalls (deps : Deps) (cfg : Config) : Node → List Call → Option (List Transition × Node)
  | n, [] => some ([], n)
  | n, call :: calls =>
    match applyBlockWithContext deps cfg call.rocks call.height call.block call.mutable n with
    | .ok _ n' => (runCalls deps cfg n' calls).map fun r => (⟨n, call, n'⟩ :: r.1, r.2)
    | .error _ _ => none

theorem Run.calls {deps : Deps} {cfg : Config} {start n m : Node} {l l' : List Transition}
    {calls : List Call} (run : Run deps cfg start l n) (h : runCalls deps cfg n calls = some (l', m)) :
    Run deps cfg start (l ++ l') m := by
  induction calls generalizing n l l' with
  | nil =>
    cases h
    rw [List.append_nil]
    exact run
  | cons call calls ih =>
    unfold runCalls at h
    split at h
    · rename_i n' hcall
      obtain ⟨⟨rest, m'⟩, hrest, h⟩ := Option.map_eq_some_iff.mp h
      cases h
      have hnext := ih (run.snoc call hcall) hrest
      rw [List.append_assoc] at hnext
      exact hnext
    · cases h

/-- The completed calls of a list and the node they lead to. -/
def performed (deps : Deps) (cfg : Config) (n : Node) (calls : List Call) : List Transition × Node :=
  (runCalls deps cfg n calls).getD ([], n)

/-- A single call that completes. -/
theorem runCalls_single {deps : Deps} {cfg : Config} {n : Node} {call : Call}
    (h : (runCalls deps cfg n [call]).isSome = true) :
    applyBlockWithContext deps cfg call.rocks call.height call.block call.mutable n =
      .ok ⟨⟩ (performed deps cfg n [call]).2 := by
  unfold performed
  unfold runCalls at h ⊢
  split at h
  · rename_i n' hrun
    rw [hrun]
    rfl
  · cases h

theorem Run.ofCalls {deps : Deps} {cfg : Config} {n : Node} {calls : List Call}
    (h : (runCalls deps cfg n calls).isSome = true) :
    Run deps cfg n (performed deps cfg n calls).1 (performed deps cfg n calls).2 := by
  obtain ⟨r, hr⟩ := Option.isSome_iff_exists.mp h
  unfold performed
  rw [hr]
  exact Run.nil.calls hr

/-- The transactions of a call in the order in which their inscriptions are indexed, each with the
height and the state before it. -/
def Transition.steps (deps : Deps) (cfg : Config) (e : Transition) : List (Nat × Transaction × BlockState) :=
  (blockSteps deps cfg e.before e.call.height e.call.block).map fun step => (e.call.height, step)

/-- The records of new inscriptions that a call stores with its block. -/
def Transition.records (e : Transition) : List NewInscriptionInfo :=
  match e.after.db.tables.resolverByHeight.get e.call.height with
  | some entry => entry.newInscriptions
  | none => []

/-- The records of a run, in the order they are recorded. -/
def records (l : List Transition) : List NewInscriptionInfo := l.flatMap Transition.records

theorem records_append (l : List Transition) (e : Transition) :
    records (l ++ [e]) = records l ++ e.records := by
  simp [records]

theorem Applied.records_eq {deps : Deps} {cfg : Config} {n n' : Node} {call : Call}
    (run : Applied deps cfg n call.height call.block call.mutable n') :
    Transition.records ⟨n, call, n'⟩ = run.final.inscriptions.newInscriptions := by
  obtain ⟨log, htables⟩ := run.tables
  unfold Transition.records
  rw [htables]
  simp only [Table.get_insert, if_true]
  rfl

/-- The other crates on empty scripts at the heights of the first subsidy. -/
def emptyScripts : Deps where
  scriptHash := fun _ => Fin.ofNat (2 ^ 160) 0xb472a266d0bd89c13706a4132ccfb16f7c3b9fcb
  instructions := fun _ => []
  isOpReturn := fun _ => false
  fromJson := fun _ => none
  toLowercase := id
  subsidy := fun _ => 5000000000
  halvingInterval := .main
  encodedLen := fun output => 9 + output.scriptPubkey.length

/-- A build with overflow checks that indexes from the first block on. -/
def fromFirstBlock : Config := ⟨true, .dogecoin, 0, 0, some 10⟩

/-- A coinbase without a message that pays the given values to empty scripts. -/
def coinbaseTx (txid : Txid) (values : List U64) : Transaction :=
  ⟨txid, [⟨OutPoint.null, []⟩], values.map fun value => ⟨value, []⟩⟩

/-- A transaction with one input. -/
def spendTx (txid : Txid) (ref : TxoRef) (scriptSig : Bytes) (values : List U64) : Transaction :=
  ⟨txid, [⟨ref, scriptSig⟩], values.map fun value => ⟨value, []⟩⟩

/-- A mutable call that RocksDB completes. -/
def callOf (height : Nat) (hash prev : BlockHash) (txdata : List Transaction) : Call :=
  ⟨height, ⟨hash, prev, txdata⟩, true, ⟨true, true⟩⟩

end DogeIndexer.Compressor
