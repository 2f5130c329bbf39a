import DogeIndexer.Compressor.Live

/-!
# Undoing a block

What `rollback` does with an applied block: the outputs, the stored blocks and the partial inscriptions
read as before it.  The dune tables and the DRC-20 tables are undone by computations of their own, which
`undoBlock_eq` leaves open.

* `undoBlock_eq` — the undo of an applied block.
* `SameChain` — tables with the same outputs, blocks and partial inscriptions.
-/

set_option autoImplicit false

namespace DogeIndexer.Compressor

open Fallible

/-! ## One transaction -/

/-- The dune tables with transactions undone, in the given order. -/
def undoneDunes (deps : Deps) (height : Nat) (mints : List (Nat × Nat)) (l : List (Transaction × Nat))
    (t : DuneTables) : Except Err DuneTables :=
  l.foldlM (fun t e => undoDunes deps height mints e.2 e.1 t) t

/-- The partial inscriptions without those of some transactions. -/
def PartialTables.eraseAll (p : PartialTables) (txids : List Txid) : PartialTables :=
  ⟨p.txids.eraseAll txids, p.bytes.eraseAll txids⟩

theorem restoreInputs_eq (hash : BlockHash) (inputs : List TxIn) (u : UndoState)
    (hnodup : (inputs.map TxIn.previousOutput).Nodup)
    (hget : ∀ ref ∈ inputs.map TxIn.previousOutput, ∃ body, u.resolver.get ref = some body) :
    ∃ txos, inputs.foldlM (restoreInput hash) u =
        .ok { u with txos := txos, resolver := u.resolver.eraseAll (inputs.map TxIn.previousOutput) } ∧
      ∀ ref, txos.get ref =
        if ref ∈ inputs.map TxIn.previousOutput then u.resolver.get ref else u.txos.get ref := by
  induction inputs generalizing u with
  | nil => exact ⟨u.txos, rfl, fun ref => by simp⟩
  | cons txin inputs ih =>
    rw [List.map_cons, List.nodup_cons] at hnodup
    rw [List.map_cons] at hget
    obtain ⟨body, hbody⟩ := hget txin.previousOutput List.mem_cons_self
    have hone : restoreInput hash u txin = .ok { u with
        resolver := u.resolver.erase txin.previousOutput
        txos := u.txos.insert txin.previousOutput body } := by
      unfold restoreInput
      rw [hbody]
    obtain ⟨txos, hrest, hread⟩ := ih { u with
        resolver := u.resolver.erase txin.previousOutput
        txos := u.txos.insert txin.previousOutput body } hnodup.2 (fun ref href => by
      obtain ⟨b, hb⟩ := hget ref (List.mem_cons_of_mem _ href)
      refine ⟨b, ?_⟩
      rw [Table.get_erase, if_neg (fun heq : ref = txin.previousOutput => hnodup.1 (heq ▸ href))]
      exact hb)
    refine ⟨txos, foldlM_cons_eq_ok.mpr ⟨_, hone, hrest⟩, fun ref => ?_⟩
    rw [hread ref, Table.get_erase, Table.get_insert, List.map_cons]
    by_cases heq : ref = txin.previousOutput
    · rw [if_pos heq, if_pos heq, if_neg (heq ▸ hnodup.1), heq, if_pos List.mem_cons_self, hbody]
    · rw [if_neg heq, if_neg heq]
      refine if_congr ?_ rfl rfl
      rw [List.mem_cons]
      exact ⟨Or.inr, fun h => h.resolve_left heq⟩

/-- The outputs of a transaction are erased. -/
theorem get_eraseOutputs (t : Table TxoRef TxoBody) (tx : Transaction) (ref : TxoRef) :
    (tx.output.zipIdx.foldl (fun t e => t.erase ⟨tx.txid, e.2⟩) t).get ref =
      if ref ∈ outputRefs tx then none else t.get ref := by
  have hfold : tx.output.zipIdx.foldl (fun t e => t.erase ⟨tx.txid, e.2⟩) t = t.eraseAll (outputRefs tx) := by
    unfold Table.eraseAll outputRefs
    rw [List.foldl_map, List.range_eq_range', ← List.zipIdx_map_snd 0 tx.output, List.foldl_map]
  rw [hfold, Table.get_eraseAll]
  by_cases href : ref ∈ outputRefs tx
  · rw [if_pos href, if_pos href]
  · rw [if_neg href, if_neg href]

/-- The live outputs beside those of a coinbase, which is staged before them. -/
def withCoinbase (live : Table TxoRef TxoBody) (txid : Txid) (bodies : List TxoBody) : Table TxoRef TxoBody :=
  live.insertAll (numbered txid 0 bodies)

section

variable {deps : Deps} {height idx : Nat} {hash : BlockHash} {mints : List (Nat × Nat)} {tx : Transaction}
  {live : Table TxoRef TxoBody} {s : BlockState} {bodies : List TxoBody}

/-- The live outputs before a transaction, from those after it. -/
theorem live_of_afterTx (h : LiveTx live tx s) (hlength : bodies.length = tx.output.length)
    {cbTxid : Txid} {cbBodies : List TxoBody} (hne : cbTxid ≠ tx.txid)
    (hcb : ∀ vout, live.get ⟨cbTxid, vout⟩ = none) (ref : TxoRef) :
    (withCoinbase live cbTxid cbBodies).get ref =
      if ref ∈ outputRefs tx then none
      else if ref ∈ spent tx then s.resolver.get ref
      else (withCoinbase (afterTx live tx bodies) cbTxid cbBodies).get ref := by
  unfold withCoinbase
  by_cases hkey : ref ∈ (numbered cbTxid 0 cbBodies).map Prod.fst
  · have htxid := (numbered_keys.mp hkey).1
    have hout : ref ∉ outputRefs tx := fun hmem => hne (htxid.symm.trans (mem_outputRefs.mp hmem).1)
    have hspent : ref ∉ spent tx := by
      intro hmem
      obtain ⟨body, hbody, -⟩ := h.inputs ref hmem
      have hnone := hcb ref.vout
      rw [← htxid, hbody] at hnone
      cases hnone
    rw [if_neg hout, if_neg hspent]
    exact Table.get_insertAll_congr hkey
  · rw [Table.get_insertAll_of_notMem hkey, Table.get_insertAll_of_notMem hkey]
    obtain ⟨txid, vout⟩ := ref
    by_cases htx : txid = tx.txid
    · subst htx
      have hspent : (⟨tx.txid, vout⟩ : TxoRef) ∉ spent tx := by
        intro hmem
        obtain ⟨body, hbody, -⟩ := h.inputs _ hmem
        rw [h.fresh vout] at hbody
        cases hbody
      rw [if_neg hspent, get_afterTx_self (h.fresh vout), h.fresh vout]
      split
      · rfl
      · rename_i hout
        rw [mem_outputRefs] at hout
        rw [List.getElem?_eq_none]
        simp only [true_and] at hout
        omega
    · have hout : (⟨txid, vout⟩ : TxoRef) ∉ outputRefs tx := fun hmem => htx (mem_outputRefs.mp hmem).1
      rw [if_neg hout, get_afterTx_of_ne htx]
      split
      · rename_i hspent
        obtain ⟨body, hbody, hresolved⟩ := h.inputs _ hspent
        rw [hbody, hresolved]
      · rfl

/-- **Undo of a transaction**: its outputs go, its inputs come back from the resolver. -/
theorem undoTx_eq (h : LiveTx live tx s) (hidx : idx ≠ 0) (hlength : bodies.length = tx.output.length)
    {cbTxid : Txid} {cbBodies : List TxoBody} (hne : cbTxid ≠ tx.txid)
    (hcb : ∀ vout, live.get ⟨cbTxid, vout⟩ = none) {u : UndoState}
    (htxos : u.txos = withCoinbase (afterTx live tx bodies) cbTxid cbBodies)
    (hresolver : ∀ ref ∈ spent tx, u.resolver.get ref = s.resolver.get ref) :
    undoTx deps height hash mints u (tx, idx) =
      (undoDunes deps height mints idx tx u.dunes).map fun dunes =>
        { txos := withCoinbase live cbTxid cbBodies
          resolver := u.resolver.eraseAll (spent tx)
          partials := u.partials.eraseAll [tx.txid]
          dunes := dunes } := by
  unfold undoTx
  simp only
  cases hdunes : undoDunes deps height mints idx tx u.dunes with
  | error e => rfl
  | ok dunes =>
    obtain ⟨txos, hrun, hread⟩ := restoreInputs_eq hash tx.input { u with
      partials := ⟨u.partials.txids.erase tx.txid, u.partials.bytes.erase tx.txid⟩, dunes := dunes } h.nodup (by
        intro ref href
        obtain ⟨body, -, hbody⟩ := h.inputs ref href
        exact ⟨body, (hresolver ref href).trans hbody⟩)
    have hlive : tx.output.zipIdx.foldl (fun t e => t.erase ⟨tx.txid, e.2⟩) txos =
        withCoinbase live cbTxid cbBodies := by
      refine Table.ext_get (fun ref => ?_)
      rw [get_eraseOutputs, live_of_afterTx h hlength hne hcb, hread ref]
      refine if_congr Iff.rfl rfl ?_
      by_cases hspent : ref ∈ spent tx
      · rw [if_pos hspent]
        exact (if_pos hspent).trans (hresolver ref hspent)
      · rw [if_neg hspent]
        exact (if_neg hspent).trans (by rw [htxos])
    simp only [if_pos hidx]
    change (tx.input.foldlM (restoreInput hash) _ >>= _) = _
    rw [hrun]
    change Except.ok _ = Except.ok _
    rw [← hlive]
    rfl

end

/-! ## The transactions of a block -/

section

variable {deps : Deps} {cfg : Config} {n n' : Node} {height : Nat} {block : Block} {mutable : Bool}

/-- **Undo of the transactions other than the coinbase**, last first. -/
theorem Applied.undoTxs (run : Applied deps cfg n height block mutable n')
    (hvalid : ValidBlock n.db.tables height block) (hsettled : Settled n.mem n.db.tables.txos)
    (mints : List (Nat × Nat)) (u : UndoState) (htxos : u.txos = n'.db.tables.txos)
    (hresolver : ∀ ref ∈ run.processed.txs.flatMap spent, u.resolver.get ref = run.final.resolver.get ref) :
    ∃ resolver, (run.processed.txs.zipIdx 1).reverse.foldlM (undoTx deps height block.hash mints) u =
      (undoneDunes deps height mints (run.processed.txs.zipIdx 1).reverse u.dunes).map fun dunes =>
        { txos := withCoinbase n.db.tables.txos run.processed.coinbase.txid run.processed.bodies
          resolver := resolver
          partials := u.partials.eraseAll (run.processed.txs.map Transaction.txid).reverse
          dunes := dunes } := by
  have hdrop : block.txdata.drop 1 = run.processed.txs := by rw [run.processed.txdata]; rfl
  have hspent := hvalid.spent_nodup
  rw [hdrop] at hspent
  have hmap : run.processed.steps.map Prod.fst = run.processed.txs :=
    run.processed.processes.map_fst.trans (List.zipIdx_map_fst _ _)
  have hfreshCb : ∀ tx ∈ run.processed.txs, run.processed.coinbase.txid ≠ tx.txid := by
    have hn := hvalid.txids
    unfold txIds at hn
    rw [run.processed.txdata, List.map_cons, List.nodup_cons] at hn
    intro tx htx heq
    exact hn.1 (heq ▸ List.mem_map_of_mem htx)
  have hend := run.live_induct hvalid hsettled.agrees hsettled.null
    (P := fun live done _ => (∀ vout, live.get ⟨run.processed.coinbase.txid, vout⟩ = none) ∧
      ∀ u : UndoState, u.txos = withCoinbase live run.processed.coinbase.txid run.processed.bodies →
        (∀ ref ∈ (done.map Prod.fst).flatMap spent, u.resolver.get ref = run.final.resolver.get ref) →
        ∃ resolver, ((done.map Prod.fst).zipIdx 1).reverse.foldlM (undoTx deps height block.hash mints) u =
          (undoneDunes deps height mints ((done.map Prod.fst).zipIdx 1).reverse u.dunes).map fun dunes =>
            { txos := withCoinbase n.db.tables.txos run.processed.coinbase.txid run.processed.bodies
              resolver := resolver
              partials := u.partials.eraseAll ((done.map Prod.fst).map Transaction.txid).reverse
              dunes := dunes }) ⟨?_, ?_⟩ ?_
  · obtain ⟨live, ⟨-, hundo⟩, -, hlive⟩ := hend
    have := hundo u (htxos.trans hlive) (by rw [hmap]; exact hresolver)
    rw [hmap] at this
    exact this
  · exact (run.processed.liveTxos hvalid hsettled.agrees).fresh _ List.mem_cons_self
  · rintro u htxos -
    refine ⟨u.resolver, ?_⟩
    rw [← htxos]
    rfl
  · rintro live done tx idx s s₁ ptx hidx hpre hliveTx hfinal ⟨hcb, hundo⟩
    obtain rfl := run.processed.index_eq hvalid.txids hidx hpre
    have hne := hfreshCb tx (List.fst_mem_of_mem_zipIdx hidx)
    refine ⟨fun vout => ?_, fun u htxos hresolver => ?_⟩
    · rw [get_afterTx_of_ne hne]
      split
      · rfl
      · exact hcb vout
    · -- what was spent before is not spent again
      have hdisjoint : ∀ ref ∈ (done.map Prod.fst).flatMap spent, ref ∉ spent tx := by
        obtain ⟨suffix, hsuffix⟩ := hpre.map Prod.fst
        rw [hmap] at hsuffix
        rw [← hsuffix, List.map_append, List.flatMap_append, List.flatMap_append] at hspent
        intro ref hdone hnow
        refine (List.nodup_append.mp (List.nodup_append.mp hspent).1).2.2 ref hdone ref ?_ rfl
        simpa using hnow
      have hone : undoTx deps height block.hash mints u (tx, done.length + 1) =
          (undoDunes deps height mints (done.length + 1) tx u.dunes).map fun dunes =>
            { txos := withCoinbase live run.processed.coinbase.txid run.processed.bodies
              resolver := u.resolver.eraseAll (spent tx)
              partials := u.partials.eraseAll [tx.txid]
              dunes := dunes } :=
        undoTx_eq hliveTx (Nat.succ_ne_zero done.length) ptx.bodies_length hne hcb htxos (fun ref href => by
          rw [hresolver ref (by simp [href]), hfinal.inputs ref href])
      have hlist : (((done ++ [(tx, s)]).map Prod.fst).zipIdx 1).reverse =
          (tx, done.length + 1) :: ((done.map Prod.fst).zipIdx 1).reverse := by
        rw [List.map_append, List.zipIdx_append, List.reverse_append, List.length_map]
        simp [Nat.add_comm]
      have hids : (((done ++ [(tx, s)]).map Prod.fst).map Transaction.txid).reverse =
          tx.txid :: ((done.map Prod.fst).map Transaction.txid).reverse := by
        simp
      unfold undoneDunes
      rw [hlist, hids, List.foldlM_cons, List.foldlM_cons, hone]
      cases hdunes : undoDunes deps height mints (done.length + 1) tx u.dunes with
      | error e => exact ⟨u.resolver, rfl⟩
      | ok dunes =>
        exact hundo
          { txos := withCoinbase live run.processed.coinbase.txid run.processed.bodies
            resolver := u.resolver.eraseAll (spent tx)
            partials := u.partials.eraseAll [tx.txid]
            dunes := dunes } rfl (fun ref href => by
          rw [Table.get_eraseAll, if_neg (hdisjoint ref href)]
          refine hresolver ref ?_
          rw [List.map_append, List.flatMap_append]
          exact List.mem_append_left _ href)

/-- Undo of the coinbase: its outputs go. -/
theorem undoCoinbase_eq {coinbase : Transaction} {bodies : List TxoBody} {txos : Table TxoRef TxoBody}
    (hlength : bodies.length = coinbase.output.length) (hfresh : ∀ vout, txos.get ⟨coinbase.txid, vout⟩ = none)
    (hash : BlockHash) (mints : List (Nat × Nat)) {u : UndoState}
    (htxos : u.txos = withCoinbase txos coinbase.txid bodies) :
    undoTx deps height hash mints u (coinbase, 0) =
      (undoDunes deps height mints 0 coinbase u.dunes).map fun dunes =>
        { txos := txos
          resolver := u.resolver
          partials := u.partials.eraseAll [coinbase.txid]
          dunes := dunes } := by
  unfold undoTx
  simp only [ne_eq, not_true_eq_false, if_false]
  cases hdunes : undoDunes deps height mints 0 coinbase u.dunes with
  | error e => rfl
  | ok dunes =>
    have hread : coinbase.output.zipIdx.foldl (fun t e => t.erase ⟨coinbase.txid, e.2⟩) u.txos = txos := by
      refine Table.ext_get (fun ref => ?_)
      rw [get_eraseOutputs]
      split
      · rename_i hout
        have hnone := hfresh ref.vout
        rw [← (mem_outputRefs.mp hout).1] at hnone
        exact hnone.symm
      · rename_i hout
        rw [htxos]
        refine Table.get_insertAll_of_notMem (fun hmem => hout (mem_outputRefs.mpr ?_))
        obtain ⟨htx, -, hlt⟩ := numbered_keys.mp hmem
        exact ⟨htx, by omega⟩
    rw [← hread]
    rfl

/-- **Undo of the transactions of a block**, last first, with the resolver that was stored for it. -/
theorem Applied.undoAll (run : Applied deps cfg n height block mutable n')
    (hvalid : ValidBlock n.db.tables height block) (hsettled : Settled n.mem n.db.tables.txos)
    (u : UndoState) (htxos : u.txos = n'.db.tables.txos)
    (hresolver : u.resolver = run.final.resolver.filter fun ref _ => (inputRefs block).contains ref) :
    ∃ resolver, block.txdata.zipIdx.reverse.foldlM (undoTx deps height block.hash run.final.successfulMints) u =
      (undoneDunes deps height run.final.successfulMints block.txdata.zipIdx.reverse u.dunes).map fun dunes =>
        { txos := n.db.tables.txos
          resolver := resolver
          partials := u.partials.eraseAll (txIds block).reverse
          dunes := dunes } := by
  have hdrop : block.txdata.drop 1 = run.processed.txs := by rw [run.processed.txdata]; rfl
  have hread : ∀ ref ∈ run.processed.txs.flatMap spent, u.resolver.get ref = run.final.resolver.get ref := by
    intro ref href
    have hin : (inputRefs block).contains ref = true := by
      unfold inputRefs
      rw [hdrop, List.contains_iff_mem, List.mem_dedup]
      exact href
    rw [hresolver, Table.get_filter]
    cases hget : run.final.resolver.get ref with
    | none => rfl
    | some body => simp only [Option.filter_some, hin, if_true]
  obtain ⟨resolver, htxs⟩ := run.undoTxs hvalid hsettled run.final.successfulMints u htxos hread
  have hlist : block.txdata.zipIdx.reverse =
      (run.processed.txs.zipIdx 1).reverse ++ [(run.processed.coinbase, 0)] := by
    rw [run.processed.txdata, List.zipIdx_cons, List.reverse_cons]
  have hids : (txIds block).reverse =
      (run.processed.txs.map Transaction.txid).reverse ++ [run.processed.coinbase.txid] := by
    unfold txIds
    rw [run.processed.txdata, List.map_cons, List.reverse_cons]
  refine ⟨resolver, ?_⟩
  unfold undoneDunes at htxs ⊢
  rw [hlist, hids, List.foldlM_append, List.foldlM_append, htxs]
  cases hdunes : (run.processed.txs.zipIdx 1).reverse.foldlM
      (fun t e => undoDunes deps height run.final.successfulMints e.2 e.1 t) u.dunes with
  | error e => rfl
  | ok dunes =>
    have hlength : run.processed.bodies.length = run.processed.coinbase.output.length := by
      rw [← run.processed.produced.raw, List.length_map]
    let u₁ : UndoState :=
      { txos := withCoinbase n.db.tables.txos run.processed.coinbase.txid run.processed.bodies
        resolver := resolver
        partials := u.partials.eraseAll (run.processed.txs.map Transaction.txid).reverse
        dunes := dunes }
    have hcb : undoTx deps height block.hash run.final.successfulMints u₁ (run.processed.coinbase, 0) =
        (undoDunes deps height run.final.successfulMints 0 run.processed.coinbase dunes).map fun dunes =>
          { txos := n.db.tables.txos
            resolver := resolver
            partials := u₁.partials.eraseAll [run.processed.coinbase.txid]
            dunes := dunes } :=
      undoCoinbase_eq hlength ((run.processed.liveTxos hvalid hsettled.agrees).fresh _ List.mem_cons_self)
        block.hash run.final.successfulMints rfl
    change [(run.processed.coinbase, 0)].foldlM (undoTx deps height block.hash run.final.successfulMints) u₁ =
      Except.map _ ([(run.processed.coinbase, 0)].foldlM (fun t e =>
        undoDunes deps height run.final.successfulMints e.2 e.1 t) dunes)
    simp only [List.foldlM_cons, List.foldlM_nil, bind_pure, hcb]
    cases undoDunes deps height run.final.successfulMints 0 run.processed.coinbase dunes with
    | error e => rfl
    | ok dunes' =>
      simp only [Except.map, Except.ok.injEq, UndoState.mk.injEq, true_and, and_true]
      unfold PartialTables.eraseAll Table.eraseAll
      rw [List.foldl_append, List.foldl_append]
      rfl

/-! ## A block -/

/-- The DRC-20 tables with recorded messages undone, last first. -/
def undoneMessages (checks : Bool) (messages : List (InscriptionId × BRC20Message)) (t : Brc20Tables) :
    Except Err Brc20Tables :=
  (messages.map Prod.snd).reverse.foldlM (undoMessage checks) t

/-- **Undo of an applied block**, on tables with its outputs and its resolver entry. -/
theorem Applied.undoBlock_eq (run : Applied deps cfg n height block mutable n')
    (hvalid : ValidBlock n.db.tables height block) (hsettled : Settled n.mem n.db.tables.txos)
    {t : Tables} (htxos : t.txos = n'.db.tables.txos)
    (hentry : t.resolverByHeight.get height = n'.db.tables.resolverByHeight.get height) (mutable' : Bool) (w : Nat) :
    ∃ log w', undoBlock deps cfg mutable' (t, w) (height, block.hash, block) =
      (undoneMessages cfg.checks run.final.brc20Resolver t.brc20 >>= fun brc20 =>
        (undoneDunes deps height run.final.successfulMints block.txdata.zipIdx.reverse t.dunes).map fun dunes =>
          (({ txos := n.db.tables.txos
              blockByHeight := t.blockByHeight.erase height
              resolverByHeight := t.resolverByHeight.erase height
              dunes := dunes
              partials := t.partials.eraseAll (txIds block).reverse
              counters := some (n.db.tables.counters.getD Counters.default)
              brc20 := brc20
              mutableKV := log } : Tables), w')) := by
  obtain ⟨log, htables⟩ := run.tables
  have hget : t.resolverByHeight.get height = some (resolverEntry n.db.tables block run.final run.staged) := by
    rw [hentry, htables]
    simp only [Table.get_insert, if_true]
  obtain ⟨u', htxs⟩ := run.undoAll hvalid hsettled
    { txos := t.txos
      resolver := (resolverEntry n.db.tables block run.final run.staged).resolver
      partials := t.partials
      dunes := t.dunes } htxos rfl
  refine ⟨if mutable' then t.mutableKV.insert w (.undo height block.hash block) else t.mutableKV,
    if mutable' then w + 1 else w, ?_⟩
  unfold undoBlock
  simp only [hget]
  rw [if_neg (by simp [resolverEntry])]
  unfold undoneMessages
  refine bind_congr (fun brc20 => ?_)
  have hmints : (resolverEntry n.db.tables block run.final run.staged).mints = run.final.successfulMints := rfl
  rw [hmints, htxs]
  cases undoneDunes deps height run.final.successfulMints block.txdata.zipIdx.reverse t.dunes with
  | error e => cases mutable' <;> rfl
  | ok dunes => cases mutable' <;> rfl

/-! ## Tables that read the same -/

/-- A transaction adds at most a partial inscription of its own. -/
theorem InscriptionsStep.partials {tx : Transaction} {resolver : Table TxoRef TxoBody} {s s' : InscriptionState}
    {placed : List (List (U64 × InscriptionId))} {transfers : Table InscriptionId (Ticker × U128)}
    {messages : List (InscriptionId × BRC20Message)}
    (h : InscriptionsStep deps cfg height tx resolver s placed transfers messages s') :
    s'.partials = s.partials ∨ ∃ (first : TxIn) (chain : List Txid) (txs : List Transaction),
      previousPartials s.partials first.previousOutput.txid = .ok (chain, txs) ∧
      s'.partials = ⟨s.partials.txids.insert tx.txid (chain ++ [tx.txid]), s.partials.bytes.insert tx.txid tx⟩ := by
  cases h with
  | skipped => exact Or.inl rfl
  | indexed hheight hindex =>
    obtain ⟨run⟩ := indexInscriptions_ok hindex
    rw [run.records_eq.2]
    have hout := run.outcome
    generalize run.revealed = revealed at hout
    generalize run.messages = messages at hout
    generalize run.after = after at hout
    cases hout with
    | none => exact Or.inl rfl
    | partial_ hfirst hchain => exact Or.inr ⟨_, _, _, hchain, rfl⟩
    | complete => exact Or.inl rfl

/-- A block adds partial inscriptions of its own transactions only. -/
theorem Applied.partials_of_notMem (run : Applied deps cfg n height block mutable n') {txid : Txid}
    (h : txid ∉ txIds block) :
    n'.db.tables.partials.txids.get txid = n.db.tables.partials.txids.get txid ∧
      n'.db.tables.partials.bytes.get txid = n.db.tables.partials.bytes.get txid := by
  obtain ⟨log, htables⟩ := run.tables
  rw [htables]
  refine run.inscriptions_induct (P := fun _ _ i =>
    i.partials.txids.get txid = n.db.tables.partials.txids.get txid ∧
      i.partials.bytes.get txid = n.db.tables.partials.bytes.get txid) ⟨rfl, rfl⟩ ?_
  intro done tx s placed transfers messages i htx _ hstep hP
  have hne : txid ≠ tx.txid := fun heq => h (heq ▸ List.mem_map_of_mem htx)
  rcases hstep.partials with hkept | ⟨first, chain, txs, -, hadded⟩
  · rw [hkept]
    exact hP
  · rw [hadded]
    simp only [Table.get_insert, if_neg hne]
    exact hP

/-- The tables have the same outputs, blocks and partial inscriptions. -/
structure SameChain (t t' : Tables) : Prop where
  txos : t.txos = t'.txos
  blocks : t.blockByHeight = t'.blockByHeight
  resolvers : t.resolverByHeight = t'.resolverByHeight
  partials : t.partials = t'.partials

theorem SameChain.refl (t : Tables) : SameChain t t := ⟨rfl, rfl, rfl, rfl⟩

theorem SameChain.trans {t t' t'' : Tables} (h : SameChain t t') (h' : SameChain t' t'') : SameChain t t'' :=
  ⟨h.txos.trans h'.txos, h.blocks.trans h'.blocks, h.resolvers.trans h'.resolvers, h.partials.trans h'.partials⟩

/-- Outputs and partial inscriptions are of stored transactions, and blocks have a resolver entry. -/
structure Sourced (t : Tables) : Prop where
  txos : ∀ ref body, t.txos.get ref = some body → t.HasTx ref.txid
  partials : ∀ txid, ¬ t.HasTx txid → t.partials.txids.get txid = none ∧ t.partials.bytes.get txid = none
  resolvers : ∀ height, t.blockByHeight.get height = none → t.resolverByHeight.get height = none

theorem SameChain.sourced {t t' : Tables} (h : SameChain t' t) (hs : Sourced t) : Sourced t' := by
  refine ⟨?_, ?_, ?_⟩
  · unfold Tables.HasTx
    rw [h.txos, h.blocks]
    exact hs.txos
  · unfold Tables.HasTx
    rw [h.blocks, h.partials]
    exact hs.partials
  · rw [h.blocks, h.resolvers]
    exact hs.resolvers

theorem Sourced.empty : Sourced Tables.empty where
  txos ref body h := by cases h
  partials _ _ := ⟨rfl, rfl⟩
  resolvers _ _ := rfl

/-- A block keeps tables sourced. -/
theorem Applied.sourced (run : Applied deps cfg n height block mutable n')
    (hvalid : ValidBlock n.db.tables height block) (hsettled : Settled n.mem n.db.tables.txos)
    (h : Sourced n.db.tables) : Sourced n'.db.tables := by
  have hkeep : ∀ txid, ¬ n'.db.tables.HasTx txid → ¬ n.db.tables.HasTx txid ∧ txid ∉ txIds block :=
    fun txid hnot => ⟨fun hold => hnot (run.hasTx hvalid (Or.inl hold)), fun hnew => hnot (run.hasTx hvalid (Or.inr hnew))⟩
  refine ⟨?_, ?_, ?_⟩
  · have hend := run.live_induct hvalid hsettled.agrees hsettled.null
      (P := fun live _ _ => ∀ ref body, live.get ref = some body →
        n.db.tables.HasTx ref.txid ∨ ref.txid ∈ txIds block) (fun ref body hget => Or.inl (h.txos ref body hget)) ?_
    · obtain ⟨live, hlive, -, htxos⟩ := hend
      intro ref body hget
      refine run.hasTx hvalid ?_
      rw [htxos] at hget
      by_cases hkey : ref ∈ (numbered run.processed.coinbase.txid 0 run.processed.bodies).map Prod.fst
      · right
        rw [(numbered_keys.mp hkey).1]
        unfold txIds
        rw [run.processed.txdata]
        exact List.mem_cons_self
      · unfold afterCoinbase at hget
        rw [Table.get_insertAll_of_notMem hkey] at hget
        exact hlive ref body hget
    · intro live done tx idx s s₁ ptx hidx _ _ _ hP ref body hget
      by_cases htx : ref.txid = tx.txid
      · right
        rw [htx]
        unfold txIds
        rw [run.processed.txdata]
        exact List.mem_map_of_mem (List.mem_cons_of_mem _ (List.fst_mem_of_mem_zipIdx hidx))
      · rw [get_afterTx_of_ne htx] at hget
        split at hget
        · cases hget
        · exact hP ref body hget
  · intro txid hnot
    obtain ⟨hold, hnew⟩ := hkeep txid hnot
    obtain ⟨htxids, hbytes⟩ := run.partials_of_notMem hnew
    rw [htxids, hbytes]
    exact h.partials txid hold
  · intro k hk
    obtain ⟨log, htables⟩ := run.tables
    rw [htables] at hk ⊢
    simp only [Table.get_insert] at hk ⊢
    split at hk
    · cases hk
    · rename_i hne
      rw [if_neg hne]
      exact h.resolvers k hk

/-- **Undoing an applied block restores** its outputs, blocks and partial inscriptions. -/
theorem Applied.undo_sameChain (run : Applied deps cfg n height block mutable n')
    (hvalid : ValidBlock n.db.tables height block) (hsettled : Settled n.mem n.db.tables.txos)
    (hsourced : Sourced n.db.tables) {mutable' : Bool} {x x' : Tables × Nat} (hsame : SameChain x.1 n'.db.tables)
    (h : undoBlock deps cfg mutable' x (height, block.hash, block) = .ok x') : SameChain x'.1 n.db.tables := by
  obtain ⟨t, w⟩ := x
  obtain ⟨log, w', heq⟩ := run.undoBlock_eq hvalid hsettled hsame.txos (by rw [hsame.resolvers]) mutable' w
  rw [heq] at h
  obtain ⟨brc20, -, h⟩ := bind_eq_ok.mp h
  obtain ⟨dunes, -, rfl⟩ := map_eq_ok.mp h
  obtain ⟨log', htables⟩ := run.tables
  have hheight : n.db.tables.blockByHeight.get height = none := by
    cases hget : n.db.tables.blockByHeight.get height with
    | none => rfl
    | some e => exact absurd (hvalid.later (height, e) (Table.mem_entries.mpr hget)) (Nat.lt_irrefl _)
  have hblocks := hsame.blocks
  have hresolvers := hsame.resolvers
  have hpartials := hsame.partials
  simp only at hblocks hresolvers hpartials
  refine ⟨rfl, ?_, ?_, ?_⟩
  · simp only [hblocks, htables]
    exact Table.erase_insert hheight
  · simp only [hresolvers, htables]
    exact Table.erase_insert (hsourced.resolvers height hheight)
  · -- the block's txids were not there before
    have hread : ∀ txid, (n'.db.tables.partials.eraseAll (txIds block).reverse).txids.get txid =
        n.db.tables.partials.txids.get txid ∧ (n'.db.tables.partials.eraseAll (txIds block).reverse).bytes.get txid =
        n.db.tables.partials.bytes.get txid := by
      intro txid
      unfold PartialTables.eraseAll
      simp only [Table.get_eraseAll, List.mem_reverse]
      by_cases hmem : txid ∈ txIds block
      · obtain ⟨htxids, hbytes⟩ := hsourced.partials txid (hvalid.not_hasTx hmem)
        rw [if_pos hmem, if_pos hmem, htxids, hbytes]
        exact ⟨rfl, rfl⟩
      · rw [if_neg hmem, if_neg hmem]
        exact run.partials_of_notMem hmem
    simp only [hpartials]
    have htxids := Table.ext_get (fun txid => (hread txid).1)
    have hbytes := Table.ext_get (fun txid => (hread txid).2)
    calc n'.db.tables.partials.eraseAll (txIds block).reverse
        = ⟨(n'.db.tables.partials.eraseAll (txIds block).reverse).txids,
            (n'.db.tables.partials.eraseAll (txIds block).reverse).bytes⟩ := rfl
      _ = n.db.tables.partials := by rw [htxids, hbytes]

end

end DogeIndexer.Compressor
