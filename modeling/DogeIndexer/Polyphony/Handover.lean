import DogeIndexer.Compressor.Recorded
import DogeIndexer.Compressor.Reach
import DogeIndexer.Polyphony.Described
import DogeIndexer.Polyphony.InscriptionIndex

/-!
# The chain that is handed over

The blocks that a node stores, each with the context that the sync service makes of its resolver entry,
are a valid chain of the indexer, and the outputs that the chain leaves unspent are those of the node's
table, with their dunes and inscriptions.

* `Mirrors` — unspent outputs at the indexer and in the table.
* `Applied.handed_over` — an applied block is a valid next block.
* `handed_over_chain` — every reachable node, whatever was applied and rolled back on the way.
-/

set_option autoImplicit false

namespace DogeIndexer.Polyphony.Reducers

open Compressor (Bytes U32 Txid ScriptHash OutPoint TxIn TxOut TxoRef TxoBody DuneId InscriptionId Transaction Block
  BlockState ResolverEntry Deps Node Call spent numbered outputRefs inputRefs txIds afterTx LiveTx ResolvedTx ProcessedTx
  ValidBlock Settled Tables NewInscriptionInfo)

/-! ## Outputs at the indexer -/

/-- An output of the table, as the indexer holds it: the offsets of inscriptions are cast to 32 bits. -/
def asUtxo (body : TxoBody) : Utxo := ⟨body.height, body.raw, body.dunes, castInscriptions body.inscriptions⟩

/-- The indexer's unspent outputs are those of the table. -/
def Mirrors (t : Unspent) (txos : Table TxoRef TxoBody) : Prop := ∀ ref, t.get ref = (txos.get ref).map asUtxo

theorem castRunes_fits {body : TxoBody} (h : body.Fits) : castRunes body.dunes = body.dunes := by
  unfold castRunes
  refine (List.map_congr_left fun e he => ?_).trans (List.map_id _)
  have hlt := (h.dune e he).2
  rw [Nat.mod_eq_of_lt (by omega)]
  rfl

section

variable {t : Unspent} {live : Table TxoRef TxoBody}

theorem Mirrors.empty : Mirrors Table.empty Table.empty := fun _ => rfl

theorem Mirrors.eraseAll (h : Mirrors t live) (refs : List TxoRef) :
    Mirrors (t.eraseAll refs) (live.eraseAll refs) := by
  intro ref
  rw [Table.get_eraseAll, Table.get_eraseAll]
  split
  · rfl
  · exact h ref

theorem Mirrors.insertAll (h : Mirrors t live) (l : List (TxoRef × TxoBody)) :
    Mirrors (t.insertAll (l.map fun e => (e.1, asUtxo e.2))) (live.insertAll l) := by
  intro ref
  rw [Table.get_insertAll_map]
  split
  · rename_i href
    exact congrArg (Option.map asUtxo) (Table.get_insertAll_congr href)
  · rename_i href
    rw [Table.get_insertAll_of_notMem href]
    exact h ref

/-- The outputs of a transaction, under their references at the indexer. -/
def produced (txid : Txid) (bodies : List TxoBody) : List (OutPoint × Utxo) :=
  (numbered txid 0 bodies).map fun e => (e.1, asUtxo e.2)

omit t live in
theorem mem_produced_ref {txid : Txid} {bodies : List TxoBody} {e : Event}
    (h : e ∈ (produced txid bodies).map fun e => .produce e.1 e.2) : e.ref.txid = txid := by
  obtain ⟨x, hx, rfl⟩ := List.mem_map.mp h
  obtain ⟨y, hy, rfl⟩ := List.mem_map.mp hx
  exact (Compressor.mem_numbered.mp hy).1

/-- Outputs that are produced under free references. -/
theorem Mirrors.produce (h : Mirrors t live) {txid : Txid} (hfree : ∀ vout, live.get ⟨txid, vout⟩ = none)
    (bodies : List TxoBody) :
    Ledger.Valid t ((produced txid bodies).map fun e => .produce e.1 e.2) ∧
      Mirrors (Ledger.run t ((produced txid bodies).map fun e => .produce e.1 e.2))
        (live.insertAll (numbered txid 0 bodies)) := by
  have hkeys : (produced txid bodies).map Prod.fst = (numbered txid 0 bodies).map Prod.fst := by
    unfold produced
    rw [List.map_map]
    rfl
  obtain ⟨hvalid, hrun⟩ := Ledger.produces (t := t) (l := produced txid bodies)
    (by rw [hkeys]; exact Compressor.numbered_nodup _ _ _) (by
      intro e he
      obtain ⟨x, hx, rfl⟩ := List.mem_map.mp he
      have hnone := hfree x.1.vout
      rw [← (Compressor.mem_numbered.mp hx).1] at hnone
      rw [h, hnone]
      rfl)
  rw [hrun]
  exact ⟨hvalid, h.insertAll _⟩

/-- Inscriptions that are held once are in one place at the indexer. -/
theorem Mirrors.inscribedOnce (h : Mirrors t live) {i : Compressor.InscriptionState} {recorded : List InscriptionId}
    (hrecorded : Compressor.IdsRecorded live i recorded) (hnodup : recorded.Nodup) : InscribedOnce t := by
  intro ref u ref' u' hget hget' e he e' he' hid
  rw [h] at hget hget'
  obtain ⟨body, hbody, rfl⟩ := Option.map_eq_some_iff.mp hget
  obtain ⟨body', hbody', rfl⟩ := Option.map_eq_some_iff.mp hget'
  obtain ⟨x, hx, rfl⟩ := List.mem_map.mp he
  obtain ⟨x', hx', rfl⟩ := List.mem_map.mp he'
  have hone : Compressor.idsOn live x.2 ≤ 1 :=
    le_trans (le_trans (Nat.le_add_right _ _) (hrecorded x.2)) (List.nodup_iff_count_le_one.mp hnodup x.2)
  obtain ⟨href, heq⟩ := Compressor.eq_of_idsOn_le_one hone hbody hbody' hx hx' rfl hid.symm
  exact ⟨href, by rw [heq]⟩

/-- Fewer outputs hold inscriptions in fewer places. -/
theorem InscribedOnce.mono {t' : Unspent} (hsub : ∀ ref u, t'.get ref = some u → t.get ref = some u)
    (h : InscribedOnce t) : InscribedOnce t' :=
  fun ref u ref' u' hget hget' => h ref u ref' u' (hsub ref u hget) (hsub ref' u' hget')

end

/-! ## One transaction -/

section

variable {b : EnrichedBlock} {final : Table TxoRef TxoBody} {entry : ResolverEntry} {ref : TxoRef} {body : TxoBody}
  {tx : Transaction} {bodies : List TxoBody}

/-- A block with the context that its entry becomes. -/
structure EnrichedBlock.From (b : EnrichedBlock) (final : Table TxoRef TxoBody) (entry : ResolverEntry) : Prop where
  of : EntryOf final b.block entry
  ctx : b.ctx = contextOf entry
  fits : ∀ ref body, final.get ref = some body → body.Fits

namespace EnrichedBlock.From

/-- **An output is described as it is stored.** -/
theorem described_eq (h : b.From final entry) (hbody : final.get ref = some body)
    (hin : ref ∈ inputRefs b.block ∨ ref ∈ b.block.txdata.flatMap outputRefs) :
    b.described ref body.height body.raw = asUtxo body := by
  unfold EnrichedBlock.described asUtxo
  rw [h.ctx, h.of.utxoRunes hbody hin, h.of.utxoInscriptions hbody hin, castRunes_fits (h.fits ref body hbody)]

theorem outputs_numbered (hraw : bodies.map TxoBody.raw = tx.output) (hlen : tx.output.length < 2 ^ 32) :
    outputs tx = (numbered tx.txid 0 bodies).map fun e => (e.1, e.2.raw) := by
  have hall : ∀ (l : List TxoBody) (k : Nat), k + l.length < 2 ^ 32 →
      ((l.map TxoBody.raw).zipIdx k).map (fun e => ((⟨tx.txid, e.2 % 2 ^ 32⟩ : OutPoint), e.1)) =
        (numbered tx.txid k l).map fun e => (e.1, e.2.raw) := by
    intro l
    induction l with
    | nil => exact fun _ _ => rfl
    | cons body l ih =>
      intro k hk
      rw [List.length_cons] at hk
      rw [List.map_cons, List.zipIdx_cons, List.map_cons, ih (k + 1) (by omega), Nat.mod_eq_of_lt (by omega)]
      rfl
  unfold outputs
  rw [← hraw]
  refine hall bodies 0 ?_
  have hsame := congrArg List.length hraw
  rw [List.length_map] at hsame
  omega

theorem producedBy_eq (h : b.From final entry) (htx : tx ∈ b.block.txdata) (hraw : bodies.map TxoBody.raw = tx.output)
    (hheight : ∀ body ∈ bodies, body.height = b.point.height) (hlen : tx.output.length < 2 ^ 32)
    (hfinal : ∀ vout body, bodies[vout]? = some body → final.get ⟨tx.txid, vout⟩ = some body) :
    b.producedBy tx = produced tx.txid bodies := by
  unfold EnrichedBlock.producedBy produced
  rw [outputs_numbered hraw hlen, List.map_map]
  refine List.map_congr_left fun e he => ?_
  obtain ⟨⟨txid, vout⟩, body⟩ := e
  obtain ⟨htxid, i, hi, hget⟩ := Compressor.mem_numbered.mp he
  simp only at htxid hi
  rw [Nat.zero_add] at hi
  subst htxid hi
  have hout : (⟨tx.txid, vout⟩ : TxoRef) ∈ b.block.txdata.flatMap outputRefs := by
    refine List.mem_flatMap.mpr ⟨tx, htx, Compressor.mem_outputRefs.mpr ⟨rfl, ?_⟩⟩
    rw [← hraw, List.length_map]
    exact (List.getElem?_eq_some_iff.mp hget).1
  have hdescribed := h.described_eq (hfinal vout body hget) (Or.inr hout)
  rw [hheight body (List.mem_of_getElem? hget)] at hdescribed
  exact congrArg (Prod.mk _) hdescribed

/-- What a transaction spends. -/
def spentFrom (live : Table TxoRef TxoBody) (tx : Transaction) : List (OutPoint × Utxo) :=
  (spent tx).filterMap fun ref => (live.get ref).map fun body => (ref, asUtxo body)

theorem consumedBy_eq (h : b.From final entry) {live : Table TxoRef TxoBody} (hcb : isCoinbase tx = false)
    (hin : ∀ ref ∈ spent tx, ref ∈ inputRefs b.block)
    (hlive : ∀ ref ∈ spent tx, ∃ body, live.get ref = some body ∧ final.get ref = some body) :
    b.consumedBy tx = spentFrom live tx := by
  unfold EnrichedBlock.consumedBy spentFrom
  rw [if_neg (by simp [hcb])]
  refine List.filterMap_congr fun ref href => ?_
  obtain ⟨body, hbody, hfinal⟩ := hlive ref href
  rw [h.ctx, h.of.findUtxo (hin ref href) hfinal, hbody]
  exact congrArg (fun u => some (ref, u)) (h.described_eq hfinal (Or.inl (hin ref href)))

theorem spentFrom_keys {live : Table TxoRef TxoBody} (hlive : ∀ ref ∈ spent tx, ∃ body, live.get ref = some body) :
    (spentFrom live tx).map Prod.fst = spent tx := by
  unfold spentFrom
  generalize spent tx = refs at hlive
  induction refs with
  | nil => rfl
  | cons ref refs ih =>
    obtain ⟨body, hbody⟩ := hlive ref List.mem_cons_self
    rw [List.filterMap_cons_some (by rw [hbody]; rfl), List.map_cons,
      ih fun ref' href' => hlive ref' (List.mem_cons_of_mem _ href')]

/-- **The events of a transaction** take away its inputs and add its outputs. -/
theorem run_txEvents (h : b.From final entry) {t : Unspent} {live : Table TxoRef TxoBody} {s : BlockState}
    (hm : Mirrors t live) (htx : tx ∈ b.block.txdata.drop 1) (hcb : isCoinbase tx = false) (hlive : LiveTx live tx s)
    (hresolved : ResolvedTx final tx s bodies) (hraw : bodies.map TxoBody.raw = tx.output)
    (hheight : ∀ body ∈ bodies, body.height = b.point.height) (hlen : tx.output.length < 2 ^ 32) :
    b.txEvents tx = ((spentFrom live tx).map fun e => .spend e.1 e.2) ++
        ((produced tx.txid bodies).map fun e => .produce e.1 e.2) ∧
      Ledger.Valid t (b.txEvents tx) ∧ Mirrors (Ledger.run t (b.txEvents tx)) (afterTx live tx bodies) := by
  have hin : ∀ ref ∈ spent tx, ref ∈ inputRefs b.block :=
    fun ref href => List.mem_dedup.mpr (List.mem_flatMap.mpr ⟨tx, htx, href⟩)
  have hinputs : ∀ ref ∈ spent tx, ∃ body, live.get ref = some body ∧ final.get ref = some body := by
    intro ref href
    obtain ⟨body, hbody, hget⟩ := hlive.inputs ref href
    exact ⟨body, hbody, (hresolved.inputs ref href).trans hget⟩
  have hevents : b.txEvents tx = ((spentFrom live tx).map fun e => .spend e.1 e.2) ++
      ((produced tx.txid bodies).map fun e => .produce e.1 e.2) := by
    unfold EnrichedBlock.txEvents
    rw [h.consumedBy_eq hcb hin hinputs,
      h.producedBy_eq (List.mem_of_mem_drop htx) hraw hheight hlen hresolved.outputs]
  have hkeys := spentFrom_keys fun ref href => (hinputs ref href).imp fun _ h => h.1
  obtain ⟨hvspend, hrspend⟩ := Ledger.spends (t := t) (l := spentFrom live tx) (by rw [hkeys]; exact hlive.nodup) (by
    intro e he
    obtain ⟨ref, -, heq⟩ := List.mem_filterMap.mp he
    obtain ⟨body, hbody, rfl⟩ := Option.map_eq_some_iff.mp heq
    rw [hm, hbody]
    rfl)
  have hleft : Mirrors (Ledger.run t ((spentFrom live tx).map fun e => .spend e.1 e.2)) (live.eraseAll (spent tx)) := by
    rw [hrspend, hkeys]
    exact hm.eraseAll (spent tx)
  have hfree : ∀ vout, (live.eraseAll (spent tx)).get ⟨tx.txid, vout⟩ = none := by
    intro vout
    rw [Table.get_eraseAll]
    split
    · rfl
    · exact hlive.fresh vout
  obtain ⟨hvproduce, hmirrors⟩ := hleft.produce hfree bodies
  rw [hevents, Ledger.valid_append, Ledger.run_append]
  exact ⟨rfl, ⟨hvspend, hvproduce⟩, hmirrors⟩

/-- The events of the coinbase add its outputs. -/
theorem run_coinbaseEvents (h : b.From final entry) {t : Unspent} {live : Table TxoRef TxoBody} (hm : Mirrors t live)
    (htake : b.block.txdata.take 1 = [tx]) (hcb : isCoinbase tx = true) (hfree : ∀ vout, live.get ⟨tx.txid, vout⟩ = none)
    (hraw : bodies.map TxoBody.raw = tx.output) (hheight : ∀ body ∈ bodies, body.height = b.point.height)
    (hlen : tx.output.length < 2 ^ 32)
    (hfinal : ∀ vout body, bodies[vout]? = some body → final.get ⟨tx.txid, vout⟩ = some body) :
    b.coinbaseEvents = ((produced tx.txid bodies).map fun e => .produce e.1 e.2) ∧
      Ledger.Valid t b.coinbaseEvents ∧
      Mirrors (Ledger.run t b.coinbaseEvents) (live.insertAll (numbered tx.txid 0 bodies)) := by
  have htx : tx ∈ b.block.txdata :=
    List.mem_of_mem_take (i := 1) (by rw [htake]; exact List.mem_singleton_self tx)
  have hevents : b.coinbaseEvents = ((produced tx.txid bodies).map fun e => .produce e.1 e.2) := by
    unfold EnrichedBlock.coinbaseEvents
    rw [htake, List.flatMap_singleton]
    unfold EnrichedBlock.txEvents EnrichedBlock.consumedBy
    rw [if_pos hcb, h.producedBy_eq htx hraw hheight hlen hfinal]
    rfl
  obtain ⟨hvalid, hmirrors⟩ := hm.produce hfree bodies
  rw [hevents]
  exact ⟨rfl, hvalid, hmirrors⟩

end EnrichedBlock.From

end

/-! ## One block -/

section

variable {deps : Deps} {cfg : Compressor.Config} {n n' : Node} {height : Nat} {block : Block} {mutable : Bool}
  {t : Unspent} {b : EnrichedBlock}

/-- The indexer after the first transactions of a block, when those are indexed that follow the coinbase. -/
structure HandedOver (t : Unspent) (b : EnrichedBlock) (final : Table TxoRef TxoBody) (coinbase : Txid)
    (earlier : List InscriptionId) (live : Table TxoRef TxoBody) (done : List Transaction) (s : BlockState) : Prop where
  sound : s.Sound earlier live
  free : ∀ vout, live.get ⟨coinbase, vout⟩ = none
  valid : Ledger.Valid t (done.flatMap b.txEvents)
  mirrors : Mirrors (Ledger.run t (done.flatMap b.txEvents)) live
  resolved : ∀ tx ∈ done, ∀ ref ∈ spent tx, ∃ body, final.get ref = some body
  others : ∀ e ∈ done.flatMap b.txEvents, e.ref.txid ≠ coinbase
  once : (earlier ++ s.inscriptions.newInscriptions.map NewInscriptionInfo.id).Nodup →
    Ledger.Along InscribedOnce t (done.flatMap b.txEvents)

variable {earlier : List InscriptionId} {final live : Table TxoRef TxoBody} {entry : ResolverEntry} {coinbase : Txid}
  {done : List Transaction} {s s₁ : BlockState} {tx : Transaction} {idx : Nat}

/-- **One transaction is handed over.** -/
theorem HandedOver.step (h : HandedOver t b final coinbase earlier live done s) (hfrom : b.From final entry)
    (ptx : ProcessedTx deps cfg b.point.height idx tx s s₁) (htx : tx ∈ b.block.txdata.drop 1)
    (hlive : LiveTx live tx s) (hresolved : ResolvedTx final tx s ptx.bodies) (hnull : OutPoint.null ∉ spent tx)
    (hlen : tx.output.length < 2 ^ 32) (hne : tx.txid ≠ coinbase) :
    HandedOver t b final coinbase earlier (afterTx live tx ptx.bodies) (done ++ [tx]) s₁ := by
  have hsound := h.sound.step ptx hlive hnull hlen
  obtain ⟨hevents, hvalid, hmirrors⟩ := hfrom.run_txEvents h.mirrors htx (not_isCoinbase hnull) hlive hresolved
    ptx.produced.raw ptx.produced.height hlen
  have hsplit : (done ++ [tx]).flatMap b.txEvents = done.flatMap b.txEvents ++ b.txEvents tx := by
    rw [List.flatMap_append, List.flatMap_singleton]
  refine ⟨hsound, fun vout => ?_, ?_, ?_, fun tx' htx' ref href => ?_, ?_, fun hnodup => ?_⟩
  · rw [Compressor.get_afterTx_of_ne (Ne.symm hne)]
    split
    · rfl
    · exact h.free vout
  · rw [hsplit, Ledger.valid_append]
    exact ⟨h.valid, hvalid⟩
  · rw [hsplit, Ledger.run_append]
    exact hmirrors
  · rcases List.mem_append.mp htx' with htx' | htx'
    · exact h.resolved tx' htx' ref href
    · rw [List.mem_singleton.mp htx'] at href
      obtain ⟨body, -, hbody⟩ := hlive.inputs ref href
      exact ⟨body, (hresolved.inputs ref href).trans hbody⟩
  · intro e he
    rw [hsplit] at he
    rcases List.mem_append.mp he with he | he
    · exact h.others e he
    · rw [hevents] at he
      rcases List.mem_append.mp he with he | he
      · -- what is spent is live, and the coinbase has no live outputs yet
        obtain ⟨x, hx, rfl⟩ := List.mem_map.mp he
        obtain ⟨ref, -, heq⟩ := List.mem_filterMap.mp hx
        obtain ⟨body, hbody, rfl⟩ := Option.map_eq_some_iff.mp heq
        rintro rfl
        exact absurd ((h.free ref.vout).symm.trans hbody) (by simp)
      · obtain ⟨x, hx, rfl⟩ := List.mem_map.mp he
        obtain ⟨y, hy, rfl⟩ := List.mem_map.mp hx
        rintro heq
        exact hne ((Compressor.mem_numbered.mp hy).1.symm.trans heq)
  · obtain ⟨revealed, hrecords⟩ := ptx.inscriptions.records
    have hbefore : (earlier ++ s.inscriptions.newInscriptions.map NewInscriptionInfo.id).Nodup := by
      rw [ptx.inscriptions_eq, hrecords, List.map_append, ← List.append_assoc] at hnodup
      exact (List.nodup_append.mp hnodup).1
    rw [hsplit, Ledger.along_append]
    refine ⟨h.once hbefore, ?_⟩
    rw [hevents] at hvalid hmirrors ⊢
    exact Ledger.along_spends_produces (fun _ _ hsub => InscribedOnce.mono hsub) hvalid
      (h.mirrors.inscribedOnce h.sound.recorded hbefore) (hmirrors.inscribedOnce hsound.recorded hnodup)

/-- The entry of an applied block. -/
theorem Applied.entryOf (run : Compressor.Applied deps cfg n height block mutable n')
    (hvalid : ValidBlock n.db.tables height block) :
    EntryOf run.final.resolver block (Compressor.resolverEntry n.db.tables block run.final run.staged) := by
  have hlists := stageTxs_lists run.stages
  exact ⟨hvalid.txids, rfl, hlists.runes.trans (List.nil_append _), hlists.inscriptions.trans (List.nil_append _)⟩

/-- **An applied block is a valid next block of the indexer**, and leaves there the outputs that it leaves in the
table; with ids that are distinct, each inscription is in one place at a time. -/
theorem Applied.handed_over (run : Compressor.Applied deps cfg n height block mutable n')
    (hvalid : ValidBlock n.db.tables height block) (hsettled : Settled n.mem n.db.tables.txos)
    (hsound : n.db.tables.Sound) (hm : Mirrors t n.db.tables.txos) (hheight : b.point.height = height)
    (hblock : b.block = block)
    (hctx : b.ctx = contextOf (Compressor.resolverEntry n.db.tables block run.final run.staged)) :
    b.Valid t ∧ Mirrors (Ledger.run t b.events) n'.db.tables.txos ∧
      ((n.db.tables.records.map NewInscriptionInfo.id ++
        run.final.inscriptions.newInscriptions.map NewInscriptionInfo.id).Nodup → b.Inscribed t) ∧
      run.final.Sound (n.db.tables.records.map NewInscriptionInfo.id) n'.db.tables.txos := by
  subst hblock
  obtain ⟨hcbSpent, hothers⟩ := hvalid.coinbase.not_null run.processed.txdata
  have hdrop : b.block.txdata.drop 1 = run.processed.txs := by
    rw [run.processed.txdata]
    rfl
  have htake : b.block.txdata.take 1 = [run.processed.coinbase] := by
    rw [run.processed.txdata]
    rfl
  have hcbMem : run.processed.coinbase ∈ b.block.txdata := by
    rw [run.processed.txdata]
    exact List.mem_cons_self
  have hlen : ∀ tx ∈ b.block.txdata, tx.output.length < 2 ^ 32 := hvalid.outputs
  have hfinal := run.sound_final hvalid hsettled hsound
  have hfrom : b.From run.final.resolver (Compressor.resolverEntry n.db.tables b.block run.final run.staged) :=
    ⟨Applied.entryOf run hvalid, hctx, hfinal.resolved⟩
  have hfresh : ∀ tx ∈ b.block.txdata, ∀ vout, n.db.tables.txos.get ⟨tx.txid, vout⟩ = none := by
    intro tx htx vout
    cases hget : n.db.tables.txos.get ⟨tx.txid, vout⟩ with
    | none => rfl
    | some body =>
      exact absurd (List.mem_map_of_mem htx) (hvalid.unproduced (⟨tx.txid, vout⟩, body) (Table.mem_entries.mpr hget))
  have hend := run.live_induct hvalid hsettled.agrees hsettled.null
    (P := fun live done s => HandedOver t b run.final.resolver run.processed.coinbase.txid
      (n.db.tables.records.map NewInscriptionInfo.id) live (done.map Prod.fst) s) ?_ ?_
  · obtain ⟨live, hdone, hfree, htxos⟩ := hend
    have htxs : run.processed.steps.map Prod.fst = b.block.txdata.drop 1 := by
      rw [run.processed.processes.map_fst, List.zipIdx_map_fst, hdrop]
    rw [htxs] at hdone
    have hvrest : Ledger.Valid t b.restEvents := hdone.valid
    have hmrest : Mirrors (Ledger.run t b.restEvents) live := hdone.mirrors
    obtain ⟨hcoinbase, hvcb, hmcb⟩ := hfrom.run_coinbaseEvents hmrest htake (isCoinbase_of_inputs hcbSpent) hfree
      run.processed.produced.raw (by rw [hheight]; exact run.processed.produced.height) (hlen _ hcbMem) (by
        intro vout body hbody
        rw [run.processed.resolver_eq]
        exact Table.get_insertAll_of_mem (Compressor.numbered_nodup _ _ _)
          (Compressor.mem_numbered.mpr ⟨rfl, vout, by simp, hbody⟩))
    have hmafter : Mirrors (Ledger.run t b.chronological) n'.db.tables.txos := by
      rw [htxos, EnrichedBlock.chronological, Ledger.run_append]
      exact hmcb
    have hchronological : Ledger.Valid t b.chronological := Ledger.valid_append.mpr ⟨hvrest, hvcb⟩
    -- in the order of the block, the coinbase comes first
    have hrefs : ∀ e ∈ b.coinbaseEvents, ∀ e' ∈ b.restEvents, e.ref ≠ e'.ref := by
      intro e he e' he' heq
      rw [hcoinbase] at he
      exact hdone.others e' he' (heq ▸ mem_produced_ref he)
    obtain ⟨hcomm, hrcomm⟩ := Ledger.append_comm (t := t) hrefs
    rw [← EnrichedBlock.events_eq] at hcomm hrcomm
    refine ⟨⟨hvalid.coinbase, hvalid.txids, fun tx htx vout => ?_, hlen, ?_, ?_, ?_, ?_, hcomm.mpr hchronological⟩,
      ?_, fun hnodup => ⟨hchronological, ?_⟩, hfinal⟩
    · rw [hm, hfresh tx htx vout]
      rfl
    · rw [hheight]
      exact hvalid.height
    · intro ref runes hget
      rw [hctx] at hget
      obtain ⟨body, hbody, rfl⟩ := hfrom.of.utxoRunes_cases hget
      have hfits := hfinal.resolved ref body hbody
      rw [castRunes_fits hfits]
      refine ⟨hfits.dunes, fun e he => ?_⟩
      obtain ⟨hblock, htx⟩ := hfits.dune e he
      omega
    · intro ref inscriptions hget e he
      rw [hctx] at hget
      obtain ⟨body, hbody, hall⟩ := hfrom.of.utxoInscriptions_cases hget
      obtain ⟨e', he', hid⟩ := hall e he
      rw [← hid, (hfinal.resolved ref body hbody).inscription e' he']
      decide
    · intro tx htx ref href
      obtain ⟨body, hbody⟩ := hdone.resolved tx htx ref href
      rw [hctx, hfrom.of.findUtxo (List.mem_dedup.mpr (List.mem_flatMap.mpr ⟨tx, htx, href⟩)) hbody]
      rfl
    · rw [hrcomm]
      exact hmafter
    · obtain ⟨revealed, hrecords⟩ := run.processed.inscriptions.records
      have hbefore : (n.db.tables.records.map NewInscriptionInfo.id ++
          run.processed.closed.inscriptions.newInscriptions.map NewInscriptionInfo.id).Nodup := by
        rw [run.processed.inscriptions_eq, hrecords, List.map_append, ← List.append_assoc] at hnodup
        exact (List.nodup_append.mp hnodup).1
      rw [EnrichedBlock.chronological, Ledger.along_append]
      refine ⟨hdone.once hbefore, ?_⟩
      have honce := hmafter.inscribedOnce hfinal.recorded hnodup
      rw [EnrichedBlock.chronological, Ledger.run_append] at honce
      rw [hcoinbase] at honce hvcb ⊢
      exact Ledger.along_spends_produces (s := []) (fun _ _ hsub => InscribedOnce.mono hsub) hvcb
        (hmrest.inscribedOnce hdone.sound.recorded hbefore) honce
  · refine ⟨run.sound_started hvalid hsettled hsound, hfresh _ hcbMem, trivial, hm,
      fun tx htx => (List.not_mem_nil htx).elim, fun e he => (List.not_mem_nil he).elim, fun hnodup => ?_⟩
    have hstarted := run.sound_started hvalid hsettled hsound
    exact hm.inscribedOnce hstarted.recorded hnodup
  · intro live done tx idx s s₁ ptx hidx _ hliveTx hresolved hP
    have htx : tx ∈ run.processed.txs := List.fst_mem_of_mem_zipIdx hidx
    have hmem : tx ∈ b.block.txdata.drop 1 := by
      rw [hdrop]
      exact htx
    have hne : tx.txid ≠ run.processed.coinbase.txid := by
      have hn := hvalid.txids
      unfold txIds at hn
      rw [run.processed.txdata, List.map_cons, List.nodup_cons] at hn
      intro heq
      exact hn.1 (heq ▸ List.mem_map_of_mem htx)
    rw [List.map_append]
    subst hheight
    exact hP.step hfrom ptx hmem hliveTx hresolved (hothers tx htx) (hlen tx (List.mem_of_mem_drop hmem)) hne

end

/-! ## The chain -/

section

variable {t : Unspent} {l l' : List EnrichedBlock}

theorem validChain_append :
    ValidChain t (l ++ l') ↔ ValidChain t l ∧ ValidChain (Ledger.run t (l.flatMap EnrichedBlock.events)) l' := by
  induction l generalizing t with
  | nil => exact ⟨fun h => ⟨trivial, h⟩, fun h => h.2⟩
  | cons b l ih =>
    rw [List.cons_append, List.flatMap_cons, Ledger.run_append]
    exact (and_congr_right fun _ => ih).trans and_assoc.symm

theorem inscribedChain_append :
    InscribedChain t (l ++ l') ↔
      InscribedChain t l ∧ InscribedChain (Ledger.run t (l.flatMap EnrichedBlock.events)) l' := by
  induction l generalizing t with
  | nil => exact ⟨fun h => ⟨trivial, h⟩, fun h => h.2⟩
  | cons b l ih =>
    rw [List.cons_append, List.flatMap_cons, Ledger.run_append]
    exact (and_congr_right fun _ => ih).trans and_assoc.symm

theorem unspentAfter_append_singleton (l : List EnrichedBlock) (b : EnrichedBlock) :
    unspentAfter (l ++ [b]) = Ledger.run (unspentAfter l) b.events := by
  unfold unspentAfter
  rw [List.flatMap_append, List.flatMap_singleton, Ledger.run_append]

end

/-- Relating the last elements. -/
theorem forall₂_concat {α β : Type} {R : α → β → Prop} {l : List α} {a : α} {m : List β} :
    List.Forall₂ R (l ++ [a]) m ↔ ∃ m' b, m = m' ++ [b] ∧ List.Forall₂ R l m' ∧ R a b := by
  constructor
  · intro h
    induction l generalizing m with
    | nil =>
      obtain ⟨b, m', hb, hm', rfl⟩ := List.forall₂_cons_left_iff.mp h
      cases hm'
      exact ⟨[], b, rfl, .nil, hb⟩
    | cons x l ih =>
      obtain ⟨y, rest, hy, hrest, rfl⟩ := List.forall₂_cons_left_iff.mp h
      obtain ⟨m', b, rfl, hl, hb⟩ := ih hrest
      exact ⟨y :: m', b, rfl, .cons hy hl, hb⟩
  · rintro ⟨m', b, rfl, hl, hb⟩
    exact List.rel_append hl (.cons hb .nil)

/-- An element is related to one at its place. -/
theorem exists_related {α β : Type} {R : α → β → Prop} {l : List α} {m : List β} (h : List.Forall₂ R l m) {b : β}
    (hb : b ∈ m) : ∃ a ∈ l, R a b := by
  induction h with
  | nil => cases hb
  | @cons a b' l m hab _ ih =>
    rcases List.mem_cons.mp hb with rfl | hb
    · exact ⟨a, List.mem_cons_self, hab⟩
    · obtain ⟨a', ha', hR⟩ := ih hb
      exact ⟨a', List.mem_cons_of_mem _ ha', hR⟩

/-- A stored block, as the source stage reads it from a page or from the stream. -/
def Received (t : Tables) (e : Nat × Compressor.BlockHash × Block) (b : EnrichedBlock) : Prop :=
  ∃ entry, t.resolverByHeight.get e.1 = some entry ∧ ∃ (o : Compressor.HashOrder) (mutable : Bool),
    processAction (.apply (Compressor.pagedBlock o e.1 e.2.1 e.2.2 entry)) mutable =
        some (some (.rollForward b.point b.block b.ctx mutable)) ∨
      processAction (Compressor.logToResponseWithCtx o (.apply e.1 e.2.2 entry)) mutable =
        some (some (.rollForward b.point b.block b.ctx mutable))

section

variable {deps : Deps} {cfg : Compressor.Config} {C : Node → Call → Prop} {t t' : Tables}
  {e : Nat × Compressor.BlockHash × Block} {b : EnrichedBlock} {entry : ResolverEntry}

/-- What is read of a stored block. -/
theorem received_iff (hhash : e.2.2.hash = e.2.1) (hentry : t.resolverByHeight.get e.1 = some entry)
    (hne : ∀ x ∈ entry.outputRunes, x.2 ≠ []) :
    Received t e b ↔ b.point = ⟨e.1, e.2.1⟩ ∧ b.block = e.2.2 ∧ b.ctx = contextOf entry := by
  obtain ⟨height, hash, block⟩ := e
  simp only at hhash hentry ⊢
  subst hhash
  constructor
  · rintro ⟨entry', hentry', o, mutable, hpaged | hstreamed⟩
    · rw [hentry] at hentry'
      cases hentry'
      rw [processAction_paged] at hpaged
      injection hpaged with hpaged
      injection hpaged with hpaged
      injection hpaged with hpoint hblock hctx
      exact ⟨hpoint.symm, hblock.symm, hctx.symm⟩
    · rw [hentry] at hentry'
      cases hentry'
      rw [processAction_streamed o height block mutable hne] at hstreamed
      injection hstreamed with hstreamed
      injection hstreamed with hstreamed
      injection hstreamed with hpoint hblock hctx
      exact ⟨hpoint.symm, hblock.symm, hctx.symm⟩
  · rintro ⟨hpoint, hblock, hctx⟩
    refine ⟨entry, hentry, .byKey, false, Or.inl ?_⟩
    rw [processAction_paged, hpoint, hblock, hctx]

/-- What stands behind the messages of a node: each stored block has an entry that can be sent, and the blocks that
are received are a valid chain. -/
structure Sent (t : Tables) : Prop where
  sourced : Compressor.Sourced t
  sound : t.Sound
  entry : ∀ e ∈ t.blockByHeight.entries, e.2.2.hash = e.2.1 ∧
    ∃ entry, t.resolverByHeight.get e.1 = some entry ∧ ∀ x ∈ entry.outputRunes, x.2 ≠ []
  chain : ∀ chain, List.Forall₂ (Received t) t.blockByHeight.entries chain →
    ValidChain Table.empty chain ∧ Mirrors (unspentAfter chain) t.txos ∧
      ((t.records.map NewInscriptionInfo.id).Nodup → InscribedChain Table.empty chain)

section

variable {chain : List EnrichedBlock}

/-- A block that is received is a stored one, with its entry. -/
theorem Sent.stored_of_mem (h : Sent t) (hchain : List.Forall₂ (Received t) t.blockByHeight.entries chain)
    (hb : b ∈ chain) :
    ∃ hash entry, t.blockByHeight.get b.point.height = some (hash, b.block) ∧
      t.resolverByHeight.get b.point.height = some entry ∧ b.ctx = contextOf entry := by
  obtain ⟨e, he, hreceived⟩ := exists_related hchain hb
  obtain ⟨hhash, entry, hentry, hne⟩ := h.entry e he
  obtain ⟨hpoint, hblock, hctx⟩ := (received_iff hhash hentry hne).mp hreceived
  refine ⟨e.2.1, entry, ?_, ?_, hctx⟩
  · rw [hpoint, hblock]
    exact Table.mem_entries.mp he
  · rw [hpoint]
    exact hentry

/-- Every stored block is received. -/
theorem Sent.mem_of_stored (h : Sent t) (hchain : List.Forall₂ (Received t) t.blockByHeight.entries chain)
    {height : Nat} {hash : Compressor.BlockHash} {block : Block} (hget : t.blockByHeight.get height = some (hash, block)) :
    ∃ b ∈ chain, b.point.height = height ∧ b.block = block := by
  obtain ⟨b, hb, hreceived⟩ := exists_related hchain.flip (Table.mem_entries.mpr hget)
  obtain ⟨hhash, entry, hentry, hne⟩ := h.entry _ (Table.mem_entries.mpr hget)
  obtain ⟨hpoint, hblock, -⟩ := (received_iff hhash hentry hne).mp hreceived
  exact ⟨b, hb, by rw [hpoint], hblock⟩

/-- The blocks of the chain have different heights. -/
theorem Sent.heights_nodup (h : Sent t) (hchain : List.Forall₂ (Received t) t.blockByHeight.entries chain) :
    (chain.map fun b => b.point.height).Nodup := by
  have hheights : chain.map (fun b => b.point.height) = t.blockByHeight.entries.map Prod.fst := by
    have hentry := h.entry
    generalize t.blockByHeight.entries = entries at hchain hentry
    induction hchain with
    | nil => rfl
    | @cons e b entries chain hreceived _ ih =>
      obtain ⟨hhash, entry, hget, hne⟩ := hentry e List.mem_cons_self
      rw [List.map_cons, List.map_cons, ih fun e' he' => hentry e' (List.mem_cons_of_mem _ he'),
        ((received_iff hhash hget hne).mp hreceived).1]
  rw [hheights]
  exact t.blockByHeight.keys_nodup

end

theorem Sent.empty : Sent Tables.empty := by
  refine ⟨.empty, .empty, fun e he => (List.not_mem_nil he).elim, fun chain hchain => ?_⟩
  cases hchain
  exact ⟨trivial, .empty, fun _ => trivial⟩

theorem Sent.congr (hsame : Compressor.SameChain t' t) (h : Sent t) : Sent t' := by
  have hreceived : Received t' = Received t := by
    unfold Received
    rw [hsame.resolvers]
  have hrecords : t'.records = t.records := by
    unfold Tables.records
    rw [hsame.resolvers]
  refine ⟨hsame.sourced h.sourced, ⟨?_, ?_, ?_⟩, ?_, ?_⟩
  · rw [hsame.txos, hrecords]
    exact h.sound.recorded
  · rw [hrecords]
    exact h.sound.index
  · rw [hsame.txos]
    exact h.sound.fits
  · rw [hsame.blocks, hsame.resolvers]
    exact h.entry
  · rw [hsame.blocks, hsame.txos, hrecords, hreceived]
    exact h.chain

/-- **A stored block extends the chain.** -/
theorem Sent.extends (h : Sent t) (hstep : Compressor.Extends deps cfg C t e t') : Sent t' := by
  obtain ⟨run, hvalid, hsettled, -⟩ := hstep
  rename_i n n' call
  have hblocks := run.block_entries hvalid
  obtain ⟨hentry, hold⟩ := run.resolver_get hvalid
  have hne : ∀ x ∈ (Compressor.resolverEntry n.db.tables call.block run.final run.staged).outputRunes, x.2 ≠ [] :=
    (Applied.entryOf run hvalid).nonempty
  refine ⟨run.sourced hvalid hsettled h.sourced, run.sound_tables hvalid hsettled h.sourced h.sound, ?_, ?_⟩
  · intro e he
    rw [hblocks] at he
    rcases List.mem_append.mp he with he | he
    · rw [hold e he]
      exact h.entry e he
    · rw [List.mem_singleton.mp he]
      exact ⟨rfl, _, hentry, hne⟩
  · intro chain hchain
    rw [hblocks] at hchain
    -- the last block is the one that is applied, and those before it are received as before
    obtain ⟨before, b, rfl, hbefore, hb⟩ := forall₂_concat.mp hchain
    have hbefore : List.Forall₂ (Received n.db.tables) n.db.tables.blockByHeight.entries before := by
      refine ((List.forall₂_and_left _ _).mpr ⟨fun e he => hold e he, hbefore⟩).imp ?_
      rintro e b ⟨hsame, hreceived⟩
      unfold Received at hreceived ⊢
      rw [← hsame]
      exact hreceived
    obtain ⟨hvalidBefore, hmirrors, hinscribed⟩ := h.chain before hbefore
    obtain ⟨hpoint, hblock, hctx⟩ := (received_iff rfl hentry hne).mp hb
    obtain ⟨hnext, hafter, honce, -⟩ := 
      Applied.handed_over run hvalid hsettled h.sound hmirrors (by rw [hpoint]) hblock hctx
    rw [validChain_append, inscribedChain_append, unspentAfter_append_singleton]
    refine ⟨⟨hvalidBefore, hnext, trivial⟩, hafter, fun hnodup => ?_⟩
    rw [run.records_append hvalid h.sourced, List.map_append] at hnodup
    exact ⟨hinscribed (List.nodup_append.mp hnodup).1, honce hnodup, trivial⟩

/-- The messages of a reachable node. -/
theorem Reach.sent {n : Node} (h : Compressor.Reach deps cfg C n) : Sent n.db.tables := by
  obtain ⟨l, hl⟩ := h.history (Compressor.restores_sameChain deps cfg C)
  exact (History.induct hl.blocks .empty (fun _ _ hsame hs => hs.congr hsame)
    fun _ _ _ hs hstep => hs.extends hstep).1

end

end DogeIndexer.Polyphony.Reducers
