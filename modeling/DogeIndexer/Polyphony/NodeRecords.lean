import DogeIndexer.Compressor.Revealed
import DogeIndexer.Polyphony.NodeViews

/-!
# The node's history in the store

What the stored blocks of a reachable node say of scripts, inscriptions and dunes is what is read in the
store of the indexer, whatever was applied and rolled back before.

* `transactions_indexed` — the transactions of a script, and the scripts of hashes.
* `contents_indexed` — the contents of inscriptions.
* `dunes_indexed` — names, etchings and mints of dunes.
-/

set_option autoImplicit false

namespace DogeIndexer.Polyphony.Reducers

open Compressor (Bytes Txid ScriptHash OutPoint TxOut TxoRef DuneId InscriptionId Transaction Block Deps Node Call Tables
  NewInscriptionInfo ResolverEntry spent)
open Timbre (Namespace)

/-! ## Transactions of scripts -/

/-- The transaction spends an output of the script. -/
def TableSpends (scriptHash : Bytes → ScriptHash) (t : Tables) (tx : Transaction) (owner : ScriptHash) : Prop :=
  ∃ ref ∈ spent tx, ∃ txo, t.HasOutput ref txo ∧ scriptHash txo.scriptPubkey = owner

section

variable {deps : Deps} {cfg : Compressor.Config} {C : Node → Call → Prop} {n : Node} {chain : List EnrichedBlock}
  {env : Env} {parts : List ConfiguredReducer} {b : EnrichedBlock} {tx : Transaction} {ref : OutPoint} {u : Utxo}

/-- An output that is produced is the transaction's. -/
theorem EnrichedBlock.mem_producedBy (hlen : tx.output.length < 2 ^ 32) (h : (ref, u) ∈ b.producedBy tx) :
    ref.txid = tx.txid ∧ tx.output[ref.vout]? = some u.txo := by
  obtain ⟨x, hx, heq⟩ := List.mem_map.mp h
  obtain ⟨⟨txo, idx⟩, he, rfl⟩ := List.mem_map.mp hx
  cases heq
  have hat := List.mem_zipIdx_iff_getElem?.mp he
  have hlt := (List.getElem?_eq_some_iff.mp hat).1
  refine ⟨rfl, ?_⟩
  simp only at hat hlt ⊢
  rw [Nat.mod_eq_of_lt (by omega)]
  exact hat

namespace Feeds

/-- A block of the chain is stored, with its entry. -/
theorem stored (h : Feeds deps cfg C n chain) (hb : b ∈ chain) : ∃ hash entry,
    n.db.tables.blockByHeight.get b.point.height = some (hash, b.block) ∧
      n.db.tables.resolverByHeight.get b.point.height = some entry ∧ b.ctx = contextOf entry :=
  h.sent.stored_of_mem h.received hb

theorem hasTransaction_iff (h : Feeds deps cfg C n chain) :
    n.db.tables.HasTransaction tx ↔ ∃ b ∈ chain, tx ∈ b.block.txdata := by
  constructor
  · rintro ⟨⟨height, hash, block⟩, he, htx⟩
    obtain ⟨b, hb, -, hblock⟩ := h.sent.mem_of_stored h.received (Table.mem_entries.mp he)
    exact ⟨b, hb, by rw [hblock]; exact htx⟩
  · rintro ⟨b, hb, htx⟩
    obtain ⟨hash, entry, hget, -, -⟩ := h.stored hb
    exact ⟨(b.point.height, hash, b.block), Table.mem_entries.mpr hget, htx⟩

/-- What a transaction spends are outputs of stored transactions. -/
theorem consumed (h : Feeds deps cfg C n chain) (hb : b ∈ chain) (htx : tx ∈ b.block.txdata)
    (hmem : (ref, u) ∈ b.consumedBy tx) : n.db.tables.HasOutput ref u.txo := by
  have hspend : Ledger.Event.spend ref u ∈ chain.flatMap EnrichedBlock.events := by
    refine List.mem_flatMap.mpr ⟨b, hb, List.mem_flatMap.mpr ⟨tx, htx, List.mem_append_left _ ?_⟩⟩
    exact List.mem_map.mpr ⟨(ref, u), hmem, rfl⟩
  rcases Ledger.get_or_produced_of_spent h.valid.valid_events hspend with hget | hproduce
  · cases hget
  · obtain ⟨b', hb', hproduce⟩ := List.mem_flatMap.mp hproduce
    obtain ⟨tx', htx', hproduce⟩ := List.mem_flatMap.mp hproduce
    obtain ⟨t, hvalid⟩ := h.valid.valid_of_mem hb'
    rcases List.mem_append.mp hproduce with hspend | hproduce
    · obtain ⟨e, -, heq⟩ := List.mem_map.mp hspend
      cases heq
    · obtain ⟨e, he, heq⟩ := List.mem_map.mp hproduce
      cases heq
      exact ⟨tx', h.hasTransaction_iff.mpr ⟨b', hb', htx'⟩, EnrichedBlock.mem_producedBy (hvalid.outputCount tx' htx') he⟩

/-- **What a transaction spends, of the stored outputs.** -/
theorem spendsFrom_iff (h : Feeds deps cfg C n chain) (hb : b ∈ chain) (htx : tx ∈ b.block.txdata)
    (scriptHash : Bytes → ScriptHash) (owner : ScriptHash) :
    b.SpendsFrom scriptHash tx owner ↔ TableSpends scriptHash n.db.tables tx owner := by
  obtain ⟨t, hvalid⟩ := h.valid.valid_of_mem hb
  constructor
  · rintro ⟨⟨ref, u⟩, hmem, howner⟩
    refine ⟨ref, ?_, u.txo, h.consumed hb htx hmem, howner⟩
    unfold EnrichedBlock.consumedBy at hmem
    split at hmem
    · cases hmem
    · obtain ⟨ref', hin, heq⟩ := List.mem_filterMap.mp hmem
      obtain ⟨u', -, heq⟩ := Option.map_eq_some_iff.mp heq
      cases heq
      exact hin
  · rintro ⟨ref, hin, txo, hout, howner⟩
    rcases hvalid.tx_cases htx with ⟨hcb, -⟩ | ⟨hcb, hresolved⟩
    · -- the coinbase names no output
      obtain ⟨txin, hinput⟩ : ∃ txin, tx.input = [txin] := by
        unfold isCoinbase at hcb
        split at hcb
        · exact ⟨_, ‹_›⟩
        · cases hcb
      have hnull : ref = OutPoint.null := by
        unfold isCoinbase at hcb
        unfold spent at hin
        rw [hinput] at hcb hin
        rw [List.map_singleton, List.mem_singleton] at hin
        rw [hin]
        exact of_decide_eq_true hcb
      obtain ⟨tx', htx', -, hat⟩ := hout
      obtain ⟨b', hb', hmem⟩ := h.hasTransaction_iff.mp htx'
      obtain ⟨t', hvalid'⟩ := h.valid.valid_of_mem hb'
      have hlt := (List.getElem?_eq_some_iff.mp hat).1
      have hlen := hvalid'.outputCount tx' hmem
      rw [hnull] at hlt
      simp only [OutPoint.null] at hlt
      omega
    · obtain ⟨u, hu⟩ := hresolved ref hin
      have hmem : (ref, b.described ref u.height u.txo) ∈ b.consumedBy tx := by
        unfold EnrichedBlock.consumedBy
        rw [if_neg (by simp [hcb])]
        exact List.mem_filterMap.mpr ⟨ref, hin, by rw [hu]; rfl⟩
      have hsame := h.reach.located.output_unique (h.consumed hb htx hmem) hout
      exact ⟨_, hmem, by unfold Utxo.owner; rw [hsame]; exact howner⟩

end Feeds

theorem Feeds.stored_iff (h : Feeds deps cfg C n chain) {idx : Nat} (hb : b ∈ chain) :
    n.db.tables.Stored ⟨b.point.height, idx⟩ tx ↔ b.block.txdata[idx]? = some tx := by
  obtain ⟨hash, entry, hget, -, -⟩ := h.stored hb
  constructor
  · rintro ⟨hash', block, hget', hat⟩
    rw [hget] at hget'
    cases hget'
    exact hat
  · exact fun hat => ⟨hash, b.block, hget, hat⟩

/-- **The store knows the transactions of scripts.**  Under a script stands each stored transaction that spends from it
or pays to it, at its place in the chain, with which of the two it does, and nothing else; and scripts that are paid to
are found by their hashes, up to a collision of hashes. -/
theorem transactions_indexed (checks : Bool) (h : Feeds deps cfg C n chain) (hnodup : parts.Nodup)
    (hrange : ∀ p ∈ parts, p.InRange env chain) :
    Indexes env checks parts chain fun store =>
      (.recording .txsByScriptHash ∈ parts → ∀ k v, env.ns.dataPrefix .txsByScriptHash <+: k →
        (store.get k = some v ↔ ∃ id tx owner, ∃ input output : Bool, n.db.tables.Stored id tx ∧
          (input = true ↔ TableSpends env.scriptHash n.db.tables tx owner) ∧
          (output = true ↔ PaysTo env.scriptHash tx owner) ∧ (input || output) = true ∧
          k = txsByScriptHashKey env.ns owner id.block id.tx tx.txid ∧ v = txsByScriptHashValue input output)) ∧
      (.recording .scriptByScriptHash ∈ parts → ∀ tx, n.db.tables.HasTransaction tx → ∀ o ∈ tx.output,
        ∃ script, env.scriptHash script = env.scriptHash o.scriptPubkey ∧
          store.get (scriptByScriptHashKey env.ns (env.scriptHash o.scriptPubkey)) =
            some (scriptByScriptHashValue script)) := by
  refine (h.indexes checks hnodup hrange).imp fun store hleft => ⟨fun hp k v hk => ?_, fun hp tx htx o ho => ?_⟩
  · have hread : store.get k = Ledger.reading k none (Ledger.assignments (chain.flatMap fun b =>
        txsEntries env.scriptHash b env.ns env.order)) := hleft.written hp rfl hk
    rw [hread, txs_exact h.valid (h.sent.heights_nodup h.received)]
    constructor
    · rintro ⟨b, hb, hmem⟩
      obtain ⟨tx, idx, owner, hat, hinvolved, hkey, hvalue⟩ := (mem_txsEntries _ _ _ _).mp hmem
      have hstored := (h.stored_iff hb).mpr hat
      have hidx : idx < 2 ^ 16 := h.reach.located.index _ _ hstored
      have hspends := h.spendsFrom_iff hb (List.mem_of_getElem? hat) env.scriptHash owner
      rw [Nat.mod_eq_of_lt hidx] at hkey
      refine ⟨⟨b.point.height, idx⟩, tx, owner, _, _, hstored, ?_, ?_, ?_, hkey, hvalue⟩
      · rw [decide_eq_true_iff]
        exact hspends
      · rw [decide_eq_true_iff]
      · rw [Bool.or_eq_true, decide_eq_true_iff, decide_eq_true_iff]
        exact hinvolved
    · rintro ⟨⟨height, idx⟩, tx, owner, input, output, hstored, hin, hout, hinvolved, hkey, hvalue⟩
      obtain ⟨b, hb, rfl⟩ := h.sent.exists_block h.received hstored
      have hidx : idx < 2 ^ 16 := h.reach.located.index _ _ hstored
      have hat := (h.stored_iff hb).mp hstored
      rw [← h.spendsFrom_iff hb (List.mem_of_getElem? hat)] at hin
      rw [Bool.or_eq_true, hin, hout] at hinvolved
      have hsame : input = decide (b.SpendsFrom env.scriptHash tx owner) ∧
          output = decide (PaysTo env.scriptHash tx owner) :=
        ⟨Bool.eq_iff_iff.mpr (hin.trans decide_eq_true_iff.symm), Bool.eq_iff_iff.mpr (hout.trans decide_eq_true_iff.symm)⟩
      refine ⟨b, hb, (mem_txsEntries _ _ _ _).mpr ⟨tx, idx, owner, hat, hinvolved, ?_, ?_⟩⟩
      · rw [Nat.mod_eq_of_lt hidx]
        exact hkey
      · rw [← hsame.1, ← hsame.2]
        exact hvalue
  · obtain ⟨b, hb, htx⟩ := h.hasTransaction_iff.mp htx
    have hread : store.get (scriptByScriptHashKey env.ns (env.scriptHash o.scriptPubkey)) =
        Ledger.reading (scriptByScriptHashKey env.ns (env.scriptHash o.scriptPubkey)) none
          (Ledger.assignments (chain.flatMap fun b => scriptEntries env.scriptHash b env.ns)) :=
      hleft.written hp rfl (List.prefix_append _ _)
    obtain ⟨script, hhash, hfound, -⟩ := scripts_found hb htx ho
    exact ⟨script, hhash, hread.trans hfound⟩

open Sample in
/-- A transaction that spends from the script that it pays to. -/
theorem transactions_indexed_revealed :
    Indexes dogecoin true [.recording .txsByScriptHash] (receive Compressor.revealedNode.db.tables) fun store =>
      store.get (txsByScriptHashKey dogecoin.ns (dogecoin.scriptHash []) 1 1 12) = some (txsByScriptHashValue true true) := by
  have hrange : ∀ p ∈ [ConfiguredReducer.recording .txsByScriptHash], p.InRange dogecoin
      (receive Compressor.revealedNode.db.tables) :=
    List.forall_mem_singleton.mpr (ConfiguredReducer.inRange_of_writes rfl)
  have hindexed := transactions_indexed true feeds_revealedNode (List.nodup_singleton _) hrange
  refine hindexed.imp fun store hstore =>
    (hstore.1 (List.mem_singleton_self _) _ _ (List.prefix_append _ _)).mpr ?_
  have hstored : ∀ (height idx : Nat) (tx : Transaction), (Compressor.revealedNode.db.tables.blockByHeight.get height).bind
      (fun e => e.2.txdata[idx]?) = some tx → Compressor.revealedNode.db.tables.Stored ⟨height, idx⟩ tx := by
    intro height idx tx h
    obtain ⟨⟨hash, block⟩, hget, hat⟩ := Option.bind_eq_some_iff.mp h
    exact ⟨hash, block, hget, hat⟩
  have htx := hstored 1 1 (Compressor.spendTx 12 ⟨10, 0⟩ [3, 111, 114, 100, 81, 1, 97, 0, 1, 98] [0, 1000, 2499999000])
    (by decide +kernel)
  have hcoinbase := hstored 0 0 (Compressor.coinbaseTx 10 [2500000000, 2500000000]) (by decide +kernel)
  refine ⟨⟨1, 1⟩, _, dogecoin.scriptHash [], true, true, htx, ⟨fun _ => ?_, fun _ => rfl⟩, ⟨fun _ => ?_, fun _ => rfl⟩,
    rfl, rfl, rfl⟩
  · exact ⟨⟨10, 0⟩, List.mem_singleton_self _, ⟨2500000000, []⟩,
      ⟨_, Compressor.Tables.hasTransaction_iff.mpr ⟨_, hcoinbase⟩, rfl, by decide⟩, rfl⟩
  · exact ⟨⟨0, []⟩, List.mem_cons_self, rfl⟩

/-! ## Contents of inscriptions -/

/-- A record of the inscription, as it is stored. -/
def RecordedContent (t : Tables) (id : InscriptionId) (v : Value) : Prop :=
  ∃ height entry info, t.resolverByHeight.get height = some entry ∧ info ∈ entry.newInscriptions ∧ info.id = id ∧
    v = contentByInscriptionIdValue height info.number info.bodyType info.body

/-- The contents that are entered for a block are the records of its entry. -/
theorem Feeds.mem_contentEntries (h : Feeds deps cfg C n chain) (hb : b ∈ chain) {entry : ResolverEntry}
    (hentry : n.db.tables.resolverByHeight.get b.point.height = some entry) (hctx : b.ctx = contextOf entry)
    {ns : Namespace} {k : Key} {v : Value} :
    (k, v) ∈ contentEntries ns b ↔ ∃ info ∈ entry.newInscriptions, k = contentByInscriptionIdKey ns info.id ∧
      v = contentByInscriptionIdValue b.point.height info.number info.bodyType info.body := by
  obtain ⟨hash, entry', hblock, hentry', -⟩ := h.stored hb
  obtain ⟨hash', block, hblock', hrevealed⟩ := h.reach.revealed.records _ (Table.mem_entries.mpr hentry)
  rw [hblock] at hblock'
  cases hblock'
  have hkeys : ((entry.newInscriptions.map fun info : NewInscriptionInfo =>
      (info.txHash, info.id, info.number, info.bodyType, info.body)).map Prod.fst).Nodup := by
    rw [List.map_map]
    exact hrevealed.once
  unfold contentEntries
  rw [List.mem_filterMap, hctx]
  constructor
  · rintro ⟨tx, -, heq⟩
    obtain ⟨e, hget, heq⟩ := Option.map_eq_some_iff.mp heq
    rcases Table.get_insertAll hget with hmem | ⟨-, hget⟩
    · obtain ⟨info, hinfo, hsame⟩ := List.mem_map.mp hmem
      obtain ⟨-, rfl⟩ := Prod.mk.inj hsame
      exact ⟨info, hinfo, (congrArg Prod.fst heq).symm, (congrArg Prod.snd heq).symm⟩
    · cases hget
  · rintro ⟨info, hinfo, rfl, rfl⟩
    obtain ⟨tx, htx, before, inscription, hby⟩ := hrevealed.revealed info hinfo
    refine ⟨tx, htx, ?_⟩
    have hget := Table.get_insertAll_of_mem (t := Table.empty) hkeys (List.mem_map_of_mem hinfo)
    rw [hby.txHash] at hget
    exact congrArg (Option.map _) hget

/-- Inscriptions with distinct ids have one record each. -/
theorem RecordedContent.unique {t : Tables} (hids : (t.records.map NewInscriptionInfo.id).Nodup) {id : InscriptionId}
    {v v' : Value} (h : RecordedContent t id v) (h' : RecordedContent t id v') : v = v' := by
  obtain ⟨height, entry, info, hentry, hinfo, hid, rfl⟩ := h
  obtain ⟨height', entry', info', hentry', hinfo', hid', rfl⟩ := h'
  have hrecords : t.records.map NewInscriptionInfo.id =
      t.resolverByHeight.entries.flatMap fun e => e.2.newInscriptions.map NewInscriptionInfo.id := by
    unfold Tables.records
    rw [List.map_flatMap]
  rw [hrecords, List.nodup_flatMap] at hids
  obtain ⟨hnodup, hdisjoint⟩ := hids
  have he := Table.mem_entries.mpr hentry
  have he' := Table.mem_entries.mpr hentry'
  have hmem : id ∈ entry.newInscriptions.map NewInscriptionInfo.id := List.mem_map.mpr ⟨info, hinfo, hid⟩
  have hmem' : id ∈ entry'.newInscriptions.map NewInscriptionInfo.id := List.mem_map.mpr ⟨info', hinfo', hid'⟩
  by_cases hsame : (height, entry) = (height', entry')
  · cases hsame
    rw [List.inj_on_of_nodup_map (hnodup _ he) hinfo hinfo' (hid.trans hid'.symm)]
  · have hsymm : Std.Symm (Function.onFun List.Disjoint fun e : Nat × ResolverEntry =>
        e.2.newInscriptions.map NewInscriptionInfo.id) := ⟨fun _ _ hd => hd.symm⟩
    exact absurd hmem' (hdisjoint.forall he he' hsame hmem)

/-- **The store knows the contents of inscriptions.**  What stands for an id is a record of the node, every recorded id
has one, and when ids are distinct it is the record. -/
theorem contents_indexed (checks : Bool) (h : Feeds deps cfg C n chain) (hnodup : parts.Nodup)
    (hrange : ∀ p ∈ parts, p.InRange env chain) (hp : .recording .contentByInscriptionId ∈ parts) :
    Indexes env checks parts chain fun store => ∀ id : InscriptionId, id.index < 2 ^ 32 →
      (∀ v, store.get (contentByInscriptionIdKey env.ns id) = some v → RecordedContent n.db.tables id v) ∧
      (id ∈ n.db.tables.records.map NewInscriptionInfo.id →
        ∃ v, store.get (contentByInscriptionIdKey env.ns id) = some v) ∧
      ((n.db.tables.records.map NewInscriptionInfo.id).Nodup → ∀ v, RecordedContent n.db.tables id v →
        store.get (contentByInscriptionIdKey env.ns id) = some v) := by
  refine (h.indexes checks hnodup hrange).imp fun store hleft id hid => ?_
  have hread : store.get (contentByInscriptionIdKey env.ns id) = Ledger.reading (contentByInscriptionIdKey env.ns id) none
      (Ledger.assignments (chain.flatMap fun b => contentEntries env.ns b)) :=
    hleft.written hp rfl (List.prefix_append _ _)
  rw [hread]
  have hindex : ∀ {height : Nat} {entry : ResolverEntry} {info : NewInscriptionInfo},
      n.db.tables.resolverByHeight.get height = some entry → info ∈ entry.newInscriptions → info.id.index < 2 ^ 32 := by
    intro height entry info hentry hinfo
    rw [h.sent.sound.index info.id (List.mem_map_of_mem (List.mem_flatMap.mpr ⟨_, Table.mem_entries.mpr hentry, hinfo⟩))]
    omega
  have hmem : ∀ v, (contentByInscriptionIdKey env.ns id, v) ∈ chain.flatMap (fun b => contentEntries env.ns b) ↔
      RecordedContent n.db.tables id v := by
    intro v
    rw [List.mem_flatMap]
    constructor
    · rintro ⟨b, hb, hmem⟩
      obtain ⟨hash, entry, -, hentry, hctx⟩ := h.stored hb
      obtain ⟨info, hinfo, hkey, hv⟩ := (h.mem_contentEntries hb hentry hctx).mp hmem
      exact ⟨b.point.height, entry, info, hentry, hinfo,
        (contentByInscriptionIdKey_inj hid (hindex hentry hinfo) hkey).symm, hv⟩
    · rintro ⟨height, entry, info, hentry, hinfo, rfl, hv⟩
      obtain ⟨hash, block, hblock, -⟩ := h.reach.revealed.records _ (Table.mem_entries.mpr hentry)
      obtain ⟨b, hb, rfl, -⟩ := h.sent.mem_of_stored h.received hblock
      obtain ⟨hash, entry', -, hentry', hctx⟩ := h.stored hb
      rw [hentry] at hentry'
      cases hentry'
      exact ⟨b, hb, (h.mem_contentEntries hb hentry hctx).mpr ⟨info, hinfo, rfl, hv⟩⟩
  refine ⟨fun v hv => (hmem v).mp (Ledger.mem_of_reading_assignments hv), fun hrecorded => ?_, fun hids v hv => ?_⟩
  · obtain ⟨info, hinfo, rfl⟩ := List.mem_map.mp hrecorded
    obtain ⟨⟨height, entry⟩, he, hinfo⟩ := List.mem_flatMap.mp hinfo
    exact Ledger.isSome_reading_assignments ((hmem _).mpr ⟨height, entry, info, Table.mem_entries.mp he, hinfo, rfl, rfl⟩)
  · refine (Ledger.reading_assignments (fun v v' hv hv' => ?_) v).mpr ((hmem v).mpr hv)
    exact ((hmem v).mp hv).unique hids ((hmem v').mp hv')

open Sample in
/-- The content of the inscription that is revealed. -/
theorem contents_indexed_revealed :
    Indexes dogecoin true [.recording .contentByInscriptionId] (receive Compressor.revealedNode.db.tables) fun store =>
      store.get (contentByInscriptionIdKey dogecoin.ns ⟨12, 0⟩) = some (contentByInscriptionIdValue 1 0 [97] [98]) := by
  have hrange : ∀ p ∈ [ConfiguredReducer.recording .contentByInscriptionId], p.InRange dogecoin
      (receive Compressor.revealedNode.db.tables) :=
    List.forall_mem_singleton.mpr (ConfiguredReducer.inRange_of_writes rfl)
  have hindexed := contents_indexed true feeds_revealedNode (List.nodup_singleton _) hrange (List.mem_singleton_self _)
  refine hindexed.imp fun store hstore => (hstore ⟨12, 0⟩ (by decide)).2.2 (by decide +kernel) _ ?_
  have hrecords : (Compressor.revealedNode.db.tables.resolverByHeight.get 1).map (fun entry =>
      entry.newInscriptions.map fun info => (info.id, info.number, info.bodyType, info.body)) =
        some [(⟨12, 0⟩, 0, [97], [98])] := by
    decide +kernel
  obtain ⟨entry, hentry, hmap⟩ := Option.map_eq_some_iff.mp hrecords
  obtain ⟨info, rest, hinfo, hsame, -⟩ := List.map_eq_cons_iff.mp hmap
  obtain ⟨hid, hsame⟩ := Prod.mk.inj hsame
  obtain ⟨hnumber, hsame⟩ := Prod.mk.inj hsame
  obtain ⟨htype, hbody⟩ := Prod.mk.inj hsame
  refine ⟨1, entry, info, hentry, ?_, hid, ?_⟩
  · rw [hinfo]
    exact List.mem_cons_self
  · rw [hnumber, htype, hbody]

/-! ## Dunes -/

/-- The claims that the entries of the stored blocks report. -/
def reportedMints (deps : Deps) (t : Tables) : List DuneId :=
  t.blockByHeight.entries.flatMap fun e => match t.resolverByHeight.get e.1 with
    | some entry => Compressor.reduceBlock deps e.2.2 entry.mints
    | none => []

theorem Feeds.minted_eq (h : Feeds deps cfg C n chain) (deps' : Deps) :
    chain.flatMap (minted deps') = reportedMints deps' n.db.tables := by
  have hreceived := h.received
  have hentry := h.sent.entry
  clear h
  unfold reportedMints
  generalize n.db.tables.blockByHeight.entries = entries at hreceived hentry
  induction hreceived with
  | nil => rfl
  | @cons e b entries chain hb _ ih =>
    obtain ⟨hhash, entry, hget, hne⟩ := hentry e List.mem_cons_self
    obtain ⟨-, hblock, hctx⟩ := (received_iff hhash hget hne).mp hb
    rw [List.flatMap_cons, List.flatMap_cons, ih fun e' he' => hentry e' (List.mem_cons_of_mem _ he'), hget]
    unfold minted
    rw [hblock, hctx]
    rfl

theorem tryFrom_lt {m : U128} {id : DuneId} (h : DuneId.tryFrom m = some id) :
    id.block < 2 ^ 64 ∧ id.tx < 2 ^ 32 := by
  unfold DuneId.tryFrom at h
  split at h
  · cases h
    exact ⟨‹_›, lt_trans (Nat.mod_lt _ (by decide)) (by decide)⟩
  · cases h

/-- The ids of reported claims fit their keys. -/
theorem reportedMints_lt {t : Tables} {id : DuneId} (h : id ∈ reportedMints deps t) : id.block < 2 ^ 64 ∧ id.tx < 2 ^ 32 := by
  obtain ⟨e, -, h⟩ := List.mem_flatMap.mp h
  split at h
  · obtain ⟨x, -, h⟩ := List.mem_flatMap.mp h
    unfold Compressor.reduceTx at h
    split at h
    · cases h
    · split at h
      · cases h
      · obtain ⟨c, -, h⟩ := List.mem_filterMap.mp h
        exact tryFrom_lt (Option.filter_eq_some_iff.mp h).1
  · cases h

/-- **The store knows the dunes.**  Names, etchings and reported claims stand in it as the node has them, and every dune
on an unspent output has its etching. -/
theorem dunes_indexed (checks : Bool) (h : Feeds env.deps cfg C n chain) (hC : ∀ n call, C n call → call.height < 2 ^ 32)
    (hnodup : parts.Nodup) (hrange : ∀ p ∈ parts, p.InRange env chain) :
    Indexes env checks parts chain fun store =>
      (.etching .runeIdByRuneName ∈ parts → ∀ name v, store.get (runeIdByRuneNameKey env.ns name) = some v ↔
        ∃ id, n.db.tables.dunes.idByName.get name = some id ∧ v = runeIdByRuneNameValue id) ∧
      (.etching .etchingByRuneId ∈ parts →
        (∀ id : DuneId, id.block < 2 ^ 64 ∧ id.tx < 2 ^ 32 → ∀ v, store.get (etchingByRuneIdKey env.ns id) = some v ↔
          EtchingStored env.deps n.db.tables id v) ∧
        ∀ ref body, n.db.tables.txos.get ref = some body → ∀ e ∈ body.dunes,
          ∃ v, store.get (etchingByRuneIdKey env.ns e.1) = some v) ∧
      (.mintsByRuneId ∈ parts → ∀ id : DuneId, id.block < 2 ^ 64 ∧ id.tx < 2 ^ 32 →
        counterValue 16 (store.get (mintsByRuneIdKey env.ns id)) = (reportedMints env.deps n.db.tables).count id) := by
  obtain ⟨hnamed, hetched⟩ := h.reach.etched hC
  refine (h.indexes checks hnodup hrange).imp fun store hleft => ⟨fun hp name v => ?_, fun hp => ?_, fun hp id hid => ?_⟩
  · have hread : store.get (runeIdByRuneNameKey env.ns name) = Ledger.reading (runeIdByRuneNameKey env.ns name) none
        (Ledger.assignments (chain.flatMap (nameEntries env.deps env.ns))) :=
      hleft.written hp rfl (List.prefix_append _ _)
    rw [hread]
    exact h.sent.names_read hnamed hetched h.received name v
  · have hread : ∀ id : DuneId, id.block < 2 ^ 64 ∧ id.tx < 2 ^ 32 → ∀ v,
        store.get (etchingByRuneIdKey env.ns id) = some v ↔ EtchingStored env.deps n.db.tables id v := by
      intro id hid v
      have hread : store.get (etchingByRuneIdKey env.ns id) = Ledger.reading (etchingByRuneIdKey env.ns id) none
          (Ledger.assignments (chain.flatMap (etchingEntries env.deps env.ns))) :=
        hleft.written hp rfl (List.prefix_append _ _)
      rw [hread]
      exact h.sent.etchings_read hetched h.received hid.1 hid.2 v
    refine ⟨hread, fun ref body hbody e he => ?_⟩
    obtain ⟨hid, hsome⟩ := hetched.known ref body hbody e he
    obtain ⟨terms, hterms⟩ := Option.isSome_iff_exists.mp hsome
    obtain ⟨name, tx, dunestone, -, hstored, ⟨hdunestone, hetching⟩, heq⟩ := (hetched.entered _ _).mp hterms
    obtain ⟨etch, hetch⟩ := Option.isSome_iff_exists.mp hetching
    refine ⟨_, (hread e.1 (tryFrom_lt hid) _).mpr ⟨terms, tx, dunestone, etch, hterms, hstored, hdunestone, hetch, ?_, rfl⟩⟩
    rw [heq, Compressor.entryTerms_name]
  · have hcount : counterValue 16 (store.get (mintsByRuneIdKey env.ns id)) =
        (chain.flatMap (minted env.deps)).countP fun id' => decide (mintsByRuneIdKey env.ns id' = mintsByRuneIdKey env.ns id) :=
      hleft.counter hp (List.prefix_append _ _) (fun _ _ hsame => hsame) fun o ho => ho
    rw [hcount, h.minted_eq env.deps, List.count_eq_countP]
    refine List.countP_congr fun id' hid' => ?_
    rw [decide_eq_true_iff, beq_iff_eq]
    obtain ⟨hblock, htx⟩ := reportedMints_lt hid'
    exact ⟨fun hkey => mintsByRuneIdKey_inj hblock hid.1 htx hid.2 hkey, fun heq => by rw [heq]⟩

open Sample in
/-- A dune under the first reserved name, which is minted once. -/
theorem dunes_indexed_dune :
    Indexes dogecoin true [.etching .runeIdByRuneName, .etching .etchingByRuneId, .mintsByRuneId]
      (receive duneNode.db.tables) fun store =>
        store.get (runeIdByRuneNameKey dogecoin.ns (Compressor.Dune.reserved 0)) = some (runeIdByRuneNameValue ⟨1, 1⟩) ∧
        (∃ v, store.get (etchingByRuneIdKey dogecoin.ns ⟨1, 1⟩) = some v) ∧
        counterValue 16 (store.get (mintsByRuneIdKey dogecoin.ns ⟨1, 1⟩)) = 1 := by
  have hsome : (Compressor.runCalls Compressor.duneScripts Compressor.fromFirstBlock (Node.open_ true)
      (Compressor.etchedAndMinted Compressor.etchScript)).isSome = true := by
    decide +kernel
  have hfeeds : Feeds dogecoin.deps Compressor.fromFirstBlock (fun _ call => call.height < 2 ^ 32) duneNode
      (receive duneNode.db.tables) :=
    .receive ((Compressor.Run.ofCalls hsome).reach _ (by decide +kernel) (by decide +kernel))
  have hminted : ((receive duneNode.db.tables).flatMap (minted dogecoin.deps)).length < 2 ^ 128 := by
    decide +kernel
  have hrange : ∀ p ∈ [.etching .runeIdByRuneName, .etching .etchingByRuneId, ConfiguredReducer.mintsByRuneId],
      p.InRange dogecoin (receive duneNode.db.tables) :=
    List.forall_mem_cons.mpr ⟨ConfiguredReducer.inRange_of_writes rfl, List.forall_mem_cons.mpr
      ⟨ConfiguredReducer.inRange_of_writes rfl, List.forall_mem_singleton.mpr (ConfiguredReducer.inRange_of_minted hminted)⟩⟩
  have hindexed := dunes_indexed true hfeeds (fun _ _ hlt => hlt) (by decide) hrange
  refine hindexed.imp fun store ⟨hnames, hetchings, hmints⟩ => ⟨?_, ?_, ?_⟩
  · exact (hnames (by decide) _ _).mpr ⟨⟨1, 1⟩, by decide +kernel, rfl⟩
  · have hheld : (duneNode.db.tables.txos.get ⟨12, 1⟩).map (fun body => body.dunes) = some [(⟨1, 1⟩, 7)] := by
      decide +kernel
    obtain ⟨body, hbody, hdunes⟩ := Option.map_eq_some_iff.mp hheld
    exact (hetchings (by decide)).2 _ body hbody (⟨1, 1⟩, 7) (by rw [hdunes]; exact List.mem_singleton_self _)
  · rw [hmints (by decide) ⟨1, 1⟩ (by decide)]
    decide +kernel

end

end DogeIndexer.Polyphony.Reducers
