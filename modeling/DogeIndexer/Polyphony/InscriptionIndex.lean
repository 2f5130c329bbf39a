import DogeIndexer.Polyphony.UtxoIndex

/-!
# The inscriptions of a script

The keys of `InscriptionsByScriptHash` do not name the output that carries the inscription.  A
block is processed in the order of its transactions, so that the coinbase is written before the
other transactions delete what they spend, although what they pay as fees reaches it last.

* `chronological` — the events of a block in the order in which inscriptions move.
* `along_single` — one output at a time contributes to a key, in the order of processing.
* `inscription_index_matches` — the index lists the inscriptions held, over every chain and in any
  batching, while no inscription is paid as a fee from a script to itself.
* `fee_to_own_script_lost` — one that is.
-/

set_option autoImplicit false

namespace DogeIndexer.Polyphony.Reducers

open Compressor (Bytes U32 Txid ScriptHash OutPoint TxOut DuneId InscriptionId Transaction Block)
open Timbre (Namespace Ty)

/-! ## Where inscriptions are -/

/-- Each inscription is on one output, at one offset. -/
def InscribedOnce (t : Unspent) : Prop :=
  ∀ ref u ref' u', t.get ref = some u → t.get ref' = some u' →
    ∀ e ∈ u.inscriptions, ∀ e' ∈ u'.inscriptions, e.2 = e'.2 → ref = ref' ∧ e = e'

instance (t : Unspent) : Decidable (InscribedOnce t) :=
  decidable_of_iff (∀ x ∈ t.entries, ∀ y ∈ t.entries, ∀ e ∈ x.2.inscriptions, ∀ e' ∈ y.2.inscriptions,
      e.2 = e'.2 → x.1 = y.1 ∧ e = e') (by
    constructor
    · intro h ref u ref' u' hget hget'
      exact h (ref, u) (Table.mem_entries.mpr hget) (ref', u') (Table.mem_entries.mpr hget')
    · intro h x hx y hy
      exact h x.1 x.2 y.1 y.2 (Table.mem_entries.mp hx) (Table.mem_entries.mp hy))

namespace EnrichedBlock

variable (b : EnrichedBlock)

def coinbaseEvents : List Event := (b.block.txdata.take 1).flatMap b.txEvents

def restEvents : List Event := (b.block.txdata.drop 1).flatMap b.txEvents

/-- The events of a block in the order in which inscriptions move: the coinbase receives what the other transactions
pay as fees. -/
def chronological : List Event := b.restEvents ++ b.coinbaseEvents

/-- What the context says of inscriptions: a coinbase is not spent in its own block, and each inscription is in one
place at a time. -/
structure Inscribed (t : Unspent) : Prop where
  spends : Ledger.Valid t b.chronological
  once : Ledger.Along InscribedOnce t b.chronological

instance (t : Unspent) : Decidable (b.Inscribed t) :=
  decidable_of_iff (Ledger.Valid t b.chronological ∧ Ledger.Along InscribedOnce t b.chronological)
    ⟨fun h => ⟨h.1, h.2⟩, fun h => ⟨h.spends, h.once⟩⟩

/-- No inscription that reaches the coinbase was spent by the block from an output of the same script. -/
def FeesMove (scriptHash : Bytes → ScriptHash) : Prop :=
  ∀ cb ∈ b.block.txdata.take 1, ∀ x ∈ b.producedBy cb, ∀ tx ∈ b.block.txdata.drop 1, ∀ y ∈ b.consumedBy tx,
    ∀ e ∈ x.2.inscriptions, ∀ e' ∈ y.2.inscriptions, e.2 = e'.2 → x.2.owner scriptHash ≠ y.2.owner scriptHash

instance (scriptHash : Bytes → ScriptHash) : Decidable (b.FeesMove scriptHash) := by
  unfold FeesMove
  infer_instance

end EnrichedBlock

/-- Every block of a chain finds its inscriptions in one place. -/
def InscribedChain : Unspent → List EnrichedBlock → Prop
  | _, [] => True
  | t, b :: chain => b.Inscribed t ∧ InscribedChain (Ledger.run t b.events) chain

instance decidableInscribedChain : (t : Unspent) → (chain : List EnrichedBlock) → Decidable (InscribedChain t chain)
  | _, [] => isTrue trivial
  | t, b :: chain =>
    have := decidableInscribedChain (Ledger.run t b.events) chain
    inferInstanceAs (Decidable (_ ∧ _))

/-! ## One output at a time -/

section

variable {scriptHash : Bytes → ScriptHash} {ns : Namespace}

theorem inscriptionsByScriptHashKey_inj {owner owner' : ScriptHash} {id id' : InscriptionId}
    (hid : id.index < 2 ^ 32) (hid' : id'.index < 2 ^ 32)
    (h : inscriptionsByScriptHashKey ns owner id = inscriptionsByScriptHashKey ns owner' id') :
    owner = owner' ∧ id = id' := by
  have hkey := dataKey_inj (by simp [Timbre.schema]) rfl h
  obtain ⟨howner, hrest⟩ := fields_inj hkey
  obtain ⟨htxid, hindex⟩ := fields_inj hrest
  obtain ⟨txid, index⟩ := id
  obtain ⟨txid', index'⟩ := id'
  cases array32_inj htxid
  cases uint_inj (w := 4) hid hid' hindex
  exact ⟨array20_inj howner, rfl⟩

theorem mem_inscriptionEntries {ref : OutPoint} {u : Utxo} {k : Key} {v : Value} :
    (k, v) ∈ inscriptionEntries scriptHash ns ref u ↔ ∃ e ∈ u.inscriptions,
      k = inscriptionsByScriptHashKey ns (u.owner scriptHash) e.2 ∧
        v = inscriptionsByScriptHashValue u.height ref e.1 := by
  unfold inscriptionEntries
  rw [List.mem_map]
  constructor
  · rintro ⟨e, he, heq⟩
    cases heq
    exact ⟨e, he, rfl, rfl⟩
  · rintro ⟨e, he, rfl, rfl⟩
    exact ⟨e, he, rfl⟩

variable {b : EnrichedBlock} {t : Unspent}

namespace EnrichedBlock

theorem events_eq (b : EnrichedBlock) : b.events = b.coinbaseEvents ++ b.restEvents := by
  unfold events coinbaseEvents restEvents
  rw [← List.flatMap_append, List.take_append_drop]

/-- The coinbase spends nothing. -/
theorem Valid.coinbaseEvents_spend (h : b.Valid t) (ref : OutPoint) (u : Utxo) :
    Ledger.Event.spend ref u ∉ b.coinbaseEvents := by
  intro hmem
  obtain ⟨tx, htx, hin⟩ := List.mem_flatMap.mp hmem
  have hcb : isCoinbase tx = true := by
    cases hdata : b.block.txdata with
    | nil =>
      rw [hdata] at htx
      cases htx
    | cons coinbase txs =>
      rw [hdata, List.take_succ_cons, List.take_zero, List.mem_singleton] at htx
      rw [htx]
      exact isCoinbase_of_inputs (h.coinbase.not_null hdata).1
  unfold txEvents consumedBy at hin
  rw [if_pos hcb, List.map_nil, List.nil_append] at hin
  obtain ⟨x, -, heq⟩ := List.mem_map.mp hin
  cases heq

theorem mem_coinbaseEvents_produce {ref : OutPoint} {u : Utxo} (h : Ledger.Event.produce ref u ∈ b.coinbaseEvents) :
    ∃ cb ∈ b.block.txdata.take 1, (ref, u) ∈ b.producedBy cb := by
  obtain ⟨cb, hcb, hin⟩ := List.mem_flatMap.mp h
  refine ⟨cb, hcb, ?_⟩
  rcases List.mem_append.mp hin with hin | hin
  · obtain ⟨x, -, heq⟩ := List.mem_map.mp hin
    cases heq
  · obtain ⟨x, hx, heq⟩ := List.mem_map.mp hin
    cases heq
    exact hx

theorem mem_restEvents_spend {ref : OutPoint} {u : Utxo} (h : Ledger.Event.spend ref u ∈ b.restEvents) :
    ∃ tx ∈ b.block.txdata.drop 1, (ref, u) ∈ b.consumedBy tx := by
  obtain ⟨tx, htx, hin⟩ := List.mem_flatMap.mp h
  refine ⟨tx, htx, ?_⟩
  rcases List.mem_append.mp hin with hin | hin
  · obtain ⟨x, hx, heq⟩ := List.mem_map.mp hin
    cases heq
    exact hx
  · obtain ⟨x, -, heq⟩ := List.mem_map.mp hin
    cases heq

/-- While a block is processed, an output is one of the coinbase or one that an earlier moment of the chronological
order knows. -/
theorem get_processed {done rest : List Event} (h : b.events = done ++ rest) :
    ∃ before after, b.restEvents = before ++ after ∧ ∀ ref u, (Ledger.run t done).get ref = some u →
      (Ledger.run t before).get ref = some u ∨ Ledger.Event.produce ref u ∈ b.coinbaseEvents := by
  rw [events_eq] at h
  rcases List.append_eq_append_iff.mp h with ⟨before, hdone, hrest⟩ | ⟨tail, hcb, -⟩
  · refine ⟨before, rest, hrest, ?_⟩
    rw [hdone, Ledger.run_append]
    exact Ledger.get_run_imp (fun ref u hget => Ledger.get_run_cases hget) before
  · refine ⟨[], b.restEvents, rfl, fun ref u hget => ?_⟩
    rw [hcb]
    exact (Ledger.get_run_cases hget).imp id fun hmem => List.mem_append_left _ hmem

/-- An inscription of the coinbase that another output of the same script carries was paid from that script. -/
theorem Inscribed.not_both (hvalid : b.Valid t) (h : b.Inscribed t) (hfees : b.FeesMove scriptHash)
    {before after : List Event} (hrest : b.restEvents = before ++ after) {ref ref' : OutPoint} {u u' : Utxo}
    (hget : (Ledger.run t before).get ref = some u) (hmem : Ledger.Event.produce ref' u' ∈ b.coinbaseEvents)
    {e e' : U32 × InscriptionId} (he : e ∈ u.inscriptions) (he' : e' ∈ u'.inscriptions) (hid : e.2 = e'.2)
    (howner : u.owner scriptHash = u'.owner scriptHash) : False := by
  obtain ⟨hvrest, hvcb⟩ := Ledger.valid_append.mp h.spends
  have hvafter : Ledger.Valid (Ledger.run t before) after := by
    rw [hrest] at hvrest
    exact (Ledger.valid_append.mp hvrest).2
  rcases Ledger.get_run_or_spent hvafter hget with hstays | hspent
  · -- both are unspent after the block
    rw [← Ledger.run_append, ← hrest] at hstays
    have hlast : (Ledger.run t b.chronological).get ref = some u := by
      rw [chronological, Ledger.run_append]
      exact (Ledger.get_run_or_spent hvcb hstays).resolve_right (hvalid.coinbaseEvents_spend ref u)
    have hlast' : (Ledger.run t b.chronological).get ref' = some u' := by
      rw [chronological, Ledger.run_append]
      exact Ledger.get_run_of_produced hvcb hmem (hvalid.coinbaseEvents_spend ref' u')
    have hsame := (h.once.last ref u ref' u' hlast hlast' e he e' he' hid).1
    subst hsame
    obtain ⟨l₁, l₂, hsplit⟩ := List.append_of_mem hmem
    rw [hsplit] at hvcb
    -- the coinbase produces under a free reference
    have hfree : (Ledger.run (Ledger.run t b.restEvents) l₁).get ref = none := (Ledger.valid_append.mp hvcb).2.1
    have hthere : (Ledger.run (Ledger.run t b.restEvents) l₁).get ref = some u := by
      refine (Ledger.get_run_or_spent (Ledger.valid_append.mp hvcb).1 hstays).resolve_right fun hspend => ?_
      exact hvalid.coinbaseEvents_spend ref u (by rw [hsplit]; exact List.mem_append_left _ hspend)
    rw [hthere] at hfree
    cases hfree
  · obtain ⟨cb, hcb, hx⟩ := mem_coinbaseEvents_produce hmem
    obtain ⟨tx, htx, hy⟩ := mem_restEvents_spend (by rw [hrest]; exact List.mem_append_right _ hspent)
    exact hfees cb hcb _ hx tx htx _ hy e' he' e he hid.symm howner.symm

/-- **One output at a time contributes to a key**, in the order of processing. -/
theorem Inscribed.along_single (hvalid : b.Valid t) (h : b.Inscribed t) (hfees : b.FeesMove scriptHash)
    (ht : Ledger.Along (fun t => ∀ ref u, t.get ref = some u → Utxo.WellFormed ref u) t b.events) (k : Key) :
    Ledger.Along (Ledger.Single (inscriptionEntries scriptHash ns) k) t b.events := by
  rw [Ledger.along_iff]
  intro done rest hsplit ref u v ref' u' v' hget hk hget' hk'
  have hwf := Ledger.along_iff.mp ht done rest hsplit
  obtain ⟨e, he, hkey, rfl⟩ := mem_inscriptionEntries.mp hk
  obtain ⟨e', he', hkey', rfl⟩ := mem_inscriptionEntries.mp hk'
  obtain ⟨howner, hid⟩ := inscriptionsByScriptHashKey_inj ((hwf ref u hget).inscription e he)
    ((hwf ref' u' hget').inscription e' he') (hkey.symm.trans hkey')
  have hboth : ref = ref' ∧ e = e' := by
    obtain ⟨before, after, hrest, hcases⟩ := get_processed (t := t) hsplit
    rcases hcases ref u hget with hold | hnew
    · rcases hcases ref' u' hget' with hold' | hnew'
      · have honce : InscribedOnce (Ledger.run t before) :=
          Ledger.along_iff.mp h.once before (after ++ b.coinbaseEvents)
            (by rw [chronological, hrest, List.append_assoc])
        exact honce ref u ref' u' hold hold' e he e' he' hid
      · exact (h.not_both hvalid hfees hrest hold hnew' he he' hid howner).elim
    · rcases hcases ref' u' hget' with hold' | hnew'
      · exact (h.not_both hvalid hfees hrest hold' hnew he' he hid.symm howner.symm).elim
      · have hlast : ∀ {ref u}, Ledger.Event.produce ref u ∈ b.coinbaseEvents →
            (Ledger.run t b.chronological).get ref = some u := by
          intro ref u hmem
          rw [chronological, Ledger.run_append]
          exact Ledger.get_run_of_produced (Ledger.valid_append.mp h.spends).2 hmem
            (hvalid.coinbaseEvents_spend ref u)
        exact h.once.last ref u ref' u' (hlast hnew) (hlast hnew') e he e' he' hid
  obtain ⟨rfl, rfl⟩ := hboth
  rw [hget] at hget'
  cases hget'
  exact ⟨rfl, rfl⟩

end EnrichedBlock

/-- The blocks of a chain, one after another. -/
theorem ValidChain.along_single {chain : List EnrichedBlock} (hchain : ValidChain t chain)
    (h : InscribedChain t chain) (hfees : ∀ b ∈ chain, b.FeesMove scriptHash)
    (ht : Ledger.Along (fun t => ∀ ref u, t.get ref = some u → Utxo.WellFormed ref u) t
      (chain.flatMap EnrichedBlock.events)) (hsingle : ∀ k, Ledger.Single (inscriptionEntries scriptHash ns) k t)
    (k : Key) :
    Ledger.Along (Ledger.Single (inscriptionEntries scriptHash ns) k) t (chain.flatMap EnrichedBlock.events) := by
  induction chain generalizing t with
  | nil => exact hsingle k
  | cons b chain ih =>
    rw [List.flatMap_cons, Ledger.along_append] at ht ⊢
    have hblock : ∀ k, Ledger.Along (Ledger.Single (inscriptionEntries scriptHash ns) k) t b.events :=
      h.1.along_single hchain.1 (hfees b List.mem_cons_self) ht.1
    exact ⟨hblock k, ih hchain.2 h.2 (fun b' hb' => hfees b' (List.mem_cons_of_mem _ hb')) ht.2 fun k =>
      (hblock k).last⟩

/-- A script hash and an inscription are a key exactly when an unspent output of the script carries the inscription,
and the value is the output's height, its reference and the offset.  There are no other keys. -/
structure InscriptionIndexMatches (scriptHash : Bytes → ScriptHash) (ns : Namespace) (unspent : Unspent)
    (store : Store) : Prop where
  held : ∀ (owner : ScriptHash) (id : InscriptionId) (v : Value), id.index < 2 ^ 32 →
    (store.get (inscriptionsByScriptHashKey ns owner id) = some v ↔ ∃ ref u offset,
      unspent.get ref = some u ∧ u.owner scriptHash = owner ∧ (offset, id) ∈ u.inscriptions ∧
        v = inscriptionsByScriptHashValue u.height ref offset)
  keys : ∀ k v, ns.dataPrefix .inscriptionsByScriptHash <+: k → store.get k = some v →
    ∃ owner id, id.index < 2 ^ 32 ∧ k = inscriptionsByScriptHashKey ns owner id

/-- **The index of inscriptions matches the chain**, under every configuration that has the reducer, over every chain
of valid blocks and in any batching, as long as no inscription is paid as a fee from a script to itself. -/
theorem inscription_index_matches (scriptHash : Bytes → ScriptHash) (ns : Namespace) (checks : Bool)
    (policy : RuntimePolicy) {reducers : List Reducer} (hnodup : reducers.Nodup)
    (hinscriptions : .inscriptionsByScriptHash ∈ reducers) {chain : List EnrichedBlock}
    (hchain : ValidChain Table.empty chain) (hinscribed : InscribedChain Table.empty chain)
    (hfees : ∀ b ∈ chain, b.FeesMove scriptHash)
    (hrange : ∀ r ∈ reducers, Ledger.Along (r.InRange scriptHash) Table.empty (chain.flatMap EnrichedBlock.events)) :
    ∃ blocks, chain.mapM (blockActions scriptHash policy ns reducers) = some blocks ∧
      ∀ batches : List (HashOrder × List (List StorageAction)), (batches.map Prod.snd).flatten = blocks →
        ∃ store, executeBatches checks Table.empty batches = some store ∧
          InscriptionIndexMatches scriptHash ns (unspentAfter chain) store := by
  obtain ⟨blocks, hblocks, hcommit⟩ := reduced_and_committed ns checks policy hchain hnodup hrange
  refine ⟨blocks, hblocks, fun batches hbatches => ?_⟩
  obtain ⟨store, hstore, hleaves⟩ := hcommit batches hbatches
  have hentries : ∀ k v, ns.dataPrefix .inscriptionsByScriptHash <+: k →
      (store.get k = some v ↔ Ledger.Lists (inscriptionEntries scriptHash ns) (unspentAfter chain) k v) := by
    intro k v hk
    obtain ⟨o, ho, hsame⟩ := hleaves .inscriptionsByScriptHash hinscriptions k hk
    have hempty : ∀ k, Ledger.Single (inscriptionEntries scriptHash ns) k Table.empty := by
      intro k ref u v ref' u' v' hget
      cases hget
    have hsingle := hchain.along_single hinscribed hfees hchain.wellFormed hempty k
    rw [show store.get k = o from hsame]
    exact ho hsingle v
  refine ⟨store, hstore, fun owner id v hid => ?_, fun k v hk hget => ?_⟩
  · refine (hentries (inscriptionsByScriptHashKey ns owner id) v (List.prefix_append _ _)).trans ?_
    constructor
    · rintro ⟨ref, u, hget, hmem⟩
      obtain ⟨e, he, hkey, hv⟩ := mem_inscriptionEntries.mp hmem
      obtain ⟨howner, hsame⟩ := inscriptionsByScriptHashKey_inj hid
        ((hchain.unspent_wellFormed hget).inscription e he) hkey
      exact ⟨ref, u, e.1, hget, howner.symm, by rw [hsame]; exact he, hv⟩
    · rintro ⟨ref, u, offset, hget, rfl, hmem, hv⟩
      exact ⟨ref, u, hget, mem_inscriptionEntries.mpr ⟨(offset, id), hmem, rfl, hv⟩⟩
  · obtain ⟨ref, u, hget, hmem⟩ := (hentries k v hk).mp hget
    obtain ⟨e, he, hkey, -⟩ := mem_inscriptionEntries.mp hmem
    exact ⟨u.owner scriptHash, e.2, (hchain.unspent_wellFormed hget).inscription e he, hkey⟩

end

/-! ## Fees -/

namespace Sample

/-- An inscription is revealed on an output of script 1. -/
def revealed : EnrichedBlock where
  point := ⟨2, 2⟩
  block := ⟨2, 1, [coinbase 2 [⟨50, [3]⟩], ⟨3, [⟨⟨1, 0⟩, []⟩], [⟨20, [1]⟩, ⟨30, [2]⟩]⟩]⟩
  ctx := (BlockContext.new.insertTxo ⟨1, 0⟩ ⟨1, ⟨50, [1]⟩⟩).insertInscriptions ⟨3, 0⟩ [(0, ⟨3, 0⟩)]
  now := 1

/-- The inscription is paid as a fee to a coinbase with an output of the given script. -/
def paid (script : Bytes) : EnrichedBlock where
  point := ⟨3, 3⟩
  block := ⟨3, 2, [coinbase 4 [⟨70, script⟩], ⟨5, [⟨⟨3, 1⟩, []⟩, ⟨⟨3, 0⟩, []⟩], [⟨30, [2]⟩]⟩]⟩
  ctx := (((BlockContext.new.insertTxo ⟨3, 0⟩ ⟨2, ⟨20, [1]⟩⟩).insertTxo ⟨3, 1⟩ ⟨2, ⟨30, [2]⟩⟩).insertInscriptions ⟨3, 0⟩
    [(0, ⟨3, 0⟩)]).insertInscriptions ⟨4, 0⟩ [(50, ⟨3, 0⟩)]
  now := 2

end Sample

open Sample in
/-- The fee goes to script 3, in any batching. -/
theorem inscription_index_matches_fee :
    ValidChain Table.empty [first, revealed, paid [3]] ∧ InscribedChain Table.empty [first, revealed, paid [3]] ∧
      ∃ blocks, [first, revealed, paid [3]].mapM (blockActions scriptHash policy ns [.inscriptionsByScriptHash]) =
          some blocks ∧
        ∀ batches : List (HashOrder × List (List StorageAction)), (batches.map Prod.snd).flatten = blocks →
          ∃ store, executeBatches true Table.empty batches = some store ∧
            InscriptionIndexMatches scriptHash ns (unspentAfter [first, revealed, paid [3]]) store := by
  have hchain : ValidChain Table.empty [first, revealed, paid [3]] := by decide +kernel
  have hinscribed : InscribedChain Table.empty [first, revealed, paid [3]] := by decide +kernel
  have hfees : ∀ b ∈ [first, revealed, paid [3]], b.FeesMove scriptHash := by
    intro b hb
    simp only [List.mem_cons, List.not_mem_nil, or_false] at hb
    rcases hb with rfl | rfl | rfl <;> decide +kernel
  refine ⟨hchain, hinscribed, inscription_index_matches scriptHash ns true policy (by decide) (by decide) hchain
    hinscribed hfees fun r hr => ?_⟩
  have hall : Ledger.Along (fun _ : Unspent => True) Table.empty
      ([first, revealed, paid [3]].flatMap EnrichedBlock.events) := by
    decide +kernel
  rw [List.mem_singleton.mp hr]
  exact hall

open Sample in
/-- The fee goes back to script 1: the coinbase holds the inscription, and the index does not list it. -/
theorem fee_to_own_script_lost :
    ValidChain Table.empty [first, revealed, paid [1]] ∧ InscribedChain Table.empty [first, revealed, paid [1]] ∧
      ∃ blocks store, [first, revealed, paid [1]].mapM (blockActions scriptHash policy ns
          [.inscriptionsByScriptHash]) = some blocks ∧
        executeBatches true Table.empty [(.listed, blocks)] = some store ∧
        store.get (inscriptionsByScriptHashKey ns 1 ⟨3, 0⟩) = none ∧
        ¬ InscriptionIndexMatches scriptHash ns (unspentAfter [first, revealed, paid [1]]) store := by
  have hrun : ([first, revealed, paid [1]].mapM (blockActions scriptHash policy ns
      [.inscriptionsByScriptHash])).bind (fun blocks => (executeBatches true Table.empty [(.listed, blocks)]).map
        fun store => store.get (inscriptionsByScriptHashKey ns 1 ⟨3, 0⟩)) = some none := by
    decide +kernel
  obtain ⟨blocks, hblocks, hstore⟩ := Option.bind_eq_some_iff.mp hrun
  obtain ⟨store, hstore, hread⟩ := Option.map_eq_some_iff.mp hstore
  refine ⟨by decide +kernel, by decide +kernel, blocks, store, hblocks, hstore, hread, fun hmatches => ?_⟩
  have hheld := (hmatches.held 1 ⟨3, 0⟩ (inscriptionsByScriptHashValue 3 ⟨4, 0⟩ 50) (by decide)).mpr
    ⟨⟨4, 0⟩, (paid [1]).described ⟨4, 0⟩ 3 ⟨70, [1]⟩, 50, by decide +kernel⟩
  rw [hread] at hheld
  cases hheld

end DogeIndexer.Polyphony.Reducers
