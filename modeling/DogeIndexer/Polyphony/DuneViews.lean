import DogeIndexer.Polyphony.UtxoIndex

/-!
# The holders of dunes

`BalancesByRuneId`, `RuneBalancesByScriptHash` and the entries of `UtxosByRuneId` say the same of
what a script holds of a dune.  Two reducers count every output, the third leaves out what a block
produces and spends; the first writes a dune id as two `VarUInt`s, the others in fixed widths.

* `storedRunes_eq` — the entries of `UtxosByRuneId` add up to what is held.
* `dune_views_agree` — the three views, over every chain and in any batching, while a counter of
  128 bits can say what a script holds.
* `dune_balance_wraps` — a script that holds more.
-/

set_option autoImplicit false

namespace DogeIndexer.Polyphony.Reducers

open Compressor (Bytes U32 Txid ScriptHash OutPoint TxOut DuneId InscriptionId Transaction Block)
open Timbre (Namespace Ty)

/-! ## Reading the entries -/

/-- The dune in a key of `UtxosByRuneId`. -/
def runeOf (key : Timbre.UtxosByRuneId.key.Val) : Fin (256 ^ 8) × Fin (256 ^ 4) :=
  (key : (Fin (256 ^ 8) × Fin (256 ^ 4)) × (Fin (256 ^ 8) × (Ty.array 32).Val × Fin (256 ^ 4))).1

/-- The script hash in a value of `UtxosByRuneId`. -/
def holderOf (value : Timbre.UtxosByRuneId.value.Val) : (Ty.array 20).Val :=
  (value : (Ty.array 20).Val × (Fin (256 ^ 16) × Fin (256 ^ 8))).1

/-- The `rune_quantity` of a value of `UtxosByRuneId`. -/
def quantityOf (value : Timbre.UtxosByRuneId.value.Val) : Nat :=
  (value : (Ty.array 20).Val × (Fin (256 ^ 16) × Fin (256 ^ 8))).2.1.val

/-- The sum of the entries of `UtxosByRuneId` for a dune that are a script's. -/
def storedRunes (ns : Namespace) (id : DuneId) (owner : ScriptHash) (store : Store) : Nat :=
  (((storedEntries ns .utxosByRuneId Timbre.UtxosByRuneId.key Timbre.UtxosByRuneId.value store).filter
    fun e => runeOf e.1 = (uint 8 id.block, uint 4 id.tx) ∧ holderOf e.2 = array20 owner).map
      fun e => quantityOf e.2).sum

theorem sum_flatMap_filter_map {α β : Type} (p : β → Bool) (f : β → Nat) (g : α → List β) (l : List α) :
    (((l.flatMap g).filter p).map f).sum = (l.map fun a => (((g a).filter p).map f).sum).sum := by
  induction l with
  | nil => rfl
  | cons a l ih =>
    rw [List.flatMap_cons, List.filter_append, List.map_append, List.sum_append, ih, List.map_cons, List.sum_cons]

section

variable {scriptHash : Bytes → ScriptHash} {ns : Namespace} {chain : List EnrichedBlock} {store : Store}

/-- The entries of an output, as values of the stored types. -/
def runeEntry (scriptHash : Bytes → ScriptHash) (ref : OutPoint) (u : Utxo) (e : DuneId × U128) :
    Timbre.UtxosByRuneId.key.Val × Timbre.UtxosByRuneId.value.Val :=
  (((uint 8 e.1.block, uint 4 e.1.tx), uint 8 u.height, array32 ref.txid, uint 4 ref.vout),
    (array20 (u.owner scriptHash), uint 16 e.2.val, uint 8 u.txo.value.val))

theorem runeOf_runeEntry {ref : OutPoint} {u : Utxo} (hu : u.WellFormed ref) {e : DuneId × U128} (he : e ∈ u.runes)
    {id : DuneId} (hid : id.block < 2 ^ 64 ∧ id.tx < 2 ^ 32) :
    runeOf (runeEntry scriptHash ref u e).1 = (uint 8 id.block, uint 4 id.tx) ↔ e.1 = id := by
  constructor
  · intro h
    obtain ⟨hblock, htx⟩ := fields_inj h
    exact runeId_inj (w := 8) (hu.dune e he) hid hblock htx
  · intro h
    rw [← h]
    rfl

/-- The keys of an output's entries name the dune and the output. -/
theorem runeEntry_inj {ref ref' : OutPoint} {u u' : Utxo} (hu : u.WellFormed ref) (hu' : u'.WellFormed ref')
    {e e' : DuneId × U128} (he : e ∈ u.runes) (he' : e' ∈ u'.runes)
    (h : (runeEntry scriptHash ref u e).1 = (runeEntry scriptHash ref' u' e').1) : e.1 = e'.1 ∧ ref = ref' := by
  obtain ⟨hrune, hrest⟩ := fields_inj h
  obtain ⟨hblock, htx⟩ := fields_inj hrune
  obtain ⟨-, hrest⟩ := fields_inj hrest
  obtain ⟨htxid, hvout⟩ := fields_inj hrest
  exact ⟨runeId_inj (w := 8) (hu.dune e he) (hu'.dune e' he') hblock htx, outpoint_inj hu.vout hu'.vout htxid hvout⟩

theorem runeEntries_nodup {t : Unspent} (ht : ∀ ref u, t.get ref = some u → u.WellFormed ref) :
    ((t.entries.flatMap fun e => e.2.runes.map (runeEntry scriptHash e.1 e.2)).map Prod.fst).Nodup := by
  rw [List.map_flatMap, List.nodup_flatMap]
  constructor
  · intro e he
    have hu := ht e.1 e.2 (Table.mem_entries.mp he)
    rw [List.map_map]
    refine List.Nodup.map_on (fun x hx x' hx' heq => ?_) hu.dunes.of_map
    exact List.inj_on_of_nodup_map hu.dunes hx hx' (runeEntry_inj hu hu hx hx' heq).1
  · have hrefs : t.entries.Pairwise fun e e' => e ∈ t.entries ∧ e' ∈ t.entries ∧ e.1 ≠ e'.1 :=
      (List.pairwise_map.mp t.keys_nodup).imp_of_mem fun hmem hmem' hne => ⟨hmem, hmem', hne⟩
    refine hrefs.imp fun {e e'} h => ?_
    obtain ⟨he, he', hne⟩ := h
    have hu := ht e.1 e.2 (Table.mem_entries.mp he)
    have hu' := ht e'.1 e'.2 (Table.mem_entries.mp he')
    intro k hk hk'
    obtain ⟨x, hx, rfl⟩ := List.mem_map.mp hk
    obtain ⟨y, hy, rfl⟩ := List.mem_map.mp hx
    obtain ⟨x', hx', heq⟩ := List.mem_map.mp hk'
    obtain ⟨y', hy', rfl⟩ := List.mem_map.mp hx'
    exact hne (runeEntry_inj hu hu' hy hy' heq.symm).2

/-- The sum of a dune's entries is what the script holds of it. -/
theorem storedRunes_eq (hchain : ValidChain Table.empty chain)
    (hstore : ∀ k v, ns.dataPrefix .utxosByRuneId <+: k →
      (store.get k = some v ↔ Ledger.Lists (runeUtxoEntries scriptHash ns) (unspentAfter chain) k v))
    {id : DuneId} (hid : id.block < 2 ^ 64 ∧ id.tx < 2 ^ 32) (owner : ScriptHash) :
    storedRunes ns id owner store = runesHeld scriptHash id owner (unspentAfter chain) := by
  have ht : ∀ ref u, (unspentAfter chain).get ref = some u → u.WellFormed ref :=
    fun ref u hget => hchain.unspent_wellFormed hget
  have hperm : (storedEntries ns .utxosByRuneId Timbre.UtxosByRuneId.key Timbre.UtxosByRuneId.value store).Perm
      ((unspentAfter chain).entries.flatMap fun e => e.2.runes.map (runeEntry scriptHash e.1 e.2)) := by
    refine storedEntries_perm ns .utxosByRuneId (by simp [Timbre.schema]) rfl (by simp [Timbre.schema]) rfl
      (g := fun ref u => u.runes.map (runeEntry scriptHash ref u)) (runeEntries_nodup ht) fun k v hk => ?_
    have hentries : (fun ref (u : Utxo) => (u.runes.map (runeEntry scriptHash ref u)).map
        (encodedEntry ns .utxosByRuneId Timbre.UtxosByRuneId.key Timbre.UtxosByRuneId.value)) =
        runeUtxoEntries scriptHash ns := by
      funext ref u
      rw [List.map_map]
      rfl
    rw [hentries]
    exact hstore k v hk
  unfold storedRunes runesHeld Table.total
  rw [((hperm.filter _).map _).sum_eq, sum_flatMap_filter_map]
  refine congrArg List.sum (List.map_congr_left fun e he => ?_)
  have hu := ht e.1 e.2 (Table.mem_entries.mp he)
  unfold Utxo.amountOf
  rw [List.filter_map, List.map_map]
  have hquantity : ((fun x : Timbre.UtxosByRuneId.key.Val × Timbre.UtxosByRuneId.value.Val => quantityOf x.2) ∘
      runeEntry scriptHash e.1 e.2) = fun x => x.2.val := by
    funext x
    exact uint_val (w := 16) x.2.isLt
  rw [hquantity]
  beta_reduce
  by_cases howner : e.2.owner scriptHash = owner
  · rw [if_pos howner]
    refine congrArg (fun l : List (DuneId × U128) => (l.map fun x => x.2.val).sum)
      (List.filter_congr fun x hx => decide_eq_decide.mpr ?_)
    rw [runeOf_runeEntry hu hx hid]
    exact ⟨fun h => h.1, fun h => ⟨h, congrArg array20 howner⟩⟩
  · rw [if_neg howner, List.filter_eq_nil_iff.mpr fun x _ => ?_]
    · rfl
    · intro h
      exact howner (array20_inj (of_decide_eq_true h).2)

/-- **The three views of the holders of a dune agree**, under every configuration that has the three reducers, over
every chain of valid blocks and in any batching, as long as no script ever holds more of a dune than a counter of 128
bits can say. -/
theorem dune_views_agree (scriptHash : Bytes → ScriptHash) (ns : Namespace) (checks : Bool) (policy : RuntimePolicy)
    {reducers : List Reducer} (hnodup : reducers.Nodup) (hbalances : .balancesByRuneId ∈ reducers)
    (hruneBalances : .runeBalancesByScriptHash ∈ reducers) (hutxos : .utxosByRuneId ∈ reducers)
    {chain : List EnrichedBlock} (hchain : ValidChain Table.empty chain)
    (hrange : ∀ r ∈ reducers, Ledger.Along (r.InRange scriptHash) Table.empty (chain.flatMap EnrichedBlock.events)) :
    ∃ blocks, chain.mapM (blockActions scriptHash policy ns reducers) = some blocks ∧
      ∀ batches : List (HashOrder × List (List StorageAction)), (batches.map Prod.snd).flatten = blocks →
        ∃ store, executeBatches checks Table.empty batches = some store ∧
          ∀ (id : DuneId) (owner : ScriptHash), id.block < 2 ^ 64 ∧ id.tx < 2 ^ 32 →
            counterValue 16 (store.get (balancesByRuneIdKey ns id owner)) =
                counterValue 16 (store.get (runeBalancesByScriptHashKey ns owner id)) ∧
              counterValue 16 (store.get (balancesByRuneIdKey ns id owner)) = storedRunes ns id owner store := by
  obtain ⟨blocks, hblocks, hcommit⟩ := reduced_and_committed ns checks policy hchain hnodup hrange
  refine ⟨blocks, hblocks, fun batches hbatches => ?_⟩
  obtain ⟨store, hstore, hleaves⟩ := hcommit batches hbatches
  refine ⟨store, hstore, fun id owner hid => ?_⟩
  have ht : ∀ ref u, (unspentAfter chain).get ref = some u → u.WellFormed ref :=
    fun ref u hget => hchain.unspent_wellFormed hget
  obtain ⟨hcounted, hcounted'⟩ := counted_rune scriptHash ns ht hid owner
  have hfirst : counterValue 16 (store.get (balancesByRuneIdKey ns id owner)) =
      runesHeld scriptHash id owner (unspentAfter chain) := by
    obtain ⟨o, ho, hsame⟩ := hleaves .balancesByRuneId hbalances (balancesByRuneIdKey ns id owner)
      (List.prefix_append _ _)
    have hvalue : counterValue 16 (store.get (balancesByRuneIdKey ns id owner)) = counterValue 16 o := hsame
    have hcount : counterValue 16 o = counted .u128 (runeAmounts scriptHash ns) (balancesByRuneIdKey ns id owner)
      (unspentAfter chain) := ho
    rw [hvalue, hcount, hcounted]
  have hsecond : counterValue 16 (store.get (runeBalancesByScriptHashKey ns owner id)) =
      runesHeld scriptHash id owner (unspentAfter chain) := by
    obtain ⟨o, ho, hsame⟩ := hleaves .runeBalancesByScriptHash hruneBalances (runeBalancesByScriptHashKey ns owner id)
      (List.prefix_append _ _)
    have hvalue : counterValue 16 (store.get (runeBalancesByScriptHashKey ns owner id)) = counterValue 16 o := hsame
    have hcount : counterValue 16 o = counted .u128 (scriptRuneAmounts scriptHash ns)
      (runeBalancesByScriptHashKey ns owner id) (unspentAfter chain) := ho
    rw [hvalue, hcount, hcounted']
  have hthird : storedRunes ns id owner store = runesHeld scriptHash id owner (unspentAfter chain) := by
    refine storedRunes_eq hchain (fun k v hk => ?_) hid owner
    obtain ⟨o, ho, hsame⟩ := hleaves .utxosByRuneId hutxos k hk
    rw [show store.get k = o from hsame]
    exact ho v
  exact ⟨hfirst.trans hsecond.symm, hfirst.trans hthird.symm⟩

end

/-! ## An etching and a mint -/

namespace Sample

/-- An etching gives 10 units of a dune to script 1 and 7 to script 2; the 10 are sent on in the same block. -/
def etched : EnrichedBlock where
  point := ⟨2, 2⟩
  block := ⟨2, 1, [coinbase 2 [⟨50, [3]⟩], ⟨3, [⟨⟨1, 0⟩, []⟩], [⟨20, [1]⟩, ⟨29, [2]⟩]⟩, ⟨4, [⟨⟨3, 0⟩, []⟩], [⟨19, [1]⟩]⟩]⟩
  ctx := ((((BlockContext.new.insertTxo ⟨1, 0⟩ ⟨1, ⟨50, [1]⟩⟩).insertTxo ⟨3, 0⟩ ⟨2, ⟨20, [1]⟩⟩).insertRunes ⟨3, 0⟩
    [(⟨2, 1⟩, 10)]).insertRunes ⟨3, 1⟩ [(⟨2, 1⟩, 7)]).insertRunes ⟨4, 0⟩ [(⟨2, 1⟩, 10)]
  now := 1

/-- The amount of every dune on an output. -/
def runesOn (u : Utxo) : Nat := (u.runes.map fun e => e.2.val).sum

/-- What one script holds of a dune is at most what all hold of all dunes. -/
theorem runesHeld_le (scriptHash : Bytes → ScriptHash) (id : DuneId) (owner : ScriptHash) (t : Unspent) :
    runesHeld scriptHash id owner t ≤ t.total fun _ u => runesOn u := by
  have hle : ∀ e ∈ t.entries, (if e.2.owner scriptHash = owner then e.2.amountOf id else 0) ≤ runesOn e.2 := by
    intro e _
    split
    · exact (List.filter_sublist.map _).sum_le_sum fun n _ => Nat.zero_le n
    · exact Nat.zero_le _
  exact List.sum_le_sum hle

end Sample

open Sample in
/-- The etching, in any batching. -/
theorem dune_views_agree_sample :
    ValidChain Table.empty [first, etched] ∧
      ∃ blocks, [first, etched].mapM (blockActions scriptHash policy ns
          [.balancesByRuneId, .runeBalancesByScriptHash, .utxosByRuneId]) = some blocks ∧
        ∀ batches : List (HashOrder × List (List StorageAction)), (batches.map Prod.snd).flatten = blocks →
          ∃ store, executeBatches true Table.empty batches = some store ∧
            ∀ (id : DuneId) (owner : ScriptHash), id.block < 2 ^ 64 ∧ id.tx < 2 ^ 32 →
              counterValue 16 (store.get (balancesByRuneIdKey ns id owner)) =
                  counterValue 16 (store.get (runeBalancesByScriptHashKey ns owner id)) ∧
                counterValue 16 (store.get (balancesByRuneIdKey ns id owner)) = storedRunes ns id owner store := by
  have hchain : ValidChain Table.empty [first, etched] := by decide +kernel
  have htotal : Ledger.Along (fun t : Unspent => t.total (fun _ u => runesOn u) < 2 ^ 128) Table.empty
      ([first, etched].flatMap EnrichedBlock.events) := by
    decide +kernel
  refine ⟨hchain, dune_views_agree scriptHash ns true policy (by decide) (by decide) (by decide) (by decide) hchain
    fun r hr => htotal.imp fun t ht => ?_⟩
  have hheld : ∀ id owner, runesHeld scriptHash id owner t < 2 ^ 128 :=
    fun id owner => lt_of_le_of_lt (runesHeld_le scriptHash id owner t) ht
  cases r with
  | balancesByRuneId => exact hheld
  | runeBalancesByScriptHash => exact hheld
  | utxosByRuneId => exact trivial
  | satBalanceByScriptHash => exact absurd hr (by decide)
  | utxosByScriptHash => exact trivial
  | inscriptionsByScriptHash => exact trivial

namespace Sample

/-- An etching issues 2^128 - 1 units to script 1. -/
def issued : EnrichedBlock where
  point := ⟨2, 2⟩
  block := ⟨2, 1, [coinbase 2 [⟨50, [3]⟩], ⟨3, [⟨⟨1, 0⟩, []⟩], [⟨20, [1]⟩]⟩]⟩
  ctx := (BlockContext.new.insertTxo ⟨1, 0⟩ ⟨1, ⟨50, [1]⟩⟩).insertRunes ⟨3, 0⟩
    [(⟨2, 1⟩, 340282366920938463463374607431768211455)]
  now := 1

/-- A mint adds 5 units. -/
def minted : EnrichedBlock where
  point := ⟨3, 3⟩
  block := ⟨3, 2, [coinbase 5 [⟨50, [3]⟩], ⟨6, [⟨⟨1, 1⟩, []⟩], [⟨6, [1]⟩]⟩]⟩
  ctx := (BlockContext.new.insertTxo ⟨1, 1⟩ ⟨1, ⟨7, [1]⟩⟩).insertRunes ⟨6, 0⟩ [(⟨2, 1⟩, 5)]
  now := 2

end Sample

open Sample in
/-- The balances of a script that holds 2^128 + 4 units are 4. -/
theorem dune_balance_wraps :
    ValidChain Table.empty [first, issued, minted] ∧
      ∃ blocks store, [first, issued, minted].mapM (blockActions scriptHash policy ns
          [.balancesByRuneId, .runeBalancesByScriptHash, .utxosByRuneId]) = some blocks ∧
        executeBatches false Table.empty [(.listed, blocks)] = some store ∧
        counterValue 16 (store.get (balancesByRuneIdKey ns ⟨2, 1⟩ 1)) = 4 ∧
        storedRunes ns ⟨2, 1⟩ 1 store = 340282366920938463463374607431768211460 ∧
        counterValue 16 (store.get (balancesByRuneIdKey ns ⟨2, 1⟩ 1)) ≠ storedRunes ns ⟨2, 1⟩ 1 store := by
  have hrun : ([first, issued, minted].mapM (blockActions scriptHash policy ns
      [.balancesByRuneId, .runeBalancesByScriptHash, .utxosByRuneId])).bind
      (fun blocks => (executeBatches false Table.empty [(.listed, blocks)]).map fun store =>
        (counterValue 16 (store.get (balancesByRuneIdKey ns ⟨2, 1⟩ 1)), storedRunes ns ⟨2, 1⟩ 1 store)) =
      some (4, 340282366920938463463374607431768211460) := by
    decide +kernel
  obtain ⟨blocks, hblocks, hstore⟩ := Option.bind_eq_some_iff.mp hrun
  obtain ⟨store, hstore, hread⟩ := Option.map_eq_some_iff.mp hstore
  obtain ⟨hbalance, hsum⟩ := Prod.mk.inj hread
  refine ⟨by decide +kernel, blocks, store, hblocks, hstore, hbalance, hsum, ?_⟩
  rw [hbalance, hsum]
  decide

end DogeIndexer.Polyphony.Reducers
