import DogeIndexer.Polyphony.Indexes
import Mathlib.Algebra.Order.BigOperators.Group.List
import Mathlib.Algebra.Order.Group.Nat

/-!
# Outputs and balances by script hash

The entries of `UtxosByScriptHash` are the unspent outputs of the chain, and the counters of
`SatBalanceByScriptHash` are their sums.  One reducer leaves out what a block produces and spends,
the other counts it up and down; keys for deletion are rebuilt from the resolved input.

* `utxoEntries_stored` — the entries.
* `satBalance_stored` — the counters, while no script holds more than 64 bits can say.
* `utxo_index_matches` — both, over every chain and in any batching.
* `sat_balance_wraps` — coinbases that end beyond what the counter of one script can say.
-/

set_option autoImplicit false

namespace DogeIndexer.Polyphony.Reducers

open Compressor (Bytes U32 Txid ScriptHash OutPoint TxOut DuneId InscriptionId Transaction Block)
open Timbre (Namespace Ty)

theorem sum_filter_map {α : Type} (p : α → Bool) (f : α → Nat) (l : List α) :
    ((l.filter p).map f).sum = (l.map fun a => if p a then f a else 0).sum := by
  induction l with
  | nil => rfl
  | cons a l ih =>
    by_cases hp : p a = true
    · rw [List.filter_cons_of_pos hp, List.map_cons, List.map_cons, List.sum_cons, List.sum_cons, if_pos hp, ih]
    · rw [List.filter_cons_of_neg hp, List.map_cons, List.sum_cons, if_neg hp, Nat.zero_add, ih]

theorem uint_val {w n : Nat} (h : n < 256 ^ w) : (uint w n).val = n := Nat.mod_eq_of_lt h

/-! ## Reading the index -/

/-- The script hash in a key of `UtxosByScriptHash`. -/
def utxoOwner (key : Timbre.UtxosByScriptHash.key.Val) : (Ty.array 20).Val :=
  (key : (Ty.array 20).Val × (Fin (256 ^ 8) × (Ty.array 32).Val × Fin (256 ^ 4))).1

/-- The satoshis in a value of `UtxosByScriptHash`. -/
def utxoSats (value : Timbre.UtxosByScriptHash.value.Val) : Nat := (value : Fin (256 ^ 8)).val

/-- The sum of the entries of `UtxosByScriptHash` for a script hash. -/
def storedSats (ns : Namespace) (owner : ScriptHash) (store : Store) : Nat :=
  (((storedEntries ns .utxosByScriptHash Timbre.UtxosByScriptHash.key Timbre.UtxosByScriptHash.value store).filter
    fun e => utxoOwner e.1 = array20 owner).map fun e => utxoSats e.2).sum

/-- The entries are the unspent outputs, by script hash, creation height and outpoint, with their values; and the
balance of a script hash, absent as 0, is the sum of its entries. -/
structure UtxoIndexMatches (scriptHash : Bytes → ScriptHash) (ns : Namespace) (unspent : Unspent) (store : Store) :
    Prop where
  entries : ∀ k v, ns.dataPrefix .utxosByScriptHash <+: k → (store.get k = some v ↔ ∃ ref u,
    unspent.get ref = some u ∧ k = utxosByScriptHashKey ns (u.owner scriptHash) u.height ref ∧
      v = utxosByScriptHashValue u.txo.value)
  balances : ∀ owner, counterValue 8 (store.get (satBalanceByScriptHashKey ns owner)) = storedSats ns owner store

section

variable {scriptHash : Bytes → ScriptHash} {ns : Namespace} {chain : List EnrichedBlock} {store : Store}

theorem lists_utxoEntries {t : Unspent} {k : Key} {v : Value} :
    Ledger.Lists (utxoEntries scriptHash ns) t k v ↔ ∃ ref u, t.get ref = some u ∧
      k = utxosByScriptHashKey ns (u.owner scriptHash) u.height ref ∧ v = utxosByScriptHashValue u.txo.value := by
  unfold Ledger.Lists utxoEntries
  simp only [List.mem_singleton, Prod.mk.injEq]

/-- The sum of the entries is what the script holds. -/
theorem storedSats_eq (hchain : ValidChain Table.empty chain)
    (hstore : ∀ k v, ns.dataPrefix .utxosByScriptHash <+: k →
      (store.get k = some v ↔ Ledger.Lists (utxoEntries scriptHash ns) (unspentAfter chain) k v)) (owner : ScriptHash) :
    storedSats ns owner store = satsHeld scriptHash owner (unspentAfter chain) := by
  let entry (e : OutPoint × Utxo) : Timbre.UtxosByScriptHash.key.Val × Timbre.UtxosByScriptHash.value.Val :=
    ((array20 (e.2.owner scriptHash), uint 8 e.2.height, array32 e.1.txid, uint 4 e.1.vout), uint 8 e.2.txo.value.val)
  have hkeys : ((unspentAfter chain).entries.flatMap fun e => [entry e]).map Prod.fst =
      (unspentAfter chain).entries.map fun e => (entry e).1 := by
    rw [← List.map_eq_flatMap, List.map_map]
    rfl
  have hperm : (storedEntries ns .utxosByScriptHash Timbre.UtxosByScriptHash.key Timbre.UtxosByScriptHash.value
      store).Perm ((unspentAfter chain).entries.flatMap fun e => [entry e]) := by
    refine storedEntries_perm ns .utxosByScriptHash (by simp [Timbre.schema]) rfl (by simp [Timbre.schema]) rfl
      (g := fun ref u => [entry (ref, u)]) ?_ hstore
    rw [hkeys]
    refine List.Nodup.map_on (fun e he e' he' heq => ?_) (unspentAfter chain).keys_nodup.of_map
    obtain ⟨-, hrest⟩ := fields_inj heq
    obtain ⟨-, hrest⟩ := fields_inj hrest
    obtain ⟨htxid, hvout⟩ := fields_inj hrest
    have hu := hchain.unspent_wellFormed (Table.mem_entries.mp he)
    have hu' := hchain.unspent_wellFormed (Table.mem_entries.mp he')
    exact List.inj_on_of_nodup_map (unspentAfter chain).keys_nodup he he'
      (outpoint_inj hu.vout hu'.vout htxid hvout)
  unfold storedSats satsHeld Table.total
  rw [((hperm.filter _).map _).sum_eq, ← List.map_eq_flatMap, sum_filter_map, List.map_map]
  refine congrArg List.sum (List.map_congr_left fun e _ => ?_)
  have howner : utxoOwner (entry e).1 = array20 owner ↔ e.2.owner scriptHash = owner :=
    ⟨fun h => array20_inj h, fun h => congrArg array20 h⟩
  have hsats : utxoSats (entry e).2 = e.2.txo.value.val := uint_val (w := 8) e.2.txo.value.isLt
  simp only [Function.comp_apply, decide_eq_true_eq, howner, hsats]

section

variable {reducers : List Reducer} {batches : List (HashOrder × List (List StorageAction))} {checks : Bool}
variable (hchain : ValidChain Table.empty chain) (hnodup : reducers.Nodup)
variable (hbatches : (batches.map Prod.snd).flatten = chain.map (actionsOf scriptHash ns reducers))
variable (hcommit : executeBatches checks Table.empty batches = some store)

include hchain hnodup hbatches hcommit

/-- The entries that were committed are those of the unspent outputs. -/
theorem utxoEntries_stored (hutxos : .utxosByScriptHash ∈ reducers) {k : Key} {v : Value}
    (hk : ns.dataPrefix .utxosByScriptHash <+: k) :
    store.get k = some v ↔ Ledger.Lists (utxoEntries scriptHash ns) (unspentAfter chain) k v := by
  have hrange : Ledger.Along (Reducer.InRange scriptHash .utxosByScriptHash) Table.empty
      (chain.flatMap EnrichedBlock.events) :=
    Ledger.along_iff.mpr fun _ _ _ => trivial
  obtain ⟨o, hruns, ho⟩ := hchain.leaves checks .utxosByScriptHash hrange k
  have hsame : store.get k = o := committed_sameValue hbatches hcommit hnodup hutxos hk hruns
  rw [hsame]
  exact ho v

/-- The counters that were committed are what the scripts hold, while no script holds more than 64 bits can say. -/
theorem satBalance_stored (hsats : .satBalanceByScriptHash ∈ reducers)
    (hrange : Ledger.Along (Reducer.InRange scriptHash .satBalanceByScriptHash) Table.empty
      (chain.flatMap EnrichedBlock.events)) (owner : ScriptHash) :
    counterValue 8 (store.get (satBalanceByScriptHashKey ns owner)) =
      satsHeld scriptHash owner (unspentAfter chain) := by
  obtain ⟨o, hruns, ho⟩ := hchain.leaves checks .satBalanceByScriptHash hrange (satBalanceByScriptHashKey ns owner)
  have hsame : counterValue 8 (store.get (satBalanceByScriptHashKey ns owner)) = counterValue 8 o :=
    committed_sameValue hbatches hcommit hnodup hsats (List.prefix_append _ _) hruns
  have hcount : counterValue 8 o =
      counted .u64 (satAmounts scriptHash ns) (satBalanceByScriptHashKey ns owner) (unspentAfter chain) := ho
  rw [hsame, hcount, counted_sat]

end

/-- **The index of outputs and balances matches the chain**: under every configuration that has the two reducers, over
every chain of valid blocks in which no script ever holds more than its counter can say, the blocks are reduced, and
what is committed matches, in any batching.  It does commit in a build without overflow checks, and in any build when
the other counters of the configuration can say what is held, too. -/
theorem utxo_index_matches (scriptHash : Bytes → ScriptHash) (ns : Namespace) (checks : Bool) (policy : RuntimePolicy)
    {reducers : List Reducer} (hnodup : reducers.Nodup) (hutxos : .utxosByScriptHash ∈ reducers)
    (hsats : .satBalanceByScriptHash ∈ reducers) {chain : List EnrichedBlock} (hchain : ValidChain Table.empty chain)
    (hrange : Ledger.Along (Reducer.InRange scriptHash .satBalanceByScriptHash) Table.empty
      (chain.flatMap EnrichedBlock.events)) :
    ∃ blocks, chain.mapM (blockActions scriptHash policy ns reducers) = some blocks ∧
      ∀ batches : List (HashOrder × List (List StorageAction)), (batches.map Prod.snd).flatten = blocks →
        (∀ store, executeBatches checks Table.empty batches = some store →
          UtxoIndexMatches scriptHash ns (unspentAfter chain) store) ∧
        (checks = false ∨ (∀ r ∈ reducers, Ledger.Along (r.InRange scriptHash) Table.empty
          (chain.flatMap EnrichedBlock.events)) →
            ∃ store, executeBatches checks Table.empty batches = some store) := by
  refine ⟨_, hchain.mapM_blockActions policy reducers, fun batches hbatches => ⟨fun store hcommit => ⟨fun k v hk => ?_,
    fun owner => ?_⟩, ?_⟩⟩
  · exact (utxoEntries_stored hchain hnodup hbatches hcommit hutxos hk).trans lists_utxoEntries
  · rw [satBalance_stored hchain hnodup hbatches hcommit hsats hrange owner,
      storedSats_eq hchain (fun k v hk => utxoEntries_stored hchain hnodup hbatches hcommit hutxos hk) owner]
  · rintro (rfl | hranges)
    · exact unchecked_commits hbatches
    · obtain ⟨blocks, hblocks, hcommit⟩ := reduced_and_committed ns checks policy hchain hnodup hranges
      rw [hchain.mapM_blockActions policy reducers] at hblocks
      cases hblocks
      obtain ⟨store, hstore, -⟩ := hcommit batches hbatches
      exact ⟨store, hstore⟩

end

/-! ## Two blocks -/

namespace Sample

/-- Scripts are told apart by their first byte. -/
def scriptHash : Bytes → ScriptHash
  | [] => 0
  | b :: _ => Fin.ofNat _ b.val

def ns : Namespace := ⟨0, 0⟩

def policy : RuntimePolicy := ⟨none, none⟩

def coinbase (txid : Txid) (outputs : List TxOut) : Transaction := ⟨txid, [⟨OutPoint.null, []⟩], outputs⟩

/-- A coinbase pays 50 and 7 to script 1. -/
def first : EnrichedBlock where
  point := ⟨1, 1⟩
  block := ⟨1, 0, [coinbase 1 [⟨50, [1]⟩, ⟨7, [1]⟩]]⟩
  ctx := BlockContext.new
  now := 0

/-- The 50 are sent on through an output that is spent in the same block, and end as 20 and 29. -/
def second : EnrichedBlock where
  point := ⟨2, 2⟩
  block := ⟨2, 1, [coinbase 2 [⟨61, [3]⟩], ⟨3, [⟨⟨1, 0⟩, []⟩], [⟨50, [1]⟩]⟩, ⟨4, [⟨⟨3, 0⟩, []⟩], [⟨20, [1]⟩, ⟨29, [2]⟩]⟩]⟩
  ctx := (BlockContext.new.insertTxo ⟨1, 0⟩ ⟨1, ⟨50, [1]⟩⟩).insertTxo ⟨3, 0⟩ ⟨2, ⟨50, [1]⟩⟩
  now := 1

/-- What one script holds is at most what all hold. -/
theorem satsHeld_le (scriptHash : Bytes → ScriptHash) (owner : ScriptHash) (t : Unspent) :
    satsHeld scriptHash owner t ≤ t.total fun _ u => u.txo.value.val := by
  have hle : ∀ e ∈ t.entries, (if e.2.owner scriptHash = owner then e.2.txo.value.val else 0) ≤ e.2.txo.value.val := by
    intro e _
    split
    · exact le_refl _
    · exact Nat.zero_le _
  exact List.sum_le_sum hle

end Sample

open Sample in
/-- The two blocks, in any batching. -/
theorem utxo_index_matches_sample :
    ValidChain Table.empty [first, second] ∧
      ∃ blocks, [first, second].mapM (blockActions scriptHash policy ns [.utxosByScriptHash, .satBalanceByScriptHash]) =
          some blocks ∧
        ∀ batches : List (HashOrder × List (List StorageAction)), (batches.map Prod.snd).flatten = blocks →
          ∃ store, executeBatches true Table.empty batches = some store ∧
            UtxoIndexMatches scriptHash ns (unspentAfter [first, second]) store := by
  have hchain : ValidChain Table.empty [first, second] := by decide +kernel
  have htotal : Ledger.Along (fun t : Unspent => t.total (fun _ u => u.txo.value.val) < 2 ^ 64) Table.empty
      ([first, second].flatMap EnrichedBlock.events) := by
    decide +kernel
  have hranges : ∀ r ∈ [Reducer.utxosByScriptHash, .satBalanceByScriptHash],
      Ledger.Along (r.InRange scriptHash) Table.empty ([first, second].flatMap EnrichedBlock.events) := by
    intro r hr
    refine htotal.imp fun t ht => ?_
    rcases List.mem_cons.mp hr with rfl | hr
    · exact trivial
    · rw [List.mem_singleton.mp hr]
      exact fun owner => lt_of_le_of_lt (satsHeld_le scriptHash owner t) ht
  have hnodup : [Reducer.utxosByScriptHash, .satBalanceByScriptHash].Nodup := by decide
  obtain ⟨blocks, hblocks, hbatches⟩ := utxo_index_matches scriptHash ns true policy hnodup (by decide) (by decide)
    hchain (hranges .satBalanceByScriptHash (by decide))
  refine ⟨hchain, blocks, hblocks, fun batches heq => ?_⟩
  obtain ⟨hmatches, hcommits⟩ := hbatches batches heq
  obtain ⟨store, hstore⟩ := hcommits (Or.inr hranges)
  exact ⟨store, hstore, hmatches store hstore⟩

/-! ## More than the counter can say -/

namespace Sample

/-- What the network lets every coinbase of a height take: below height 145,000 rewards are drawn at random, from there
on they are 10,000 coins or more. -/
def allowance (height : Nat) : U64 := if height < 145000 then 0 else 1000000000000

/-- A block whose coinbase takes the allowance, for script 1. -/
def emitted (height : Nat) : EnrichedBlock where
  point := ⟨height, Fin.ofNat _ height⟩
  block := ⟨Fin.ofNat _ height, Fin.ofNat _ (height - 1), [coinbase (Fin.ofNat _ height) [⟨allowance height, [1]⟩]]⟩
  ctx := BlockContext.new
  now := height

/-- The blocks of some heights. -/
def emittedFrom (height count : Nat) : List EnrichedBlock := (List.range' height count).map emitted

/-- The output of a coinbase. -/
def reward (height : Nat) : Utxo := ⟨height, ⟨allowance height, [1]⟩, [], []⟩

theorem events_emitted (height : Nat) : (emitted height).events = [.produce ⟨Fin.ofNat _ height, 0⟩ (reward height)] := rfl

/-- **Coinbases that take their allowance are a valid chain**, and what script 1 holds grows by each of them. -/
theorem emittedFrom_valid {t : Unspent} {height count : Nat} (hcount : height + count ≤ 2 ^ 64)
    (ht : ∀ ref u, t.get ref = some u → ref.txid.val < height) :
    ValidChain t (emittedFrom height count) ∧
      satsHeld scriptHash 1 (Ledger.run t ((emittedFrom height count).flatMap EnrichedBlock.events)) =
        satsHeld scriptHash 1 t + ((List.range' height count).map fun h => (allowance h).val).sum := by
  induction count generalizing t height with
  | zero => exact ⟨trivial, rfl⟩
  | succ count ih =>
    have hheight : (Fin.ofNat (2 ^ 256) height).val = height := Nat.mod_eq_of_lt (by omega)
    have hfresh : ∀ vout, t.get ⟨Fin.ofNat _ height, vout⟩ = none := by
      intro vout
      by_contra hsome
      obtain ⟨u, hget⟩ := Option.ne_none_iff_exists'.mp hsome
      have hlt : (Fin.ofNat (2 ^ 256) height).val < height := ht _ u hget
      omega
    have hproduce : Ledger.Event.Valid t (.produce ⟨Fin.ofNat _ height, 0⟩ (reward height)) := hfresh 0
    have hvalid : (emitted height).Valid t := {
      coinbase := ⟨rfl, fun tx htx => (List.not_mem_nil htx).elim⟩
      txids := List.nodup_singleton _
      fresh := fun tx htx => by
        rw [List.mem_singleton.mp htx]
        exact hfresh
      outputCount := fun tx htx => by
        rw [List.mem_singleton.mp htx]
        exact Nat.one_lt_two_pow (by decide)
      height := by
        change height < 2 ^ 64
        omega
      runes := fun ref runes hget => by cases hget
      inscriptions := fun ref inscriptions hget => by cases hget
      resolved := fun tx htx => (List.not_mem_nil htx).elim
      spends := by
        rw [events_emitted]
        exact ⟨hproduce, trivial⟩ }
    have hstep := Ledger.total_apply (fun _ u => if u.owner scriptHash = 1 then u.txo.value.val else 0) hproduce
    have hnext : ∀ ref u, (Ledger.Event.apply t (.produce ⟨Fin.ofNat _ height, 0⟩ (reward height))).get ref = some u →
        ref.txid.val < height + 1 := by
      intro ref u hget
      rcases Ledger.get_apply_cases hget with ⟨-, hget⟩ | heq
      · exact lt_of_lt_of_le (ht ref u hget) (Nat.le_succ height)
      · cases heq
        exact Nat.lt_succ_of_le (le_of_eq hheight)
    obtain ⟨hrest, hheld⟩ := ih (by omega) hnext
    refine ⟨⟨hvalid, hrest⟩, ?_⟩
    rw [List.range'_succ, List.map_cons, List.sum_cons, ← Nat.add_assoc]
    exact hheld.trans (congrArg (· + _) hstep)

/-- What is taken from height 145,000 on. -/
theorem allowance_sum (late : Nat) :
    late * 1000000000000 ≤ ((List.range' 1 (144999 + late)).map fun h => (allowance h).val).sum := by
  have hlate : ((List.range' (1 + 144999) late).map fun h => (allowance h).val) = List.replicate late 1000000000000 := by
    have hall : ∀ h ∈ List.range' (1 + 144999) late, (allowance h).val = 1000000000000 := by
      intro h hh
      have hle := (List.mem_range'_1.mp hh).1
      rw [allowance, if_neg (by omega)]
      rfl
    rw [List.map_congr_left hall, List.map_const', List.length_range']
  rw [← List.range'_append_1, List.map_append, List.sum_append, hlate, List.sum_replicate_nat]
  exact Nat.le_add_left _ _

/-- No coinbase of the chain pays more than its allowance. -/
theorem emittedFrom_pays (height count : Nat) :
    ∀ b ∈ emittedFrom height count, ∀ tx ∈ b.block.txdata,
      (tx.output.map fun output => output.value.val).sum ≤ (allowance b.point.height).val := by
  intro b hb tx htx
  obtain ⟨h, -, rfl⟩ := List.mem_map.mp hb
  rw [List.mem_singleton.mp htx]
  exact le_of_eq (Nat.add_zero _)

end Sample

open Sample in
/-- **A balance that its counter cannot say**: from height 1 on every coinbase takes no more than the network lets it,
all of them for one script.  The blocks are valid and are reduced, and without overflow checks they are committed; but
after the last of them the outputs of the script are worth more than 64 bits can say, so whatever is committed, in any
batching and any build, its balance is not their sum. -/
theorem sat_balance_wraps :
    ValidChain Table.empty (emittedFrom 1 (144999 + 18446745)) ∧
      (∀ b ∈ emittedFrom 1 (144999 + 18446745), ∀ tx ∈ b.block.txdata,
        (tx.output.map fun output => output.value.val).sum ≤ (allowance b.point.height).val) ∧
      ∃ blocks, (emittedFrom 1 (144999 + 18446745)).mapM
          (blockActions scriptHash policy ns [.utxosByScriptHash, .satBalanceByScriptHash]) = some blocks ∧
        ∀ batches : List (HashOrder × List (List StorageAction)), (batches.map Prod.snd).flatten = blocks →
          (∃ store, executeBatches false Table.empty batches = some store) ∧
          ∀ checks store, executeBatches checks Table.empty batches = some store →
            counterValue 8 (store.get (satBalanceByScriptHashKey ns 1)) ≠ storedSats ns 1 store ∧
              ¬ UtxoIndexMatches scriptHash ns (unspentAfter (emittedFrom 1 (144999 + 18446745))) store := by
  have hempty : ∀ ref u, (Table.empty : Unspent).get ref = some u → ref.txid.val < 1 := fun ref u hget => by cases hget
  obtain ⟨hchain, hheld⟩ := emittedFrom_valid (by decide : 1 + (144999 + 18446745) ≤ 2 ^ 64) hempty
  have hpays := emittedFrom_pays 1 (144999 + 18446745)
  have hlarge : 2 ^ 64 ≤ satsHeld scriptHash 1 (unspentAfter (emittedFrom 1 (144999 + 18446745))) := by
    rw [unspentAfter, hheld]
    have hsum := allowance_sum 18446745
    have htotal : 2 ^ 64 ≤ 18446745 * 1000000000000 := by decide
    exact le_trans htotal (le_trans hsum (Nat.le_add_left _ _))
  generalize emittedFrom 1 (144999 + 18446745) = chain at hchain hpays hlarge ⊢
  refine ⟨hchain, hpays, _, hchain.mapM_blockActions policy _, fun batches hbatches =>
    ⟨unchecked_commits hbatches, fun checks store hcommit => ?_⟩⟩
  have hnodup : [Reducer.utxosByScriptHash, .satBalanceByScriptHash].Nodup := by decide
  have hsum := storedSats_eq hchain (fun k v hk =>
    utxoEntries_stored hchain hnodup hbatches hcommit (by decide) hk) 1
  have hbalance : counterValue 8 (store.get (satBalanceByScriptHashKey ns 1)) ≠ storedSats ns 1 store := by
    have hcounter := StorageAction.counterValue_lt 8 (store.get (satBalanceByScriptHashKey ns 1))
    omega
  exact ⟨hbalance, fun hmatches => hbalance (hmatches.balances 1)⟩

end DogeIndexer.Polyphony.Reducers
