import DogeIndexer.Polyphony.Committed

/-!
# What each reducer leaves

For each reducer, the readings that its actions over a chain lead to: entries of the unspent
outputs, or totals of what they hold.

* `InRange` — the totals that the counters of a reducer can hold.
* `Leaves` — what a reducer leaves at a key.
* `reduced_and_committed` — every configuration, over every chain and in any batching.
-/

set_option autoImplicit false

namespace DogeIndexer.Polyphony.Reducers

open Compressor (Bytes U32 Txid ScriptHash OutPoint TxOut DuneId InscriptionId)
open Timbre (Namespace Ty)
open StorageAction (Family)

/-! ## Keys name what they are made from -/

section

variable {ns : Namespace}

theorem dataKey_inj {tag : Timbre.Reducer} {t : Ty} (ht : t ∈ Timbre.schema) (ho : t.ordered = true) {x y : t.Val}
    (h : ns.data tag t x = ns.data tag t y) : x = y :=
  Timbre.data_injective ht (t.sized_of_ordered ho x) (t.sized_of_ordered ho y) h

/-- The fields of a key are compared at their own types. -/
theorem fields_inj {α β : Type} {a a' : α} {b b' : β} (h : (a, b) = (a', b')) : a = a' ∧ b = b' := Prod.mk.inj h

theorem runeId_inj {w w' : Nat} {id id' : DuneId} (hid : id.block < 256 ^ w ∧ id.tx < 256 ^ w')
    (hid' : id'.block < 256 ^ w ∧ id'.tx < 256 ^ w') (hblock : uint w id.block = uint w id'.block)
    (htx : uint w' id.tx = uint w' id'.tx) : id = id' := by
  obtain ⟨block, tx⟩ := id
  obtain ⟨block', tx'⟩ := id'
  cases uint_inj hid.1 hid'.1 hblock
  cases uint_inj hid.2 hid'.2 htx
  rfl

theorem utxosByScriptHashKey_inj {owner owner' : ScriptHash} {height height' : Nat} {ref ref' : OutPoint}
    (hvout : ref.vout < 2 ^ 32) (hvout' : ref'.vout < 2 ^ 32)
    (h : utxosByScriptHashKey ns owner height ref = utxosByScriptHashKey ns owner' height' ref') : ref = ref' := by
  have hkey := dataKey_inj (by simp [Timbre.schema]) rfl h
  obtain ⟨-, hrest⟩ := fields_inj hkey
  obtain ⟨-, hrest⟩ := fields_inj hrest
  obtain ⟨htxid, hvouts⟩ := fields_inj hrest
  exact outpoint_inj hvout hvout' htxid hvouts

theorem satBalanceByScriptHashKey_inj {owner owner' : ScriptHash}
    (h : satBalanceByScriptHashKey ns owner = satBalanceByScriptHashKey ns owner') : owner = owner' := by
  have hschema : Timbre.SatBalanceByScriptHash.key ∈ Timbre.schema := by simp [Timbre.schema]
  exact array20_inj (dataKey_inj hschema rfl h)

variable {id id' : DuneId} (hid : id.block < 2 ^ 64 ∧ id.tx < 2 ^ 32) (hid' : id'.block < 2 ^ 64 ∧ id'.tx < 2 ^ 32)

include hid hid'

theorem balancesByRuneIdKey_inj {owner owner' : ScriptHash}
    (h : balancesByRuneIdKey ns id owner = balancesByRuneIdKey ns id' owner') : id = id' ∧ owner = owner' := by
  have hkey := dataKey_inj (by simp [Timbre.schema]) rfl h
  obtain ⟨hrune, howner⟩ := fields_inj hkey
  obtain ⟨hblock, htx⟩ := fields_inj hrune
  refine ⟨runeId_inj ⟨?_, ?_⟩ ⟨?_, ?_⟩ hblock htx, array20_inj howner⟩ <;> omega

theorem runeBalancesByScriptHashKey_inj {owner owner' : ScriptHash}
    (h : runeBalancesByScriptHashKey ns owner id = runeBalancesByScriptHashKey ns owner' id') :
    id = id' ∧ owner = owner' := by
  have hkey := dataKey_inj (by simp [Timbre.schema]) rfl h
  obtain ⟨howner, hrune⟩ := fields_inj hkey
  obtain ⟨hblock, htx⟩ := fields_inj hrune
  refine ⟨runeId_inj ⟨?_, ?_⟩ ⟨?_, ?_⟩ hblock htx, array20_inj howner⟩ <;> omega

theorem utxosByRuneIdKey_inj {height height' : Nat} {ref ref' : OutPoint} (hvout : ref.vout < 2 ^ 32)
    (hvout' : ref'.vout < 2 ^ 32) (h : utxosByRuneIdKey ns id height ref = utxosByRuneIdKey ns id' height' ref') :
    id = id' ∧ ref = ref' := by
  have hkey := dataKey_inj (by simp [Timbre.schema]) rfl h
  obtain ⟨hrune, hrest⟩ := fields_inj hkey
  obtain ⟨hblock, htx⟩ := fields_inj hrune
  obtain ⟨-, hrest⟩ := fields_inj hrest
  obtain ⟨htxid, hvouts⟩ := fields_inj hrest
  refine ⟨runeId_inj ⟨?_, ?_⟩ ⟨?_, ?_⟩ hblock htx, outpoint_inj hvout hvout' htxid hvouts⟩ <;> omega

end

/-! ## Holdings -/

section

variable (scriptHash : Bytes → ScriptHash)

/-- The satoshis on the unspent outputs of a script. -/
def satsHeld (owner : ScriptHash) (t : Unspent) : Nat :=
  t.total fun _ u => if u.owner scriptHash = owner then u.txo.value.val else 0

/-- The amount of a dune on an output. -/
def Utxo.amountOf (id : DuneId) (u : Utxo) : Nat := ((u.runes.filter fun e => e.1 = id).map fun e => e.2.val).sum

/-- The amount of a dune on the unspent outputs of a script. -/
def runesHeld (id : DuneId) (owner : ScriptHash) (t : Unspent) : Nat :=
  t.total fun _ u => if u.owner scriptHash = owner then u.amountOf id else 0

/-- What is held can be said by the reducer's counters. -/
def Reducer.InRange : Reducer → Unspent → Prop
  | satBalanceByScriptHash => fun t => ∀ owner, satsHeld scriptHash owner t < 2 ^ 64
  | balancesByRuneId => fun t => ∀ id owner, runesHeld scriptHash id owner t < 2 ^ 128
  | runeBalancesByScriptHash => fun t => ∀ id owner, runesHeld scriptHash id owner t < 2 ^ 128
  | _ => fun _ => True

variable (ns : Namespace)

/-- What a reducer leaves at a key: the entries of the unspent outputs, or what they hold.  For inscriptions, whose
keys do not name the output, only where one output at a time contributes to the key. -/
def Reducer.Leaves (chain : List EnrichedBlock) : Reducer → Key → Option Value → Prop
  | utxosByScriptHash => fun k o =>
    ∀ v, o = some v ↔ Ledger.Lists (utxoEntries scriptHash ns) (unspentAfter chain) k v
  | utxosByRuneId => fun k o =>
    ∀ v, o = some v ↔ Ledger.Lists (runeUtxoEntries scriptHash ns) (unspentAfter chain) k v
  | inscriptionsByScriptHash => fun k o =>
    Ledger.Along (Ledger.Single (inscriptionEntries scriptHash ns) k) Table.empty
      (chain.flatMap EnrichedBlock.events) →
    ∀ v, o = some v ↔ Ledger.Lists (inscriptionEntries scriptHash ns) (unspentAfter chain) k v
  | satBalanceByScriptHash => fun k o =>
    counterValue 8 o = counted .u64 (satAmounts scriptHash ns) k (unspentAfter chain)
  | balancesByRuneId => fun k o =>
    counterValue 16 o = counted .u128 (runeAmounts scriptHash ns) k (unspentAfter chain)
  | runeBalancesByScriptHash => fun k o =>
    counterValue 16 o = counted .u128 (scriptRuneAmounts scriptHash ns) k (unspentAfter chain)

end

/-! ## Totals at a key -/

section

variable {scriptHash : Bytes → ScriptHash} {ns : Namespace} {t : Unspent}

/-- Contributions of distinct things, at the key of one of them. -/
theorem at_map (c : CounterKind) {α : Type} [DecidableEq α] {l : List (α × c.Amount)} (key : α → Key) (x : α)
    (hkey : ∀ e ∈ l, key e.1 = key x → e.1 = x) :
    c.at_ (key x) (l.map fun e => (key e.1, e.2)) = ((l.filter fun e => e.1 = x).map fun e => c.value e.2).sum := by
  induction l with
  | nil => rfl
  | cons e l ih =>
    rw [List.map_cons, CounterKind.at_cons, ih fun e' he' => hkey e' (List.mem_cons_of_mem _ he')]
    by_cases he : e.1 = x
    · rw [if_pos (by rw [he]), List.filter_cons_of_pos (by simpa using he), List.map_cons, List.sum_cons]
    · have hne : key e.1 ≠ key x := fun h => he (hkey e List.mem_cons_self h)
      rw [if_neg hne, List.filter_cons_of_neg (by simpa using he), Nat.zero_add]

theorem at_eq_zero {c : CounterKind} {k : Key} {l : List (Key × c.Amount)} (h : ∀ e ∈ l, e.1 ≠ k) : c.at_ k l = 0 := by
  unfold CounterKind.at_
  rw [List.filter_eq_nil_iff.mpr fun e he => by simpa using h e he]
  rfl

theorem counted_sat (owner : ScriptHash) :
    counted .u64 (satAmounts scriptHash ns) (satBalanceByScriptHashKey ns owner) t = satsHeld scriptHash owner t := by
  unfold counted satsHeld
  congr 1
  funext ref u
  have hat : CounterKind.u64.at_ (satBalanceByScriptHashKey ns owner) (satAmounts scriptHash ns ref u) =
      (if satBalanceByScriptHashKey ns (u.owner scriptHash) = satBalanceByScriptHashKey ns owner then
        u.txo.value.val else 0) + 0 :=
    CounterKind.at_cons (c := .u64) _ (satBalanceByScriptHashKey ns (u.owner scriptHash), u.txo.value) []
  rw [hat, Nat.add_zero]
  by_cases howner : u.owner scriptHash = owner
  · rw [if_pos (by rw [howner]), if_pos howner]
  · rw [if_neg fun h => howner (satBalanceByScriptHashKey_inj h), if_neg howner]

theorem counted_rune (scriptHash : Bytes → ScriptHash) (ns : Namespace)
    (ht : ∀ ref u, t.get ref = some u → u.WellFormed ref) {id : DuneId}
    (hid : id.block < 2 ^ 64 ∧ id.tx < 2 ^ 32) (owner : ScriptHash) :
    counted .u128 (runeAmounts scriptHash ns) (balancesByRuneIdKey ns id owner) t = runesHeld scriptHash id owner t ∧
      counted .u128 (scriptRuneAmounts scriptHash ns) (runeBalancesByScriptHashKey ns owner id) t =
        runesHeld scriptHash id owner t := by
  have hsum : ∀ {f g : OutPoint → Utxo → Nat}, (∀ ref u, t.get ref = some u → f ref u = g ref u) →
      t.total f = t.total g := by
    intro f g hfg
    unfold Table.total
    refine congrArg List.sum (List.map_congr_left fun e he => ?_)
    exact hfg e.1 e.2 (Table.mem_entries.mp he)
  constructor
  · refine hsum fun ref u hget => ?_
    have hu := ht ref u hget
    unfold runeAmounts Utxo.amountOf
    by_cases howner : u.owner scriptHash = owner
    · rw [if_pos howner, howner]
      exact at_map .u128 (fun x => balancesByRuneIdKey ns x owner) id fun e he h =>
        (balancesByRuneIdKey_inj (hu.dune e he) hid h).1
    · rw [if_neg howner]
      refine at_eq_zero fun e he h => howner ?_
      obtain ⟨x, hx, rfl⟩ := List.mem_map.mp he
      exact (balancesByRuneIdKey_inj (hu.dune x hx) hid h).2
  · refine hsum fun ref u hget => ?_
    have hu := ht ref u hget
    unfold scriptRuneAmounts Utxo.amountOf
    by_cases howner : u.owner scriptHash = owner
    · rw [if_pos howner, howner]
      exact at_map .u128 (fun x => runeBalancesByScriptHashKey ns owner x) id fun e he h =>
        (runeBalancesByScriptHashKey_inj (hu.dune e he) hid h).1
    · rw [if_neg howner]
      refine at_eq_zero fun e he h => howner ?_
      obtain ⟨x, hx, rfl⟩ := List.mem_map.mp he
      exact (runeBalancesByScriptHashKey_inj (hu.dune x hx) hid h).2

/-- Nothing is counted at a key that no output contributes to. -/
theorem counted_eq_zero {c : CounterKind} {g : OutPoint → Utxo → List (Key × c.Amount)} {k : Key}
    (h : ∀ ref u, t.get ref = some u → ∀ e ∈ g ref u, e.1 ≠ k) : counted c g k t = 0 := by
  unfold counted Table.total
  refine List.sum_eq_zero fun n hn => ?_
  obtain ⟨e, he, rfl⟩ := List.mem_map.mp hn
  exact at_eq_zero (h e.1 e.2 (Table.mem_entries.mp he))

/-- A total in range is counted in range, at every key. -/
theorem counted_lt {c : CounterKind} {g : OutPoint → Utxo → List (Key × c.Amount)} {k : Key} {bound : Nat}
    (hbound : 0 < bound)
    (h : ∀ ref u, t.get ref = some u → ∀ e ∈ g ref u, e.1 = k → counted c g k t < bound) :
    counted c g k t < bound := by
  by_cases hsome : ∃ ref u, t.get ref = some u ∧ ∃ e ∈ g ref u, e.1 = k
  · obtain ⟨ref, u, hget, e, he, hk⟩ := hsome
    exact h ref u hget e he hk
  · rw [counted_eq_zero fun ref u hget e he hk => hsome ⟨ref, u, hget, e, he, hk⟩]
    exact hbound

theorem InRange.counted_lt (ht : ∀ ref u, t.get ref = some u → u.WellFormed ref) (k : Key) :
    (Reducer.InRange scriptHash .satBalanceByScriptHash t → counted .u64 (satAmounts scriptHash ns) k t < 256 ^ 8) ∧
    (Reducer.InRange scriptHash .balancesByRuneId t → counted .u128 (runeAmounts scriptHash ns) k t < 256 ^ 16) ∧
    (Reducer.InRange scriptHash .runeBalancesByScriptHash t →
      counted .u128 (scriptRuneAmounts scriptHash ns) k t < 256 ^ 16) := by
  refine ⟨fun h => ?_, fun h => ?_, fun h => ?_⟩
  · refine Reducers.counted_lt (by decide) fun ref u hget e he hk => ?_
    rw [List.mem_singleton.mp he] at hk
    rw [← hk, counted_sat]
    exact lt_of_lt_of_le (h _) (by decide)
  · refine Reducers.counted_lt (by decide) fun ref u hget e he hk => ?_
    obtain ⟨x, hx, rfl⟩ := List.mem_map.mp he
    rw [← hk, (counted_rune scriptHash ns ht ((ht ref u hget).dune x hx) _).1]
    exact lt_of_lt_of_le (h _ _) (by decide)
  · refine Reducers.counted_lt (by decide) fun ref u hget e he hk => ?_
    obtain ⟨x, hx, rfl⟩ := List.mem_map.mp he
    rw [← hk, (counted_rune scriptHash ns ht ((ht ref u hget).dune x hx) _).2]
    exact lt_of_lt_of_le (h _ _) (by decide)

end

/-! ## Every configuration -/

section

variable {scriptHash : Bytes → ScriptHash} {ns : Namespace} {chain : List EnrichedBlock}

theorem ValidChain.wellFormed (hchain : ValidChain Table.empty chain) :
    Ledger.Along (fun t => ∀ ref u, t.get ref = some u → Utxo.WellFormed ref u) Table.empty
      (chain.flatMap EnrichedBlock.events) :=
  Ledger.along_items (fun ref u hget => by cases hget) fun ref u hmem => hchain.produce_wellFormed hmem

theorem ValidChain.unspent_wellFormed (hchain : ValidChain Table.empty chain) {ref : OutPoint} {u : Utxo}
    (hget : (unspentAfter chain).get ref = some u) : u.WellFormed ref :=
  hchain.wellFormed.last ref u hget

/-- Reducers of entries whose keys name the output. -/
theorem ValidChain.runsAt_entries (hchain : ValidChain Table.empty chain) (checks : Bool) {r : Reducer}
    {f : OutPoint → Utxo → List (Key × Value)}
    (hr : r.eventActions scriptHash ns = fun e => (Ledger.updates f e).map writeAction) {k : Key}
    (hs : Ledger.Along (Ledger.Single f k) Table.empty (chain.flatMap r.eventsOf)) :
    ∃ o, RunsAt checks none (Keyed.of StorageAction.key (chainActions scriptHash ns r chain) k) o ∧
      ∀ v, o = some v ↔ Ledger.Lists f (unspentAfter chain) k v := by
  obtain ⟨hvalid, hrun⟩ := hchain.eventsOf r
  obtain ⟨o, hruns, ho⟩ := runsAt_writes checks hvalid hs (o := none) (by
    intro v
    refine iff_of_false (by simp) ?_
    rintro ⟨ref, u, hget, -⟩
    cases hget)
  refine ⟨o, ?_, ?_⟩
  · unfold chainActions
    rw [hr, ← List.map_flatMap]
    exact hruns
  · rw [hrun] at ho
    exact ho

/-- Reducers of counters, which take up every event. -/
theorem ValidChain.runsAt_amounts (hchain : ValidChain Table.empty chain) (checks : Bool) {r : Reducer}
    {c : CounterKind} {g : OutPoint → Utxo → List (Key × c.Amount)}
    (hr : r.eventActions scriptHash ns = counterActions c g) (hall : ∀ b, r.eventsOf b = b.events) {k : Key}
    (hb : Ledger.Along (fun t => counted c g k t < 256 ^ c.family.width) Table.empty
      (chain.flatMap EnrichedBlock.events)) :
    ∃ o, RunsAt checks none (Keyed.of StorageAction.key (chainActions scriptHash ns r chain) k) o ∧
      counterValue c.family.width o = counted c g k (unspentAfter chain) := by
  have hevents : chain.flatMap r.eventsOf = chain.flatMap EnrichedBlock.events := by
    have hfun : r.eventsOf = EnrichedBlock.events := funext hall
    rw [hfun]
  have hvalid : Ledger.Valid Table.empty (chain.flatMap EnrichedBlock.events) := by
    rw [← hevents]
    exact (hchain.eventsOf r).1
  obtain ⟨o, hruns, hreads⟩ := runsAt_counter checks hvalid hb (o := none) ⟨rfl, fun v h => by cases h⟩
  refine ⟨o, ?_, hreads.1⟩
  unfold chainActions
  rw [hevents, hr]
  exact hruns

/-- The events that a reducer takes up, for one that leaves out nothing. -/
theorem eventsOf_eq {r : Reducer} (hr : ∀ block ref, r.skips block ref = false) (b : EnrichedBlock) :
    r.eventsOf b = b.events :=
  List.filter_eq_self.mpr fun e _ => by rw [hr]; rfl

/-- What each reducer leaves at its keys. -/
theorem ValidChain.leaves (hchain : ValidChain Table.empty chain) (checks : Bool) (r : Reducer)
    (hrange : Ledger.Along (r.InRange scriptHash) Table.empty (chain.flatMap EnrichedBlock.events)) (k : Key) :
    ∃ o, RunsAt checks none (Keyed.of StorageAction.key (chainActions scriptHash ns r chain) k) o ∧
      r.Leaves scriptHash ns chain k o := by
  -- at every point of the chain: well formed and in range
  have hboth : Ledger.Along (fun t => (∀ ref u, t.get ref = some u → Utxo.WellFormed ref u) ∧
      r.InRange scriptHash t) Table.empty (chain.flatMap EnrichedBlock.events) :=
    Ledger.along_iff.mpr fun done rest h =>
      ⟨Ledger.along_iff.mp hchain.wellFormed done rest h, Ledger.along_iff.mp hrange done rest h⟩
  have hitems : ∀ r : Reducer, Ledger.Along (fun t => ∀ ref u, t.get ref = some u → Utxo.WellFormed ref u) Table.empty
      (chain.flatMap r.eventsOf) := by
    intro r
    refine Ledger.along_items (fun ref u hget => by cases hget) fun ref u hmem => ?_
    obtain ⟨b, hb, hin⟩ := List.mem_flatMap.mp hmem
    exact hchain.produce_wellFormed (List.mem_flatMap.mpr ⟨b, hb, (List.mem_filter.mp hin).1⟩)
  cases r with
  | utxosByScriptHash =>
    refine hchain.runsAt_entries checks rfl ((hitems _).imp fun t ht => ?_)
    refine Ledger.single_of_injective (fun ref u v ref' u' v' hget hget' hmem hmem' => ?_) fun ref u _ =>
      List.nodup_singleton _
    have hk : k = utxosByScriptHashKey ns (u.owner scriptHash) u.height ref :=
      congrArg Prod.fst (List.mem_singleton.mp hmem)
    have hk' : k = utxosByScriptHashKey ns (u'.owner scriptHash) u'.height ref' :=
      congrArg Prod.fst (List.mem_singleton.mp hmem')
    exact utxosByScriptHashKey_inj (ht ref u hget).vout (ht ref' u' hget').vout (hk.symm.trans hk')
  | utxosByRuneId =>
    refine hchain.runsAt_entries checks rfl ((hitems _).imp fun t ht => ?_)
    refine Ledger.single_of_injective (fun ref u v ref' u' v' hget hget' hmem hmem' => ?_) fun ref u hget => ?_
    · obtain ⟨e, he, heq⟩ := List.mem_map.mp hmem
      obtain ⟨e', he', heq'⟩ := List.mem_map.mp hmem'
      have hk := (congrArg Prod.fst heq).trans (congrArg Prod.fst heq').symm
      exact (utxosByRuneIdKey_inj ((ht ref u hget).dune e he) ((ht ref' u' hget').dune e' he') (ht ref u hget).vout
        (ht ref' u' hget').vout hk).2
    · have hu := ht ref u hget
      unfold runeUtxoEntries
      rw [List.map_map]
      refine List.Nodup.map_on (fun e he e' he' hk => ?_) hu.dunes.of_map
      have hid := (utxosByRuneIdKey_inj (hu.dune e he) (hu.dune e' he') hu.vout hu.vout hk).1
      exact List.inj_on_of_nodup_map hu.dunes he he' hid
  | inscriptionsByScriptHash =>
    have hevents : chain.flatMap (Reducer.eventsOf .inscriptionsByScriptHash) = chain.flatMap EnrichedBlock.events := by
      have hfun : Reducer.eventsOf .inscriptionsByScriptHash = EnrichedBlock.events :=
        funext fun b => eventsOf_eq (r := .inscriptionsByScriptHash) (fun _ _ => rfl) b
      rw [hfun]
    by_cases hs : Ledger.Along (Ledger.Single (inscriptionEntries scriptHash ns) k) Table.empty
        (chain.flatMap EnrichedBlock.events)
    · obtain ⟨o, hruns, ho⟩ := hchain.runsAt_entries checks rfl (by rw [hevents]; exact hs)
      exact ⟨o, hruns, fun _ => ho⟩
    · have hactions : chainActions scriptHash ns .inscriptionsByScriptHash chain =
          ((chain.flatMap (Reducer.eventsOf .inscriptionsByScriptHash)).flatMap
            (Ledger.updates (inscriptionEntries scriptHash ns))).map writeAction := by
        rw [List.map_flatMap]
        rfl
      rw [hactions]
      exact ⟨_, runsAt_writeActions checks k none _, fun hs' => absurd hs' hs⟩
  | satBalanceByScriptHash =>
    refine hchain.runsAt_amounts checks (c := .u64) rfl (eventsOf_eq fun _ _ => rfl) (hboth.imp fun t ht => ?_)
    exact (InRange.counted_lt ht.1 k).1 ht.2
  | balancesByRuneId =>
    refine hchain.runsAt_amounts checks (c := .u128) rfl (eventsOf_eq fun _ _ => rfl) (hboth.imp fun t ht => ?_)
    exact (InRange.counted_lt ht.1 k).2.1 ht.2
  | runeBalancesByScriptHash =>
    refine hchain.runsAt_amounts checks (c := .u128) rfl (eventsOf_eq fun _ _ => rfl) (hboth.imp fun t ht => ?_)
    exact (InRange.counted_lt ht.1 k).2.2 ht.2

/-- **Every configuration of the reducers, over every chain of valid blocks and in any batching**: the blocks are
reduced, the batches commit, and each reducer leaves at its keys what the unspent outputs carry and hold, as long as
its counters can say it. -/
theorem reduced_and_committed (ns : Namespace) (checks : Bool) (policy : RuntimePolicy) {reducers : List Reducer}
    (hchain : ValidChain Table.empty chain) (hnodup : reducers.Nodup)
    (hrange : ∀ r ∈ reducers, Ledger.Along (r.InRange scriptHash) Table.empty (chain.flatMap EnrichedBlock.events)) :
    ∃ blocks, chain.mapM (blockActions scriptHash policy ns reducers) = some blocks ∧
      ∀ batches : List (HashOrder × List (List StorageAction)), (batches.map Prod.snd).flatten = blocks →
        ∃ store, executeBatches checks Table.empty batches = some store ∧
          ∀ r ∈ reducers, ∀ k, ns.dataPrefix r.tag <+: k →
            ∃ o, r.Leaves scriptHash ns chain k o ∧ SameValue r.family (store.get k) o :=
  indexed hchain hnodup fun r hr k _ => hchain.leaves checks r (hrange r hr) k

end

end DogeIndexer.Polyphony.Reducers
