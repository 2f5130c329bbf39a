import DogeIndexer.Compressor.Etchings
import DogeIndexer.Polyphony.Carried
import DogeIndexer.Polyphony.Handover
import DogeIndexer.Polyphony.Recording

/-!
# Dunes by name and by number

Model of the reducers `etching_by_rune_id` and `rune_id_by_rune_name` (`polyphony-xdg/src/reducers`), with their cases
of `reducer_output_to_storage_ops` (`storage/tikv.rs`).  They decode the dunestones of the transactions that the block's
context reports, with the names that it reports.

* `mem_etchingEntries`, `mem_nameEntries` — what is entered for a block.
* `Sent.etchings_read`, `Sent.names_read` — what is read of the chain of a node is what its dune tables say.
-/

set_option autoImplicit false

namespace DogeIndexer.Polyphony.Reducers

open Compressor (Bytes Txid DuneId Transaction Block Dunestone Etching Deps Node Tables EtchesDune entryTerms)
open Timbre (Namespace)

/-! ## The reducers -/

namespace EtchingByRuneId

structure EtchingInfo where
  name : Option U128
  spacers : Option Nat
  symbol : Option Nat
  divisibility : Option Nat
  maxMintTxs : Option U128
  amountPerMint : Option U128
  startHeight : Option Nat
  endHeight : Option Nat
  startOffset : Option Nat
  endOffset : Option Nat
  turbo : Bool

structure Output where
  runeId : DuneId
  txHash : Txid
  etching : EtchingInfo
  cenotaph : Bool

/-- The details of an etching under its reported name; a cenotaph has none. -/
def infoOf (name : Option U128) (etch : Etching) (cenotaph : Bool) : EtchingInfo :=
  if cenotaph then ⟨name, some 0, none, some 0, none, none, none, none, none, none, false⟩
  else
    { name := name
      spacers := etch.spacers
      symbol := etch.symbol.map Char.toNat
      divisibility := etch.divisibility
      maxMintTxs := etch.terms.bind fun t => t.cap
      amountPerMint := etch.terms.bind fun t => t.limit
      startHeight := etch.terms.bind fun t => t.height.1
      endHeight := etch.terms.bind fun t => t.height.2
      startOffset := etch.terms.bind fun t => t.offset.1
      endOffset := etch.terms.bind fun t => t.offset.2
      turbo := etch.turbo }

end EtchingByRuneId

namespace RuneIdByRuneName

structure Output where
  runeName : U128
  runeId : DuneId

end RuneIdByRuneName

/-- `ctx.rune_etch_idxs` collected into a `HashMap`. -/
def nameMap (runeEtchIdxs : List (Nat × U128)) : Table Nat U128 := Table.empty.insertAll runeEtchIdxs

/-- The loop of both reducers: the dunestones that etch, of the reported transactions, with the number of each cast to 32
bits. -/
def reduceEtchings {α : Type} (deps : Deps) (output : Nat → Transaction → Dunestone → Etching → List α) (block : Block)
    (ctx : BlockContext) : List α :=
  (block.txdata.zipIdx.filter fun e => (ctx.runeEtchIdxs.map Prod.fst).contains (e.2 % 2 ^ 32)).flatMap fun e =>
    match Dunestone.fromTransaction deps e.1 with
    | some dunestone =>
      match dunestone.etching with
      | some etch => output (e.2 % 2 ^ 32) e.1 dunestone etch
      | none => []
    | none => []

def EtchingByRuneId.reduceBlock (deps : Deps) (height : Nat) (block : Block) (ctx : BlockContext) :
    List EtchingByRuneId.Output :=
  reduceEtchings deps (fun idx tx dunestone etch =>
    [⟨⟨height, idx⟩, tx.txid, infoOf ((nameMap ctx.runeEtchIdxs).get idx) etch dunestone.cenotaph, dunestone.cenotaph⟩])
    block ctx

def RuneIdByRuneName.reduceBlock (deps : Deps) (height : Nat) (block : Block) (ctx : BlockContext) :
    List RuneIdByRuneName.Output :=
  reduceEtchings deps (fun idx _ _ _ =>
    match (nameMap ctx.runeEtchIdxs).get idx with
    | some name => [⟨name, ⟨height, idx⟩⟩]
    | none => [])
    block ctx

/-! ## Storage actions -/

def etchingByRuneIdKey (ns : Namespace) (runeId : DuneId) : Key :=
  ns.data .etchingByRuneId Timbre.EtchingByRuneId.key (runeIdVal runeId)

def runeIdByRuneNameKey (ns : Namespace) (runeName : U128) : Key :=
  ns.data .runeIdByRuneName Timbre.RuneIdByRuneName.key (uint 16 runeName.val)

def etchingByRuneIdValue (txHash : Txid) (etching : EtchingByRuneId.EtchingInfo) (cenotaph : Bool) : Value :=
  Timbre.EtchingByRuneId.value.encode
    (array32 txHash, etching.name.map fun name => uint 16 name.val, etching.spacers.map (uint 4),
      etching.symbol.map (uint 4), etching.divisibility.map (uint 1), none,
      etching.maxMintTxs.map fun cap => uint 16 cap.val, etching.amountPerMint.map fun amount => uint 16 amount.val,
      etching.startHeight.map (uint 8), etching.endHeight.map (uint 8), etching.startOffset.map (uint 8),
      etching.endOffset.map (uint 8), etching.turbo, cenotaph)

def runeIdByRuneNameValue (runeId : DuneId) : Value := Timbre.RuneIdByRuneName.value.encode (runeIdVal runeId)

def EtchingByRuneId.Output.toStorageOps (ns : Namespace) (o : EtchingByRuneId.Output) : List StorageAction :=
  [.set (etchingByRuneIdKey ns o.runeId) (etchingByRuneIdValue o.txHash o.etching o.cenotaph)]

def RuneIdByRuneName.Output.toStorageOps (ns : Namespace) (o : RuneIdByRuneName.Output) : List StorageAction :=
  [.set (runeIdByRuneNameKey ns o.runeName) (runeIdByRuneNameValue o.runeId)]

/-! ## What is written -/

section

variable (deps : Deps) (ns : Namespace) (b : EnrichedBlock)

def etchingEntries : List (Key × Value) :=
  (EtchingByRuneId.reduceBlock deps b.point.height b.block b.ctx).map fun o =>
    (etchingByRuneIdKey ns o.runeId, etchingByRuneIdValue o.txHash o.etching o.cenotaph)

def nameEntries : List (Key × Value) :=
  (RuneIdByRuneName.reduceBlock deps b.point.height b.block b.ctx).map fun o =>
    (runeIdByRuneNameKey ns o.runeName, runeIdByRuneNameValue o.runeId)

variable {deps b}

theorem mem_reduceEtchings {α : Type} {output : Nat → Transaction → Dunestone → Etching → List α} {a : α}
    (hcount : b.block.txdata.length < 2 ^ 32) :
    a ∈ reduceEtchings deps output b.block b.ctx ↔ ∃ idx tx dunestone etch,
      b.block.txdata[idx]? = some tx ∧ idx ∈ b.ctx.runeEtchIdxs.map Prod.fst ∧
      Dunestone.fromTransaction deps tx = some dunestone ∧ dunestone.etching = some etch ∧
      a ∈ output idx tx dunestone etch := by
  unfold reduceEtchings
  rw [List.mem_flatMap]
  constructor
  · rintro ⟨⟨tx, idx⟩, he, ha⟩
    obtain ⟨hmem, hreported⟩ := List.mem_filter.mp he
    have hget := List.mem_zipIdx_iff_getElem?.mp hmem
    have hlt := (List.getElem?_eq_some_iff.mp hget).1
    rw [List.contains_iff_mem, Nat.mod_eq_of_lt (by omega)] at hreported
    split at ha
    · rename_i dunestone hdunestone
      split at ha
      · rename_i etch hetch
        rw [Nat.mod_eq_of_lt (by omega)] at ha
        exact ⟨idx, tx, dunestone, etch, hget, hreported, hdunestone, hetch, ha⟩
      · cases ha
    · cases ha
  · rintro ⟨idx, tx, dunestone, etch, hget, hreported, hdunestone, hetch, ha⟩
    have hlt := (List.getElem?_eq_some_iff.mp hget).1
    have hidx : idx % 2 ^ 32 = idx := Nat.mod_eq_of_lt (by omega)
    refine ⟨(tx, idx), List.mem_filter.mpr ⟨List.mem_zipIdx_iff_getElem?.mpr hget, ?_⟩, ?_⟩
    · rw [List.contains_iff_mem, hidx]
      exact hreported
    · simp only [hdunestone, hetch, hidx]
      exact ha

/-- The name under a number, when the numbers are distinct. -/
theorem get_nameMap {etches : List (Nat × U128)} (hnodup : (etches.map Prod.fst).Nodup) {idx : Nat} {name : U128} :
    (nameMap etches).get idx = some name ↔ (idx, name) ∈ etches := by
  unfold nameMap
  constructor
  · intro hget
    rcases Table.get_insertAll hget with hmem | ⟨-, hget⟩
    · exact hmem
    · cases hget
  · exact fun hmem => Table.get_insertAll_of_mem hnodup hmem

/-- **The etchings that are entered for a block** are those that its context reports. -/
theorem mem_etchingEntries (hcount : b.block.txdata.length < 2 ^ 32) (hnodup : (b.ctx.runeEtchIdxs.map Prod.fst).Nodup)
    {k : Key} {v : Value} :
    (k, v) ∈ etchingEntries deps ns b ↔ ∃ idx name tx dunestone etch,
      (idx, name) ∈ b.ctx.runeEtchIdxs ∧ b.block.txdata[idx]? = some tx ∧
      Dunestone.fromTransaction deps tx = some dunestone ∧ dunestone.etching = some etch ∧
      k = etchingByRuneIdKey ns ⟨b.point.height, idx⟩ ∧
      v = etchingByRuneIdValue tx.txid (EtchingByRuneId.infoOf (some name) etch dunestone.cenotaph)
        dunestone.cenotaph := by
  unfold etchingEntries EtchingByRuneId.reduceBlock
  rw [List.mem_map]
  constructor
  · rintro ⟨o, ho, heq⟩
    obtain ⟨idx, tx, dunestone, etch, hget, hreported, hdunestone, hetch, ho⟩ := (mem_reduceEtchings hcount).mp ho
    obtain ⟨⟨idx', name⟩, hmem, rfl⟩ := List.mem_map.mp hreported
    rw [List.mem_singleton.mp ho, (get_nameMap hnodup).mpr hmem] at heq
    exact ⟨idx', name, tx, dunestone, etch, hmem, hget, hdunestone, hetch, (congrArg Prod.fst heq).symm,
      (congrArg Prod.snd heq).symm⟩
  · rintro ⟨idx, name, tx, dunestone, etch, hmem, hget, hdunestone, hetch, hk, hv⟩
    rw [hk, hv]
    refine ⟨⟨⟨b.point.height, idx⟩, tx.txid, EtchingByRuneId.infoOf (some name) etch dunestone.cenotaph,
      dunestone.cenotaph⟩, (mem_reduceEtchings hcount).mpr
        ⟨idx, tx, dunestone, etch, hget, List.mem_map_of_mem hmem, hdunestone, hetch, ?_⟩, rfl⟩
    rw [(get_nameMap hnodup).mpr hmem]
    exact List.mem_singleton_self _

/-- And so are the names. -/
theorem mem_nameEntries (hcount : b.block.txdata.length < 2 ^ 32) (hnodup : (b.ctx.runeEtchIdxs.map Prod.fst).Nodup)
    {k : Key} {v : Value} :
    (k, v) ∈ nameEntries deps ns b ↔ ∃ idx name tx dunestone,
      (idx, name) ∈ b.ctx.runeEtchIdxs ∧ b.block.txdata[idx]? = some tx ∧ EtchesDune deps tx dunestone ∧
      k = runeIdByRuneNameKey ns name ∧ v = runeIdByRuneNameValue ⟨b.point.height, idx⟩ := by
  unfold nameEntries RuneIdByRuneName.reduceBlock
  rw [List.mem_map]
  constructor
  · rintro ⟨o, ho, heq⟩
    obtain ⟨idx, tx, dunestone, etch, hget, hreported, hdunestone, hetch, ho⟩ := (mem_reduceEtchings hcount).mp ho
    obtain ⟨⟨idx', name⟩, hmem, rfl⟩ := List.mem_map.mp hreported
    rw [(get_nameMap hnodup).mpr hmem] at ho
    rw [List.mem_singleton.mp ho] at heq
    exact ⟨idx', name, tx, dunestone, hmem, hget, ⟨hdunestone, by rw [hetch]; rfl⟩, (congrArg Prod.fst heq).symm,
      (congrArg Prod.snd heq).symm⟩
  · rintro ⟨idx, name, tx, dunestone, hmem, hget, ⟨hdunestone, hsome⟩, rfl, rfl⟩
    obtain ⟨etch, hetch⟩ := Option.isSome_iff_exists.mp hsome
    refine ⟨⟨name, ⟨b.point.height, idx⟩⟩, (mem_reduceEtchings hcount).mpr ⟨idx, tx, dunestone, etch, hget,
      List.mem_map_of_mem hmem, hdunestone, hetch, ?_⟩, rfl⟩
    rw [(get_nameMap hnodup).mpr hmem]
    exact List.mem_singleton_self _

end

inductive EtchingReducer where
  | etchingByRuneId
  | runeIdByRuneName
  deriving DecidableEq

section

variable (deps : Deps) (ns : Namespace)

namespace EtchingReducer

def tag : EtchingReducer → Timbre.Reducer
  | etchingByRuneId => .etchingByRuneId
  | runeIdByRuneName => .runeIdByRuneName

/-- The storage actions of a block. -/
def reduce (b : EnrichedBlock) : EtchingReducer → Option (List StorageAction)
  | etchingByRuneId =>
    some ((EtchingByRuneId.reduceBlock deps b.point.height b.block b.ctx).flatMap fun o => o.toStorageOps ns)
  | runeIdByRuneName =>
    some ((RuneIdByRuneName.reduceBlock deps b.point.height b.block b.ctx).flatMap fun o => o.toStorageOps ns)

/-- What it writes for a block. -/
def entries (b : EnrichedBlock) : EtchingReducer → List (Key × Value)
  | etchingByRuneId => etchingEntries deps ns b
  | runeIdByRuneName => nameEntries deps ns b

theorem reduced (r : EtchingReducer) (chain : List EnrichedBlock) :
    Reduced ns [r.tag] chain (fun b => r.reduce deps ns b) fun b => setActions (r.entries deps ns b) := by
  refine .of_entries (by cases r <;> rfl) (fun b _ => ?_) fun b _ e he => ?_
  · cases r with
    | etchingByRuneId =>
      refine congrArg some ?_
      unfold entries etchingEntries
      rw [setActions_map]
      rfl
    | runeIdByRuneName =>
      refine congrArg some ?_
      unfold entries nameEntries
      rw [setActions_map]
      rfl
  · cases r with
    | etchingByRuneId =>
      obtain ⟨o, -, rfl⟩ := List.mem_map.mp he
      exact List.prefix_append _ _
    | runeIdByRuneName =>
      obtain ⟨o, -, rfl⟩ := List.mem_map.mp he
      exact List.prefix_append _ _

end EtchingReducer

variable {ns}

theorem etchingByRuneIdKey_inj {id id' : DuneId} (hblock : id.block < 2 ^ 64) (hblock' : id'.block < 2 ^ 64)
    (htx : id.tx < 2 ^ 32) (htx' : id'.tx < 2 ^ 32) (h : etchingByRuneIdKey ns id = etchingByRuneIdKey ns id') :
    id = id' := by
  obtain ⟨hblocks, htxs⟩ := fields_inj (dataKey_inj (t := Timbre.EtchingByRuneId.key) (by simp [Timbre.schema]) rfl h)
  obtain ⟨block, tx⟩ := id
  obtain ⟨block', tx'⟩ := id'
  cases uint_inj (w := 8) hblock hblock' hblocks
  cases uint_inj (w := 4) htx htx' htxs
  rfl

theorem runeIdByRuneNameKey_inj {name name' : U128} (h : runeIdByRuneNameKey ns name = runeIdByRuneNameKey ns name') :
    name = name' :=
  Fin.ext (uint_inj (w := 16) name.isLt name'.isLt
    (dataKey_inj (t := Timbre.RuneIdByRuneName.key) (by simp [Timbre.schema]) rfl h))

end

/-! ## The chain of a node -/

section

variable {deps : Deps} {ns : Namespace} {t : Tables} {chain : List EnrichedBlock}

/-- What the context of a block that is received reports. -/
structure EnrichedBlock.Etched (deps : Deps) (t : Tables) (b : EnrichedBlock) : Prop where
  count : b.block.txdata.length < 2 ^ 32
  nodup : (b.ctx.runeEtchIdxs.map Prod.fst).Nodup
  stored : ∀ idx tx, b.block.txdata[idx]? = some tx ↔ t.Stored ⟨b.point.height, idx⟩ tx
  reported : ∀ idx name, (idx, name) ∈ b.ctx.runeEtchIdxs ↔ t.Reported ⟨b.point.height, idx⟩ name

theorem Sent.etched (hsent : Sent t) (hetched : t.Etched deps)
    (hchain : List.Forall₂ (Received t) t.blockByHeight.entries chain) {b : EnrichedBlock} (hb : b ∈ chain) :
    b.Etched deps t := by
  obtain ⟨hash, entry, hblock, hentry, hctx⟩ := hsent.stored_of_mem hchain hb
  have hcount := hetched.count _ _ _ hblock
  have hetches : b.ctx.runeEtchIdxs = entry.etches := by
    rw [hctx]
    rfl
  refine ⟨by omega, ?_, fun idx tx => ?_, fun idx name => ?_⟩
  · rw [hetches]
    exact hetched.nodup _ _ hentry
  · unfold Tables.Stored
    constructor
    · exact fun hget => ⟨hash, b.block, hblock, hget⟩
    · rintro ⟨hash', block, hget, hat⟩
      rw [hblock] at hget
      cases hget
      exact hat
  · rw [hetches]
    unfold Tables.Reported
    constructor
    · exact fun hmem => ⟨entry, hentry, hmem⟩
    · rintro ⟨entry', hget, hmem⟩
      rw [hentry] at hget
      cases hget
      exact hmem

/-- The block that a dune was etched in is received. -/
theorem Sent.exists_block (hsent : Sent t) (hchain : List.Forall₂ (Received t) t.blockByHeight.entries chain)
    {id : DuneId} {tx : Transaction} (hstored : t.Stored id tx) : ∃ b ∈ chain, b.point.height = id.block := by
  obtain ⟨hash, block, hget, -⟩ := hstored
  obtain ⟨b, hb, hheight, -⟩ := hsent.mem_of_stored hchain hget
  exact ⟨b, hb, hheight⟩

/-- **The name of a dune is read as the node has it.** -/
theorem Sent.names_read (hsent : Sent t) (hnamed : t.Named deps) (hetched : t.Etched deps)
    (hchain : List.Forall₂ (Received t) t.blockByHeight.entries chain) (name : U128) (v : Value) :
    Ledger.reading (runeIdByRuneNameKey ns name) none (Ledger.assignments (chain.flatMap (nameEntries deps ns))) = some v ↔
      ∃ id, t.dunes.idByName.get name = some id ∧ v = runeIdByRuneNameValue id := by
  have hmem : ∀ v, (runeIdByRuneNameKey ns name, v) ∈ chain.flatMap (nameEntries deps ns) ↔
      ∃ id, t.dunes.idByName.get name = some id ∧ v = runeIdByRuneNameValue id := by
    intro v
    rw [List.mem_flatMap]
    constructor
    · rintro ⟨b, hb, hmem⟩
      have hb := hsent.etched hetched hchain hb
      obtain ⟨idx, name', tx, dunestone, hreported, htx, hetches, hk, hv⟩ :=
        (mem_nameEntries ns hb.count hb.nodup).mp hmem
      obtain rfl := runeIdByRuneNameKey_inj hk
      refine ⟨⟨b.point.height, idx⟩, (hnamed.inUse.bijective _ _).mpr ⟨entryTerms dunestone name b.point.height, ?_,
        Compressor.entryTerms_name _ _ _⟩, hv⟩
      exact (hetched.entered _ _).mpr ⟨name, tx, dunestone, (hb.reported idx name).mp hreported,
        (hb.stored idx tx).mp htx, hetches, rfl⟩
    · rintro ⟨⟨height, idx⟩, hid, hv⟩
      obtain ⟨terms, hterms, hname⟩ := (hnamed.inUse.bijective _ _).mp hid
      obtain ⟨name', tx, dunestone, hreported, hstored, hetches, rfl⟩ := (hetched.entered _ _).mp hterms
      rw [Compressor.entryTerms_name] at hname
      subst hname
      obtain ⟨b, hb, rfl⟩ := hsent.exists_block hchain hstored
      have hbetched := hsent.etched hetched hchain hb
      exact ⟨b, hb, (mem_nameEntries ns hbetched.count hbetched.nodup).mpr
        ⟨idx, name', tx, dunestone, (hbetched.reported idx name').mpr hreported, (hbetched.stored idx tx).mpr hstored,
          hetches, rfl, hv⟩⟩
  rw [Ledger.reading_assignments, hmem]
  intro v v' hv hv'
  obtain ⟨id, hid, rfl⟩ := (hmem v).mp hv
  obtain ⟨id', hid', rfl⟩ := (hmem v').mp hv'
  rw [hid] at hid'
  cases hid'
  rfl

/-- What is entered for a dune: the transaction that etched it, and its dunestone. -/
def EtchingStored (deps : Deps) (t : Tables) (id : DuneId) (v : Value) : Prop :=
  ∃ terms tx dunestone etch, t.dunes.termsById.get id = some terms ∧ t.Stored id tx ∧
    Dunestone.fromTransaction deps tx = some dunestone ∧ dunestone.etching = some etch ∧
    terms = entryTerms dunestone terms.name id.block ∧
    v = etchingByRuneIdValue tx.txid (EtchingByRuneId.infoOf (some terms.name) etch dunestone.cenotaph)
      dunestone.cenotaph

/-- **The etching of a dune is read as the node has it.** -/
theorem Sent.etchings_read (hsent : Sent t) (hetched : t.Etched deps)
    (hchain : List.Forall₂ (Received t) t.blockByHeight.entries chain) {id : DuneId} (hblock : id.block < 2 ^ 64)
    (htx : id.tx < 2 ^ 32) (v : Value) :
    Ledger.reading (etchingByRuneIdKey ns id) none (Ledger.assignments (chain.flatMap (etchingEntries deps ns))) = some v ↔
      EtchingStored deps t id v := by
  obtain ⟨hvalid, -⟩ := hsent.chain chain hchain
  have hmem : ∀ v, (etchingByRuneIdKey ns id, v) ∈ chain.flatMap (etchingEntries deps ns) ↔ EtchingStored deps t id v := by
    intro v
    rw [List.mem_flatMap]
    constructor
    · rintro ⟨b, hb, hmem⟩
      obtain ⟨u, hbvalid⟩ := hvalid.valid_of_mem hb
      have hbetched := hsent.etched hetched hchain hb
      obtain ⟨idx, name, tx, dunestone, etch, hreported, hget, hdunestone, hetch, hk, hv⟩ :=
        (mem_etchingEntries ns hbetched.count hbetched.nodup).mp hmem
      have hidx : idx < 2 ^ 32 := lt_trans (List.getElem?_eq_some_iff.mp hget).1 hbetched.count
      obtain rfl := etchingByRuneIdKey_inj hblock hbvalid.height htx hidx hk
      have hname := Compressor.entryTerms_name dunestone name b.point.height
      have hstored := (hbetched.stored idx tx).mp hget
      refine ⟨entryTerms dunestone name b.point.height, tx, dunestone, etch, (hetched.entered _ _).mpr
        ⟨name, tx, dunestone, (hbetched.reported idx name).mp hreported, hstored, ⟨hdunestone, by rw [hetch]; rfl⟩, rfl⟩,
        hstored, hdunestone, hetch, by rw [hname], ?_⟩
      rw [hname]
      exact hv
    · rintro ⟨terms, tx, dunestone, etch, hterms, hstored, hdunestone, hetch, -, hv⟩
      obtain ⟨name, tx', dunestone', hreported, hstored', hetches, rfl⟩ := (hetched.entered _ _).mp hterms
      obtain ⟨height, idx⟩ := id
      obtain ⟨b, hb, rfl⟩ := hsent.exists_block hchain hstored
      have hbetched := hsent.etched hetched hchain hb
      rw [Compressor.entryTerms_name] at hv
      exact ⟨b, hb, (mem_etchingEntries ns hbetched.count hbetched.nodup).mpr
        ⟨idx, name, tx, dunestone, etch, (hbetched.reported idx name).mpr hreported, (hbetched.stored idx tx).mpr hstored,
          hdunestone, hetch, rfl, hv⟩⟩
  rw [Ledger.reading_assignments, hmem]
  intro v v' hv hv'
  obtain ⟨terms, tx, dunestone, etch, hterms, hstored, hdunestone, hetch, -, heq⟩ := (hmem v).mp hv
  obtain ⟨terms', tx', dunestone', etch', hterms', hstored', hdunestone', hetch', -, heq'⟩ := (hmem v').mp hv'
  rw [hterms] at hterms'
  cases hterms'
  obtain ⟨b, hb, hheight⟩ := hsent.exists_block hchain hstored
  have hbetched := hsent.etched hetched hchain hb
  obtain ⟨height, idx⟩ := id
  obtain rfl := hheight
  have htx := (hbetched.stored idx tx).mpr hstored
  rw [(hbetched.stored idx tx').mpr hstored'] at htx
  cases htx
  rw [hdunestone] at hdunestone'
  cases hdunestone'
  rw [hetch] at hetch'
  cases hetch'
  rw [heq, heq']

end

end DogeIndexer.Polyphony.Reducers
