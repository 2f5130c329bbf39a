import DogeIndexer.Compressor.Names
import DogeIndexer.Compressor.Partials
import Mathlib.Data.List.Chain

/-!
# What inscriptions are revealed by

A recorded inscription is what its transactions say: stored transactions, each of which continues the one
before with its first input, that the parser completes to the recorded content.  The first of them gives
the id, and the last is in the block that records it.

* `InscriptionsStep.revealed` — one transaction.
* `Reach.located` — a transaction is stored once.
* `recorded_as_revealed` — every record of a reachable node, whatever was applied and rolled back.
-/

set_option autoImplicit false

namespace DogeIndexer.Compressor

open Fallible Effect

/-! ## Pieces of inscriptions -/

/-- The transaction is in a stored block. -/
def Tables.HasTransaction (t : Tables) (tx : Transaction) : Prop :=
  ∃ e ∈ t.blockByHeight.entries, tx ∈ e.2.2.txdata

theorem Tables.HasTransaction.hasTx {t : Tables} {tx : Transaction} (h : t.HasTransaction tx) : t.HasTx tx.txid := by
  obtain ⟨e, he, htx⟩ := h
  exact ⟨e, he, List.mem_map_of_mem htx⟩

/-- The output of a stored transaction. -/
def Tables.HasOutput (t : Tables) (ref : TxoRef) (txo : TxOut) : Prop :=
  ∃ tx, t.HasTransaction tx ∧ ref.txid = tx.txid ∧ tx.output[ref.vout]? = some txo

theorem Tables.hasTransaction_iff {t : Tables} {tx : Transaction} : t.HasTransaction tx ↔ ∃ id, t.Stored id tx := by
  constructor
  · rintro ⟨⟨height, hash, block⟩, he, htx⟩
    obtain ⟨idx, hidx⟩ := List.mem_iff_getElem?.mp htx
    exact ⟨⟨height, idx⟩, hash, block, Table.mem_entries.mp he, hidx⟩
  · rintro ⟨id, hash, block, hget, hidx⟩
    exact ⟨(id.block, hash, block), Table.mem_entries.mpr hget, List.mem_of_getElem? hidx⟩

/-- With its first input, the transaction spends an output of the one before. -/
def Continues (before tx : Transaction) : Prop :=
  ∃ first, tx.input.head? = some first ∧ first.previousOutput.txid = before.txid

/-- Known transactions that continue one another, with what is parsed of them together. -/
structure Pieces (known : Transaction → Prop) (txs : List Transaction) (parsed : ParsedInscription) : Prop where
  known : ∀ tx ∈ txs, known tx
  continued : txs.IsChain Continues
  parsed : Inscription.fromTransactions txs = parsed

theorem Pieces.mono {known known' : Transaction → Prop} {txs : List Transaction} {parsed : ParsedInscription}
    (h : Pieces known txs parsed) (hknown : ∀ tx, known tx → known' tx) : Pieces known' txs parsed :=
  ⟨fun tx htx => hknown tx (h.known tx htx), h.continued, h.parsed⟩

/-- The tables list the pieces of partial inscriptions. -/
def PartialTables.Lists (known : Transaction → Prop) (p : PartialTables) : Prop :=
  ∀ q chain, p.txids.get q = some chain → ∃ txs tx, tx.txid = q ∧ chain = (txs ++ [tx]).map Transaction.txid ∧
    Pieces known (txs ++ [tx]) .partial_ ∧ ∀ x ∈ txs ++ [tx], p.bytes.get x.txid = some x

theorem PartialTables.Lists.mono {known known' : Transaction → Prop} {p : PartialTables} (h : p.Lists known)
    (hknown : ∀ tx, known tx → known' tx) : p.Lists known' := by
  intro q chain hget
  obtain ⟨txs, tx, hq, hchain, hpieces, hbytes⟩ := h q chain hget
  exact ⟨txs, tx, hq, hchain, hpieces.mono hknown, hbytes⟩

/-- The record is of an inscription that the transaction completes. -/
structure NewInscriptionInfo.RevealedBy (known : Transaction → Prop) (info : NewInscriptionInfo) (tx : Transaction)
    (before : List Transaction) (inscription : Inscription) : Prop where
  pieces : Pieces known (before ++ [tx]) (.complete inscription)
  txHash : info.txHash = tx.txid
  id : info.id = ⟨((before ++ [tx]).headD tx).txid, 0⟩
  body : info.body = inscription.body
  bodyType : info.bodyType = inscription.contentTypeStr.getD []

theorem NewInscriptionInfo.RevealedBy.mono {known known' : Transaction → Prop} {info : NewInscriptionInfo}
    {tx : Transaction} {before : List Transaction} {inscription : Inscription}
    (h : info.RevealedBy known tx before inscription) (hknown : ∀ tx, known tx → known' tx) :
    info.RevealedBy known' tx before inscription :=
  ⟨h.pieces.mono hknown, h.txHash, h.id, h.body, h.bodyType⟩

/-! ## One transaction -/

section

variable {deps : Deps} {cfg : Config} {height : Nat} {tx : Transaction} {known : Transaction → Prop}

/-- What a reveal does to the records and the partial inscriptions. -/
theorem reveal_cases {checks : Bool} {txid : Txid} {tin tout : U64} {s after : InscriptionState} {revealed : List Flotsam}
    {messages : List (InscriptionId × RawProtocolMessage)}
    (h : reveal deps checks tx txid tin tout s = .ok (revealed, messages, after)) :
    after = s ∨ ∃ first chain txs, tx.input.head? = some first ∧
      previousPartials s.partials first.previousOutput.txid = .ok (chain, txs) ∧
      ((Inscription.fromTransactions (txs ++ [tx]) = .partial_ ∧ after = { s with partials :=
          ⟨s.partials.txids.insert txid (chain ++ [txid]), s.partials.bytes.insert txid tx⟩ }) ∨
        ∃ inscription, Inscription.fromTransactions (txs ++ [tx]) = .complete inscription ∧
          after = { s with newInscriptions := s.newInscriptions ++ [⟨txid, ⟨(chain ++ [txid]).headD txid, 0⟩,
            s.counters.nextSequenceNum, inscription.body, inscription.contentTypeStr.getD []⟩] }) := by
  unfold reveal at h
  obtain ⟨first, hfirst, h⟩ := bind_eq_ok.mp h
  obtain ⟨⟨chain, txs⟩, hchain, h⟩ := bind_eq_ok.mp h
  have hfirst := orPanic_eq_ok.mp hfirst
  simp only at h
  cases hparse : Inscription.fromTransactions (txs ++ [tx]) with
  | none =>
    rw [hparse] at h
    cases h
    exact Or.inl rfl
  | partial_ =>
    rw [hparse] at h
    cases h
    exact Or.inr ⟨first, chain, txs, hfirst, hchain, Or.inl ⟨hparse, rfl⟩⟩
  | complete inscription =>
    rw [hparse] at h
    obtain ⟨fee, -, h⟩ := bind_eq_ok.mp h
    cases h
    exact Or.inr ⟨first, chain, txs, hfirst, hchain, Or.inr ⟨inscription, hparse, rfl⟩⟩

/-- The pieces that the first input continues. -/
theorem PartialTables.Lists.previous {p : PartialTables} (h : p.Lists known) {first : TxIn} {chain : List Txid}
    {txs : List Transaction} (hfirst : tx.input.head? = some first)
    (hchain : previousPartials p first.previousOutput.txid = .ok (chain, txs)) :
    chain = txs.map Transaction.txid ∧ (∀ x ∈ txs, known x ∧ p.bytes.get x.txid = some x) ∧
      (txs ++ [tx]).IsChain Continues := by
  unfold previousPartials at hchain
  cases hget : p.txids.get first.previousOutput.txid with
  | none =>
    rw [hget] at hchain
    cases hchain
    exact ⟨rfl, fun x hx => (List.not_mem_nil hx).elim, List.isChain_singleton _⟩
  | some l =>
    obtain ⟨before, last, hlast, rfl, hpieces, hbytes⟩ := h _ _ hget
    rw [hget] at hchain
    obtain ⟨found, hfound, hchain⟩ := bind_eq_ok.mp hchain
    cases hchain
    -- the transactions that are found are the listed ones
    have hcollect : ∀ l : List Transaction, (∀ x ∈ l, p.bytes.get x.txid = some x) →
        ((l.map Transaction.txid).mapM fun txid => orPanic (p.bytes.get txid)) = .ok l := by
      intro l hl
      induction l with
      | nil => rfl
      | cons x l ih =>
        rw [List.map_cons, List.mapM_cons, hl x List.mem_cons_self, ih fun y hy => hl y (List.mem_cons_of_mem _ hy)]
        rfl
    rw [hcollect _ hbytes] at hfound
    cases hfound
    refine ⟨rfl, fun x hx => ⟨hpieces.known x hx, hbytes x hx⟩, ?_⟩
    rw [List.append_assoc, List.singleton_append, List.isChain_append_cons_cons]
    exact ⟨hpieces.continued, ⟨first, hfirst, hlast.symm⟩, List.isChain_singleton _⟩

theorem headD_map_txid (before : List Transaction) (tx : Transaction) :
    (before.map Transaction.txid ++ [tx.txid]).headD tx.txid = ((before ++ [tx]).headD tx).txid := by
  cases before <;> rfl

/-- **One transaction** lists its piece, or records what it completes. -/
theorem InscriptionsStep.revealed {resolver : Table TxoRef TxoBody} {s s' : InscriptionState}
    {placed : List (List (U64 × InscriptionId))} {transfers : Table InscriptionId (Ticker × U128)}
    {messages : List (InscriptionId × BRC20Message)}
    (hstep : InscriptionsStep deps cfg height tx resolver s placed transfers messages s')
    (hnew : ∀ x, known x → x.txid ≠ tx.txid) (h : s.partials.Lists known) :
    s'.partials.Lists (fun x => known x ∨ x = tx) ∧ (s'.newInscriptions = s.newInscriptions ∨
      ∃ info before inscription, s'.newInscriptions = s.newInscriptions ++ [info] ∧
        info.RevealedBy (fun x => known x ∨ x = tx) tx before inscription) := by
  have hkept : s.partials.Lists fun x => known x ∨ x = tx := h.mono fun _ => Or.inl
  cases hstep with
  | skipped => exact ⟨hkept, Or.inl rfl⟩
  | indexed hheight hindex =>
    obtain ⟨run⟩ := indexInscriptions_ok hindex
    obtain ⟨hrecords, hpartials⟩ := run.records_eq
    rw [hrecords, hpartials]
    obtain ⟨total, -, hreveal⟩ := run.reveals
    have hcases : run.after = s ∨ ∃ revealed messages, reveal deps cfg.checks tx tx.txid run.inputs.totalInputValue total s =
        .ok (revealed, messages, run.after) := by
      split at hreveal
      · exact Or.inr ⟨_, _, hreveal⟩
      · injection hreveal with hreveal
        exact Or.inl (congrArg (fun r => r.2.2) hreveal).symm
    rcases hcases with hafter | ⟨_, _, hreveal⟩
    · rw [hafter]
      exact ⟨hkept, Or.inl rfl⟩
    · rcases reveal_cases hreveal with hafter | ⟨first, chain, txs, hfirst, hchain, houtcome⟩
      · rw [hafter]
        exact ⟨hkept, Or.inl rfl⟩
      · obtain ⟨rfl, hknown, hcontinued⟩ := h.previous hfirst hchain
        have hall : ∀ x ∈ txs ++ [tx], known x ∨ x = tx := by
          intro x hx
          rcases List.mem_append.mp hx with hx | hx
          · exact Or.inl (hknown x hx).1
          · exact Or.inr (List.mem_singleton.mp hx)
        rcases houtcome with ⟨hparse, hafter⟩ | ⟨inscription, hparse, hafter⟩
        · rw [hafter]
          refine ⟨fun q chain hget => ?_, Or.inl rfl⟩
          -- a known transaction is not overwritten
          have hbytes : ∀ x, known x → s.partials.bytes.get x.txid = some x →
              (s.partials.bytes.insert tx.txid tx).get x.txid = some x := by
            intro x hx hget
            rw [Table.get_insert, if_neg (hnew x hx)]
            exact hget
          simp only [Table.get_insert] at hget
          split at hget
          · rename_i hq
            injection hget with hget
            refine ⟨txs, tx, hq.symm, ?_, ⟨hall, hcontinued, hparse⟩, fun x hx => ?_⟩
            · rw [← hget, List.map_append, List.map_singleton]
            · rcases List.mem_append.mp hx with hx | hx
              · exact hbytes x (hknown x hx).1 (hknown x hx).2
              · rw [List.mem_singleton.mp hx, Table.get_insert, if_pos rfl]
          · obtain ⟨txs', tx', hq, hchain', hpieces, hfound⟩ := h q chain hget
            exact ⟨txs', tx', hq, hchain', hpieces.mono fun _ => Or.inl,
              fun x hx => hbytes x (hpieces.known x hx) (hfound x hx)⟩
        · rw [hafter]
          exact ⟨hkept, Or.inr ⟨_, txs, inscription, rfl, ⟨hall, hcontinued, hparse⟩, rfl,
            congrArg (fun txid => (⟨txid, 0⟩ : InscriptionId)) (headD_map_txid txs tx), rfl, rfl⟩⟩

end

/-! ## A block -/

/-- The records of a block are of inscriptions that its transactions complete, one at most for each. -/
structure RevealedIn (known : Transaction → Prop) (txs : List Transaction) (recorded : List NewInscriptionInfo) : Prop where
  revealed : ∀ info ∈ recorded, ∃ tx ∈ txs, ∃ before inscription, info.RevealedBy known tx before inscription
  once : (recorded.map NewInscriptionInfo.txHash).Nodup

/-- A stored transaction has one place, whose index has 16 bits. -/
structure Tables.Located (t : Tables) : Prop where
  once : ∀ id id' tx tx', t.Stored id tx → t.Stored id' tx' → tx.txid = tx'.txid → id = id'
  index : ∀ id tx, t.Stored id tx → id.tx < 2 ^ 16

/-- Partial inscriptions and records of the tables. -/
structure Tables.Revealed (t : Tables) : Prop where
  partials : t.partials.Lists t.HasTransaction
  records : ∀ e ∈ t.resolverByHeight.entries, ∃ hash block, t.blockByHeight.get e.1 = some (hash, block) ∧
    RevealedIn t.HasTransaction block.txdata e.2.newInscriptions

section

variable {deps : Deps} {cfg : Config} {n n' : Node} {height : Nat} {block : Block} {mutable : Bool}

/-- A stored transaction is stored after a block, and so is one of the block. -/
theorem Applied.hasTransaction (run : Applied deps cfg n height block mutable n')
    (hvalid : ValidBlock n.db.tables height block) {tx : Transaction}
    (h : n.db.tables.HasTransaction tx ∨ tx ∈ block.txdata) : n'.db.tables.HasTransaction tx := by
  obtain ⟨log, htables⟩ := run.tables
  rw [htables]
  rcases h with ⟨⟨h₀, e⟩, hmem, htx⟩ | htx
  · refine ⟨(h₀, e), ?_, htx⟩
    rw [Table.mem_entries, Table.get_insert, if_neg (Nat.ne_of_lt (hvalid.later _ hmem))]
    exact Table.mem_entries.mp hmem
  · refine ⟨(height, block.hash, block), ?_, htx⟩
    rw [Table.mem_entries, Table.get_insert, if_pos rfl]

/-- **A block records what it reveals.** -/
theorem Applied.revealedIn (run : Applied deps cfg n height block mutable n')
    (hvalid : ValidBlock n.db.tables height block) (h : n.db.tables.partials.Lists n.db.tables.HasTransaction) :
    n'.db.tables.partials.Lists n'.db.tables.HasTransaction ∧
      RevealedIn n'.db.tables.HasTransaction block.txdata run.final.inscriptions.newInscriptions := by
  have htxids := run.steps_txids hvalid.txids
  let knownBy (done : List (Transaction × BlockState)) (x : Transaction) : Prop :=
    n.db.tables.HasTransaction x ∨ x ∈ done.map Prod.fst
  have hend := run.inscriptions_induct (P := fun done _ i => (∀ x ∈ done.map Prod.fst, x ∈ block.txdata) ∧
      i.partials.Lists (knownBy done) ∧ RevealedIn (knownBy done) (done.map Prod.fst) i.newInscriptions ∧
      (i.newInscriptions.map NewInscriptionInfo.txHash).Sublist (done.map fun step => step.1.txid)) ⟨?_, ?_, ⟨?_, ?_⟩, ?_⟩ ?_
  · obtain ⟨hblock, hpartials, hrevealed, -⟩ := hend
    have hknown : ∀ x, knownBy (blockSteps deps cfg n height block) x → n'.db.tables.HasTransaction x :=
      fun x hx => run.hasTransaction hvalid (hx.imp id fun hx => hblock x hx)
    obtain ⟨log, htables⟩ := run.tables
    have hsame : n'.db.tables.partials = run.final.inscriptions.partials := by rw [htables]
    refine ⟨?_, fun info hinfo => ?_, hrevealed.once⟩
    · rw [hsame]
      exact hpartials.mono hknown
    · obtain ⟨tx, htx, before, inscription, hby⟩ := hrevealed.revealed info hinfo
      exact ⟨tx, hblock tx htx, before, inscription, hby.mono hknown⟩
  · exact fun x hx => (List.not_mem_nil hx).elim
  · exact h.mono fun _ => Or.inl
  · exact fun info hinfo => (List.not_mem_nil hinfo).elim
  · exact List.nodup_nil
  · exact List.Sublist.refl _
  · rintro done tx s placed transfers messages i htx hpre hins ⟨hblock, hpartials, hrevealed, hsub⟩
    have hmore : ∀ x, knownBy done x ∨ x = tx → knownBy (done ++ [(tx, s)]) x := by
      rintro x ((hold | hdone) | rfl)
      · exact Or.inl hold
      · right
        rw [List.map_append]
        exact List.mem_append_left _ hdone
      · right
        rw [List.map_append]
        exact List.mem_append_right _ (List.mem_singleton_self _)
    have hdone : (done.map fun step => step.1.txid).Nodup ∧ ∀ x ∈ done.map Prod.fst, x.txid ≠ tx.txid := by
      have hall := List.Nodup.sublist (hpre.sublist.map fun step => step.1.txid) htxids
      rw [List.map_append, List.nodup_append] at hall
      refine ⟨hall.1, fun x hx heq => ?_⟩
      obtain ⟨step, hstep, rfl⟩ := List.mem_map.mp hx
      exact hall.2.2 _ (List.mem_map_of_mem hstep) _ (List.mem_singleton_self _) heq
    have hnew : ∀ x, knownBy done x → x.txid ≠ tx.txid := by
      rintro x (hold | hx)
      · intro heq
        have hhas := hold.hasTx
        rw [heq] at hhas
        exact hvalid.not_hasTx (List.mem_map_of_mem htx) hhas
      · exact hdone.2 x hx
    obtain ⟨hlists, hrecords⟩ := hins.revealed hnew hpartials
    have htxs : (done ++ [(tx, s)]).map Prod.fst = done.map Prod.fst ++ [tx] := by
      rw [List.map_append, List.map_singleton]
    have hkept : ∀ info ∈ s.inscriptions.newInscriptions, ∃ x ∈ (done ++ [(tx, s)]).map Prod.fst,
        ∃ before inscription, info.RevealedBy (knownBy (done ++ [(tx, s)])) x before inscription := by
      intro info hinfo
      obtain ⟨x, hx, before, inscription, hby⟩ := hrevealed.revealed info hinfo
      refine ⟨x, ?_, before, inscription, hby.mono fun y hy => hmore y (Or.inl hy)⟩
      rw [htxs]
      exact List.mem_append_left _ hx
    refine ⟨fun x hx => ?_, hlists.mono hmore, ?_⟩
    · rw [htxs] at hx
      rcases List.mem_append.mp hx with hx | hx
      · exact hblock x hx
      · rw [List.mem_singleton.mp hx]
        exact htx
    · rcases hrecords with heq | ⟨info, before, inscription, heq, hby⟩
      · rw [heq]
        refine ⟨⟨hkept, hrevealed.once⟩, ?_⟩
        rw [List.map_append]
        exact hsub.trans (List.sublist_append_left _ _)
      · have hmap : (i.newInscriptions.map NewInscriptionInfo.txHash) =
            s.inscriptions.newInscriptions.map NewInscriptionInfo.txHash ++ [tx.txid] := by
          rw [heq, List.map_append, List.map_singleton, hby.txHash]
        have hsub' : (i.newInscriptions.map NewInscriptionInfo.txHash).Sublist
            ((done ++ [(tx, s)]).map fun step => step.1.txid) := by
          rw [hmap, List.map_append]
          exact hsub.append (List.Sublist.refl _)
        refine ⟨⟨fun x hx => ?_, ?_⟩, hsub'⟩
        · rw [heq] at hx
          rcases List.mem_append.mp hx with hx | hx
          · exact hkept x hx
          · rw [List.mem_singleton.mp hx]
            refine ⟨tx, ?_, before, inscription, hby.mono hmore⟩
            rw [htxs]
            exact List.mem_append_right _ (List.mem_singleton_self _)
        · exact List.Nodup.sublist (hsub'.trans (hpre.sublist.map _)) htxids

/-- The transactions of a block have new places. -/
theorem Applied.located (run : Applied deps cfg n height block mutable n')
    (hvalid : ValidBlock n.db.tables height block) (h : n.db.tables.Located) : n'.db.tables.Located := by
  obtain ⟨log, htables⟩ := run.tables
  have hblocks : n'.db.tables.blockByHeight = n.db.tables.blockByHeight.insert height (block.hash, block) := by
    rw [htables]
  have hcases : ∀ id tx, n'.db.tables.Stored id tx →
      (n.db.tables.Stored id tx ∧ n.db.tables.HasTx tx.txid) ∨ (id.block = height ∧ block.txdata[id.tx]? = some tx) := by
    rintro id tx ⟨hash, b, hget, hat⟩
    rw [hblocks, Table.get_insert] at hget
    split at hget
    · rename_i heq
      cases hget
      exact Or.inr ⟨heq, hat⟩
    · exact Or.inl ⟨⟨hash, b, hget, hat⟩, ⟨_, Table.mem_entries.mpr hget, List.mem_map_of_mem (List.mem_of_getElem? hat)⟩⟩
  have hnew : ∀ {idx : Nat} {tx : Transaction}, block.txdata[idx]? = some tx → ¬ n.db.tables.HasTx tx.txid :=
    fun hat => hvalid.not_hasTx (List.mem_map_of_mem (List.mem_of_getElem? hat))
  refine ⟨fun id id' tx tx' hstored hstored' htxid => ?_, fun id tx hstored => ?_⟩
  · rcases hcases id tx hstored with ⟨hold, hhas⟩ | ⟨hheight, hat⟩
    · rcases hcases id' tx' hstored' with ⟨hold', -⟩ | ⟨-, hat'⟩
      · exact h.once id id' tx tx' hold hold' htxid
      · rw [htxid] at hhas
        exact absurd hhas (hnew hat')
    · rcases hcases id' tx' hstored' with ⟨-, hhas'⟩ | ⟨hheight', hat'⟩
      · rw [← htxid] at hhas'
        exact absurd hhas' (hnew hat)
      · have hmap : ∀ {idx : Nat} {x : Transaction}, block.txdata[idx]? = some x →
            (txIds block)[idx]? = some x.txid := by
          intro idx x hat
          unfold txIds
          rw [List.getElem?_map, hat]
          rfl
        have hsame : id.tx = id'.tx := by
          refine (List.getElem?_inj ?_ hvalid.txids).mp ?_
          · exact (List.getElem?_eq_some_iff.mp (hmap hat)).1
          · rw [hmap hat, hmap hat', htxid]
        obtain ⟨b, i⟩ := id
        obtain ⟨b', i'⟩ := id'
        simp only at hheight hheight' hsame
        rw [hheight, hheight', hsame]
  · rcases hcases id tx hstored with ⟨hold, -⟩ | ⟨-, hat⟩
    · exact h.index id tx hold
    · have hlt := (List.getElem?_eq_some_iff.mp hat).1
      have hcount := hvalid.count
      omega

/-- A block keeps what the tables say of inscriptions. -/
theorem Applied.revealed (run : Applied deps cfg n height block mutable n')
    (hvalid : ValidBlock n.db.tables height block) (h : n.db.tables.Revealed) : n'.db.tables.Revealed := by
  obtain ⟨hpartials, hrevealed⟩ := run.revealedIn hvalid h.partials
  have hgrows : ∀ tx, n.db.tables.HasTransaction tx → n'.db.tables.HasTransaction tx :=
    fun tx htx => run.hasTransaction hvalid (Or.inl htx)
  obtain ⟨log, htables⟩ := run.tables
  have hblocks : n'.db.tables.blockByHeight = n.db.tables.blockByHeight.insert height (block.hash, block) := by
    rw [htables]
  have hresolvers : n'.db.tables.resolverByHeight = n.db.tables.resolverByHeight.insert height
      (resolverEntry n.db.tables block run.final run.staged) := by
    rw [htables]
  refine ⟨hpartials, fun e he => ?_⟩
  obtain ⟨h₀, entry⟩ := e
  rw [hresolvers, Table.mem_entries, Table.get_insert] at he
  split at he
  · rename_i heq
    cases he
    exact ⟨block.hash, block, by rw [hblocks, heq]; exact (Table.get_insert _ _ _ _).trans (if_pos rfl), hrevealed⟩
  · rename_i hne
    obtain ⟨hash, b, hget, hin⟩ := h.records (h₀, entry) (Table.mem_entries.mpr he)
    refine ⟨hash, b, by rw [hblocks]; exact ((Table.get_insert _ _ _ _).trans (if_neg hne)).trans hget, ?_, hin.once⟩
    intro info hinfo
    obtain ⟨tx, htx, before, inscription, hby⟩ := hin.revealed info hinfo
    exact ⟨tx, htx, before, inscription, hby.mono hgrows⟩

end

/-! ## Reachable nodes -/

section

variable {deps : Deps} {cfg : Config} {C : Node → Call → Prop} {n : Node}

theorem Tables.Located.empty : Tables.empty.Located := by
  refine ⟨fun id id' tx tx' hstored => ?_, fun id tx hstored => ?_⟩ <;>
    · obtain ⟨hash, block, hget, -⟩ := hstored
      cases hget

theorem Tables.Revealed.empty : Tables.empty.Revealed := by
  refine ⟨fun q chain hget => ?_, fun e he => (List.not_mem_nil he).elim⟩
  cases hget

/-- A reference has one output. -/
theorem Tables.Located.output_unique {t : Tables} (h : t.Located) {ref : TxoRef} {txo txo' : TxOut}
    (hout : t.HasOutput ref txo) (hout' : t.HasOutput ref txo') : txo = txo' := by
  obtain ⟨tx, htx, htxid, hat⟩ := hout
  obtain ⟨tx', htx', htxid', hat'⟩ := hout'
  obtain ⟨id, hash, block, hget, hidx⟩ := Tables.hasTransaction_iff.mp htx
  obtain ⟨id', hash', block', hget', hidx'⟩ := Tables.hasTransaction_iff.mp htx'
  obtain rfl := h.once id id' tx tx' ⟨hash, block, hget, hidx⟩ ⟨hash', block', hget', hidx'⟩ (htxid.symm.trans htxid')
  rw [hget] at hget'
  cases hget'
  rw [hidx] at hidx'
  cases hidx'
  rw [hat] at hat'
  exact Option.some.inj hat'

theorem SameChain.located {t t' : Tables} (h : SameChain t' t) (hl : t.Located) : t'.Located := by
  have hstored : t'.Stored = t.Stored := by
    unfold Tables.Stored
    rw [h.blocks]
  refine ⟨?_, ?_⟩
  · rw [hstored]
    exact hl.once
  · rw [hstored]
    exact hl.index

theorem SameChain.revealed {t t' : Tables} (h : SameChain t' t) (hr : t.Revealed) : t'.Revealed := by
  have hhas : t'.HasTransaction = t.HasTransaction := by
    unfold Tables.HasTransaction
    rw [h.blocks]
  refine ⟨?_, ?_⟩
  · rw [h.partials, hhas]
    exact hr.partials
  · rw [h.resolvers, h.blocks, hhas]
    exact hr.records

theorem Reach.located (h : Reach deps cfg C n) : n.db.tables.Located := by
  obtain ⟨l, hl⟩ := h.history (restores_sameChain deps cfg C)
  refine (History.induct (P := Tables.Located) hl.blocks .empty (fun _ _ hsame hs => hsame.located hs) ?_).1
  rintro t₀ e t₁ h₀ ⟨run, hvalid, -, -⟩
  exact run.located hvalid h₀

theorem Reach.revealed (h : Reach deps cfg C n) : n.db.tables.Revealed := by
  obtain ⟨l, hl⟩ := h.history (restores_sameChain deps cfg C)
  refine (History.induct (P := Tables.Revealed) hl.blocks .empty (fun _ _ hsame hs => hsame.revealed hs) ?_).1
  rintro t₀ e t₁ h₀ ⟨run, hvalid, -, -⟩
  exact run.revealed hvalid h₀

/-- **Inscriptions are recorded as they are revealed.**  In every reachable node, whatever was applied and rolled back,
each record belongs to a transaction of its block, to no other record's, and says what the parser makes of that
transaction and of the stored transactions that it continues: their content under the txid of the first. -/
theorem recorded_as_revealed (h : Reach deps cfg C n) {height : Nat} {entry : ResolverEntry}
    (hentry : n.db.tables.resolverByHeight.get height = some entry) :
    ∃ hash block, n.db.tables.blockByHeight.get height = some (hash, block) ∧
      (entry.newInscriptions.map NewInscriptionInfo.txHash).Nodup ∧
      ∀ info ∈ entry.newInscriptions, ∃ tx ∈ block.txdata, ∃ before inscription,
        info.RevealedBy n.db.tables.HasTransaction tx before inscription := by
  obtain ⟨hash, block, hget, hrevealed⟩ := h.revealed.records (height, entry) (Table.mem_entries.mpr hentry)
  exact ⟨hash, block, hget, hrevealed.once, hrevealed.revealed⟩

end

/-- An inscription in two pieces, of transactions 12 and 14, and a later block. -/
def completedInTwo : List Call :=
  afterFirstPiece [spendTx 14 ⟨12, 0⟩ secondPiece [500000000]] ++ [callOf 3 4 3 [coinbaseTx 15 [1]]]

/-- The later block is rolled back. -/
theorem recorded_as_revealed_two_pieces :
    ∃ n entry, Reach emptyScripts fromFirstBlock (fun _ _ => True) n ∧
      n.db.tables.resolverByHeight.get 2 = some entry ∧
      entry.newInscriptions.map (fun info => (info.txHash, info.id)) = [(14, ⟨12, 0⟩)] ∧
      ∃ hash block, n.db.tables.blockByHeight.get 2 = some (hash, block) ∧
        (entry.newInscriptions.map NewInscriptionInfo.txHash).Nodup ∧
        ∀ info ∈ entry.newInscriptions, ∃ tx ∈ block.txdata, ∃ before inscription,
          info.RevealedBy n.db.tables.HasTransaction tx before inscription := by
  have hsome : (runCalls emptyScripts fromFirstBlock (Node.open_ true) completedInTwo).isSome = true := by
    decide +kernel
  have hreach := ((Run.ofCalls hsome).reach (fun _ _ => True) (by decide +kernel)
    fun _ _ => trivial).rollback ⟨true, true⟩ 2 3 true
  obtain ⟨n, hn⟩ : ∃ n, n = endState (rollback emptyScripts fromFirstBlock ⟨true, true⟩ 2 3 true
      (performed emptyScripts fromFirstBlock (Node.open_ true) completedInTwo).2) := ⟨_, rfl⟩
  rw [← hn] at hreach
  have hrecords : (n.db.tables.resolverByHeight.get 2).map (fun entry =>
      entry.newInscriptions.map fun info => (info.txHash, info.id)) = some [(14, ⟨12, 0⟩)] := by
    rw [hn]
    decide +kernel
  obtain ⟨entry, hentry, hmap⟩ := Option.map_eq_some_iff.mp hrecords
  exact ⟨n, entry, hreach, hentry, hmap, recorded_as_revealed hreach hentry⟩

end DogeIndexer.Compressor
