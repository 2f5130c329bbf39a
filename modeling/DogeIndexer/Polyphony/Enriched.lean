import DogeIndexer.Polyphony.Context
import DogeIndexer.Compressor.Staged
import DogeIndexer.Compressor.Satoshis

/-!
# Paged and streamed blocks

The context of a block is the same whether the block is paged from the tables or streamed from the log, in
whatever order the hash maps are iterated.

* `readContext_blockWithContext` — the context that a message decodes to.
* `paged_streamed_agree` — both ways lead to it.
* `offsets_survive_iff` — the offsets of inscriptions survive exactly when they fit in 32 bits.
-/

set_option autoImplicit false

namespace DogeIndexer.Polyphony

open Compressor

/-! ## Round trips -/

theorem readHash_hashBytes (hash : Fin (2 ^ 256)) : readHash (hashBytes hash) = some hash :=
  readBytes_toBE (by decide +kernel) hash

theorem readAmount_amountBytes (amount : U128) : readAmount (amountBytes amount) = some amount :=
  readBytes_toBE (by decide +kernel) amount

theorem readScriptHash_bytes (hash : ScriptHash) : readScriptHash (scriptHashBytes hash) = some hash :=
  readBytes_toBE (by decide +kernel) hash

@[simp] theorem readTxoRef_message (ref : TxoRef) : readTxoRef (some (txoRefMessage ref)) = some ref := by
  unfold readTxoRef txoRefMessage
  simp [readHash_hashBytes]

@[simp] theorem readInscriptionId_message (id : InscriptionId) :
    readInscriptionId (some (inscriptionIdMessage id)) = some id := by
  unfold readInscriptionId inscriptionIdMessage
  simp [readHash_hashBytes]

theorem blockRefToPoint_message (height : Nat) (hash : Fin (2 ^ 256)) :
    blockRefToPoint (blockRefMessage height hash) = some ⟨height, hash⟩ := by
  unfold blockRefToPoint blockRefMessage
  simp [readHash_hashBytes]

theorem readKind_brc20Kind (message : BRC20Message) : readKind (brc20Kind message) = some message := by
  cases message with
  | deploy tick => rfl
  | mint tick amt receiver => simp [brc20Kind, readKind, readAmount_amountBytes, readScriptHash_bytes]
  | transfer tick amt outpoint receiver =>
    simp [brc20Kind, readKind, readAmount_amountBytes, readScriptHash_bytes]
  | transferInit tick amt receiver => simp [brc20Kind, readKind, readAmount_amountBytes, readScriptHash_bytes]

/-- A list of messages that can all be read. -/
theorem mapM_read {α β γ : Type} {f : β → Option γ} {g : α → β} {h : α → γ} (hread : ∀ a, f (g a) = some (h a))
    (l : List α) : (l.map g).mapM f = some (l.map h) := by
  induction l with
  | nil => rfl
  | cons a l ih =>
    rw [List.map_cons, List.mapM_cons, hread, ih]
    rfl

/-- A loop over messages that can all be read. -/
theorem foldlM_read {α β σ : Type} {f : σ → β → Option σ} {g : α → β} {h : σ → α → σ} (l : List α)
    (hread : ∀ s, ∀ a ∈ l, f s (g a) = some (h s a)) (s : σ) : (l.map g).foldlM f s = some (l.foldl h s) := by
  induction l generalizing s with
  | nil => rfl
  | cons a l ih =>
    rw [List.map_cons, List.foldlM_cons, hread s a List.mem_cons_self]
    exact ih (fun s a ha => hread s a (List.mem_cons_of_mem _ ha)) (h s a)

/-! ## What messages decode to -/

/-- The id of a dune at the indexer: its transaction index has 32 bits. -/
def castRunes (runes : List (DuneId × U128)) : List (DuneId × U128) :=
  runes.map fun e => (⟨e.1.block, e.1.tx % 2 ^ 32⟩, e.2)

/-- The dunes of outputs that have some. -/
def indexedRunes (l : List (TxoRef × List (DuneId × U128))) : List (TxoRef × List (DuneId × U128)) :=
  (l.filter fun e => !e.2.isEmpty).map fun e => (e.1, castRunes e.2)

/-- Inscriptions at the indexer: their offsets have 32 bits. -/
def castInscriptions (inscriptions : List (U64 × InscriptionId)) : List (U32 × InscriptionId) :=
  inscriptions.map fun e => (Fin.ofNat _ e.1.val, e.2)

theorem resolveTxos_eq (l : List (TxoRef × TxoBody)) (ctx : BlockContext) :
    (l.map resolvedTxoMessage).foldlM resolveTxo ctx =
      some { ctx with inputResolver := ctx.inputResolver.insertAll (l.map fun e => (e.1, ⟨e.2.height, e.2.raw⟩)) } := by
  rw [foldlM_read l fun (s : BlockContext) e _ =>
    show resolveTxo s (resolvedTxoMessage e) = some (s.insertTxo e.1 ⟨e.2.height, e.2.raw⟩) by
      simp [resolveTxo, resolvedTxoMessage]]
  congr 1
  induction l generalizing ctx with
  | nil => rfl
  | cons e l ih => exact ih _

theorem resolveRunes_eq (l : List (TxoRef × List (DuneId × U128))) (ctx : BlockContext) :
    (l.map runesMessage).foldlM resolveRunes ctx =
      some { ctx with runesResolver := ctx.runesResolver.insertAll (indexedRunes l) } := by
  rw [foldlM_read l fun (s : BlockContext) e _ =>
    show resolveRunes s (runesMessage e) =
        some (if e.2.isEmpty then s else s.insertRunes e.1 (castRunes e.2)) by
      have hrunes : (runesMessage e).runes.mapM readRune = some (castRunes e.2) :=
        mapM_read (fun rune => by simp [readRune, readAmount_amountBytes]) e.2
      unfold resolveRunes
      rw [hrunes]
      simp [runesMessage, castRunes]]
  congr 1
  induction l generalizing ctx with
  | nil => rfl
  | cons e l ih =>
    rw [List.foldl_cons, ih]
    unfold indexedRunes
    rw [List.filter_cons]
    cases hempty : e.2.isEmpty with
    | true => rfl
    | false => rfl

/-! ## Inscriptions -/

/-- The inscriptions listed for an output. -/
def listed (l : List (TxoRef × List (U64 × InscriptionId))) (ref : TxoRef) : List (U64 × InscriptionId) :=
  (l.filter fun e => e.1 = ref).flatMap Prod.snd

theorem get_pushInscriptions (ref ref' : TxoRef) (inscriptions : List (U64 × InscriptionId))
    (t : Table TxoRef (List Api.InscriptionAtOffset)) :
    (inscriptions.foldl (pushInscription ref) t).get ref' =
      if ref' = ref ∧ inscriptions ≠ [] then some (t.getD ref [] ++ inscriptions.map inscriptionMessage)
      else t.get ref' := by
  induction inscriptions generalizing t with
  | nil => simp
  | cons e inscriptions ih =>
    rw [List.foldl_cons, ih]
    unfold pushInscription
    rw [Table.getD_insert, if_pos rfl, Table.get_insert]
    by_cases href : ref' = ref
    · cases inscriptions with
      | nil => simp [href]
      | cons e' inscriptions => simp [href]
    · simp [href]

theorem get_gather (l : List (TxoRef × List (U64 × InscriptionId)))
    (t : Table TxoRef (List Api.InscriptionAtOffset)) (ref : TxoRef) :
    (l.foldl (fun t e => e.2.foldl (pushInscription e.1) t) t).get ref =
      if listed l ref = [] then t.get ref
      else some (t.getD ref [] ++ (listed l ref).map inscriptionMessage) := by
  induction l generalizing t with
  | nil => rfl
  | cons e l ih =>
    rw [List.foldl_cons, ih]
    have hget := get_pushInscriptions e.1 ref e.2 t
    unfold Table.getD
    by_cases href : e.1 = ref
    · subst href
      have hcons : listed (e :: l) e.1 = e.2 ++ listed l e.1 := by
        unfold listed
        rw [List.filter_cons_of_pos (by simp), List.flatMap_cons]
      rw [hcons, hget]
      cases hinscriptions : e.2 with
      | nil => simp
      | cons e' inscriptions =>
        simp only [true_and, ne_eq, List.cons_ne_nil, not_false_eq_true, if_true, List.cons_append, if_false]
        by_cases hrest : listed l e.1 = []
        · rw [if_pos hrest, hrest]
          simp [Table.getD]
        · rw [if_neg hrest]
          simp [Table.getD]
    · have hcons : listed (e :: l) ref = listed l ref := by
        unfold listed
        rw [List.filter_cons_of_neg (by simpa using href)]
      rw [if_neg (fun h => href h.1.symm)] at hget
      rw [hcons, hget]

/-- What is gathered for an output. -/
theorem get_gatherInscriptions (l : List (TxoRef × List (U64 × InscriptionId))) (ref : TxoRef) :
    (gatherInscriptions l).get ref =
      if listed l ref = [] then none else some ((listed l ref).map inscriptionMessage) := by
  unfold gatherInscriptions
  rw [get_gather]
  rfl

/-- With one entry for each output the order of a list does not matter. -/
theorem listed_perm {l l' : List (TxoRef × List (U64 × InscriptionId))} (hn : (l.map Prod.fst).Nodup) (h : l.Perm l')
    (ref : TxoRef) : listed l ref = listed l' ref := by
  unfold listed
  have hperm := h.filter fun e => e.1 = ref
  have hkeys : ((l.filter fun e => e.1 = ref).map Prod.fst).Nodup :=
    hn.sublist (List.filter_sublist.map Prod.fst)
  have hall : ∀ e ∈ l.filter fun e => e.1 = ref, e.1 = ref := fun e he => by simpa using (List.mem_filter.mp he).2
  revert hperm hkeys hall
  generalize (l.filter fun e => e.1 = ref) = a
  intro hperm hkeys hall
  match a with
  | [] => rw [← hperm.nil_eq]
  | [e] => rw [List.singleton_perm.mp hperm]
  | e :: e' :: a =>
    have heq : e.1 = e'.1 :=
      (hall e List.mem_cons_self).trans (hall e' (List.mem_cons_of_mem _ List.mem_cons_self)).symm
    rw [List.map_cons, List.nodup_cons] at hkeys
    exact absurd (heq ▸ List.mem_cons_self) hkeys.1

/-- The inscriptions of outputs, as the indexer keeps them. -/
def indexedInscriptions (l : List (TxoRef × List (U64 × InscriptionId))) :
    List (TxoRef × List (U32 × InscriptionId)) :=
  (gatherInscriptions l).entries.map fun e => (e.1, castInscriptions (listed l e.1))

theorem indexedInscriptions_perm {l l' : List (TxoRef × List (U64 × InscriptionId))} (hn : (l.map Prod.fst).Nodup)
    (h : l.Perm l') : indexedInscriptions l = indexedInscriptions l' := by
  have hgather : gatherInscriptions l = gatherInscriptions l' := by
    refine Table.ext_get fun ref => ?_
    rw [get_gatherInscriptions, get_gatherInscriptions, listed_perm hn h ref]
  unfold indexedInscriptions
  rw [hgather]
  refine List.map_congr_left fun e _ => ?_
  rw [listed_perm hn h e.1]

theorem resolveInscriptions_eq (l : List (TxoRef × List (U64 × InscriptionId)))
    {iterated : List (TxoRef × List Api.InscriptionAtOffset)} (h : iterated.Perm (gatherInscriptions l).entries)
    (ctx : BlockContext) :
    (iterated.map fun e => (⟨some (txoRefMessage e.1), e.2⟩ : Api.InscriptionResolvedTxo)).foldlM
        resolveInscriptions ctx =
      some { ctx with inscriptionsResolver := ctx.inscriptionsResolver.insertAll (indexedInscriptions l) } := by
  have hread : ∀ (s : BlockContext), ∀ e ∈ iterated,
      resolveInscriptions s (⟨some (txoRefMessage e.1), e.2⟩ : Api.InscriptionResolvedTxo) =
        some (s.insertInscriptions e.1 (castInscriptions (listed l e.1))) := by
    intro s e he
    have hget := Table.mem_entries.mp (h.mem_iff.mp he)
    rw [get_gatherInscriptions] at hget
    split at hget
    · cases hget
    · rename_i hne
      have hvalue : e.2 = (listed l e.1).map inscriptionMessage := (Option.some.inj hget).symm
      have hinscriptions : e.2.mapM readInscription = some (castInscriptions (listed l e.1)) := by
        rw [hvalue]
        exact mapM_read (fun inscription => by simp [readInscription, inscriptionMessage]) (listed l e.1)
      unfold resolveInscriptions
      simp [hinscriptions, castInscriptions, hne]
  rw [foldlM_read iterated hread ctx]
  have hfold : ∀ (l' : List (TxoRef × List Api.InscriptionAtOffset)) (ctx : BlockContext),
      l'.foldl (fun s e => s.insertInscriptions e.1 (castInscriptions (listed l e.1))) ctx =
        { ctx with inscriptionsResolver := ctx.inscriptionsResolver.insertAll
                    (l'.map fun e => (e.1, castInscriptions (listed l e.1))) } := by
    intro l'
    induction l' with
    | nil => exact fun ctx => rfl
    | cons e l' ih => exact fun ctx => ih _
  rw [hfold]
  have hkeys : ((iterated.map fun e => (e.1, castInscriptions (listed l e.1))).map Prod.fst).Nodup := by
    rw [List.map_map]
    exact (h.map Prod.fst).nodup_iff.mpr (Table.keys_nodup _)
  rw [Table.insertAll_perm hkeys (h.map fun e => (e.1, castInscriptions (listed l e.1)))]
  rfl

/-! ## The context -/

/-- The context of a block, from its resolver entry. -/
def contextOf (entry : ResolverEntry) : BlockContext where
  inputResolver := Table.empty.insertAll (entry.resolver.entries.map fun e => (e.1, ⟨e.2.height, e.2.raw⟩))
  runesResolver := (Table.empty.insertAll (indexedRunes (entry.resolver.entries.map fun e => (e.1, e.2.dunes)))).insertAll
    (indexedRunes entry.outputRunes)
  runeMintIdxs := entry.mints
  runeEtchIdxs := entry.etches
  inscriptionsResolver := (Table.empty.insertAll
    (indexedInscriptions (entry.resolver.entries.map fun e => (e.1, e.2.inscriptions)))).insertAll
    (indexedInscriptions entry.outputInscriptions)
  brc20Resolver := entry.brc20Resolver.foldl
    (fun t e => t.insert e.1 (t.getD e.1 [] ++ [e.2])) Table.empty
  newInscriptions := Table.empty.insertAll
    (entry.newInscriptions.map fun info => (info.txHash, info.id, info.number, info.bodyType, info.body))

theorem resolveBrc20_eq (l : List (InscriptionId × BRC20Message)) (ctx : BlockContext) :
    (l.map brc20Message).foldlM resolveBrc20 ctx =
      some { ctx with brc20Resolver := l.foldl (fun t e => t.insert e.1 (t.getD e.1 [] ++ [e.2])) ctx.brc20Resolver } := by
  rw [foldlM_read l fun (s : BlockContext) e _ =>
    show resolveBrc20 s (brc20Message e) = some (s.insertBrc20 e.1 e.2) by
      simp [resolveBrc20, brc20Message, readKind_brc20Kind]]
  congr 1
  induction l generalizing ctx with
  | nil => rfl
  | cons e l ih => exact ih _

theorem resolveOrigins_eq (l : List NewInscriptionInfo) (ctx : BlockContext) :
    (l.map originMessage).foldlM resolveOrigin ctx =
      some { ctx with newInscriptions := ctx.newInscriptions.insertAll
                        (l.map fun info => (info.txHash, info.id, info.number, info.bodyType, info.body)) } := by
  rw [foldlM_read l fun (s : BlockContext) info _ =>
    show resolveOrigin s (originMessage info) =
        some (s.insertNewInscription info.txHash (info.id, info.number, info.bodyType, info.body)) by
      simp [resolveOrigin, originMessage, readHash_hashBytes]]
  congr 1
  induction l generalizing ctx with
  | nil => rfl
  | cons info l ih => exact ih _

section

variable {o : Compressor.HashOrder} {entry : ResolverEntry} {resolver : List (TxoRef × TxoBody)}
  {outputRunes : List (TxoRef × List (DuneId × U128))}

/-- Dunes of the consumed outputs, in any order. -/
theorem indexedRunes_perm (hresolver : resolver.Perm entry.resolver.entries) (t : Table TxoRef (List (DuneId × U128))) :
    t.insertAll (indexedRunes (resolver.map fun e => (e.1, e.2.dunes))) =
      t.insertAll (indexedRunes (entry.resolver.entries.map fun e => (e.1, e.2.dunes))) := by
  have hperm := hresolver.map fun e : TxoRef × TxoBody => (e.1, e.2.dunes)
  have hkeys : ((resolver.map fun e : TxoRef × TxoBody => (e.1, e.2.dunes)).map Prod.fst).Nodup := by
    rw [List.map_map]
    exact (hresolver.map Prod.fst).nodup_iff.mpr (Table.keys_nodup _)
  unfold indexedRunes
  refine Table.insertAll_perm ?_ ((hperm.filter _).map _)
  rw [List.map_map]
  exact hkeys.sublist (List.filter_sublist.map Prod.fst)

/-- **What a message decodes to**, in whatever order the consumed outputs were iterated. -/
theorem readContext_blockWithContext (height : Nat) (hash : Fin (2 ^ 256)) (block : Block)
    (hresolver : resolver.Perm entry.resolver.entries)
    (houtputs : ∀ t : Table TxoRef (List (DuneId × U128)),
      t.insertAll (indexedRunes outputRunes) = t.insertAll (indexedRunes entry.outputRunes)) :
    readContext (blockWithContext o height hash block resolver outputRunes entry) = some (contextOf entry) := by
  have htxos : ∀ t : Table TxoRef ContextUtxo,
      t.insertAll (resolver.map fun e => (e.1, ⟨e.2.height, e.2.raw⟩)) =
        t.insertAll (entry.resolver.entries.map fun e => (e.1, ⟨e.2.height, e.2.raw⟩)) := by
    intro t
    refine Table.insertAll_perm ?_ (hresolver.map _)
    rw [List.map_map]
    exact (hresolver.map Prod.fst).nodup_iff.mpr (Table.keys_nodup _)
  have hinscriptions : indexedInscriptions (resolver.map fun e => (e.1, e.2.inscriptions)) =
      indexedInscriptions (entry.resolver.entries.map fun e => (e.1, e.2.inscriptions)) := by
    refine indexedInscriptions_perm ?_ (hresolver.map _)
    rw [List.map_map]
    exact (hresolver.map Prod.fst).nodup_iff.mpr (Table.keys_nodup _)
  have hetches : (entry.etches.map etchMessage).mapM readEtch = some (entry.etches.map id) :=
    mapM_read (fun etch => by simp [readEtch, etchMessage, readAmount_amountBytes]) entry.etches
  have hmints : (entry.mints.map mintMessage).map (fun mint => (mint.txIndex, mint.edictIndex)) = entry.mints := by
    rw [List.map_map]
    exact List.map_id _
  have hdunes : resolver.map (fun e => runesMessage (e.1, e.2.dunes)) =
      (resolver.map fun e => (e.1, e.2.dunes)).map runesMessage := by
    rw [List.map_map]
    rfl
  unfold readContext blockWithContext readRunes readInscriptions
  simp only [resolveTxos_eq, hdunes, List.foldlM_append, resolveRunes_eq, Option.bind_eq_bind, Option.bind_some, hetches,
    List.map_append, resolveInscriptions_eq _ (o.perm _ _), resolveBrc20_eq, resolveOrigins_eq, hmints, List.map_id,
    htxos, indexedRunes_perm hresolver, houtputs, hinscriptions]
  rfl

/-- The dunes of outputs, gathered in a hash map and iterated in any order. -/
theorem indexedRunes_collect (hne : ∀ e ∈ entry.outputRunes, e.2 ≠ [])
    {iterated : List (TxoRef × List (DuneId × U128))}
    (h : iterated.Perm ((Table.empty : Table TxoRef (List (DuneId × U128))).insertAll entry.outputRunes).entries)
    (t : Table TxoRef (List (DuneId × U128))) :
    t.insertAll (indexedRunes iterated) = t.insertAll (indexedRunes entry.outputRunes) := by
  have hself : ∀ {l : List (TxoRef × List (DuneId × U128))}, (∀ e ∈ l, e.2 ≠ []) →
      indexedRunes l = l.map fun e => (e.1, castRunes e.2) := by
    intro l hl
    unfold indexedRunes
    rw [List.filter_eq_self.mpr fun e he => by simpa using hl e he]
  have hiterated : ∀ e ∈ iterated, e.2 ≠ [] := by
    intro e he
    rcases Table.get_insertAll (Table.mem_entries.mp (h.mem_iff.mp he)) with hmem | ⟨-, hnone⟩
    · exact hne e hmem
    · cases hnone
  have hkeys : ((iterated.map fun e => (e.1, castRunes e.2)).map Prod.fst).Nodup := by
    rw [List.map_map]
    exact (h.map Prod.fst).nodup_iff.mpr (Table.keys_nodup _)
  rw [hself hiterated, hself hne, Table.insertAll_perm hkeys (h.map fun e => (e.1, castRunes e.2))]
  exact Table.insertAll_collect castRunes t entry.outputRunes

theorem processAction_apply {block : Api.BlockWithContext} {ref : Api.BlockRef} {ctx : BlockContext} {point : Point}
    (href : block.ref = some ref) (hctx : readContext block = some ctx) (hpoint : blockRefToPoint ref = some point)
    (mutable : Bool) :
    processAction (.apply block) mutable = some (some (.rollForward point block.raw ctx mutable)) := by
  unfold processAction
  simp only [href, hctx, hpoint, Option.bind_eq_bind, Option.bind_some]
  rfl

/-- A paged block decodes to its context. -/
theorem processAction_paged (o : Compressor.HashOrder) (height : Nat) (block : Block) (entry : ResolverEntry)
    (mutable : Bool) :
    processAction (.apply (pagedBlock o height block.hash block entry)) mutable =
      some (some (.rollForward ⟨height, block.hash⟩ block (contextOf entry) mutable)) := by
  have hctx : readContext (pagedBlock o height block.hash block entry) = some (contextOf entry) :=
    readContext_blockWithContext height block.hash block (o.perm 0 entry.resolver) fun _ => rfl
  exact processAction_apply rfl hctx (blockRefToPoint_message height block.hash) mutable

/-- So does a streamed one. -/
theorem processAction_streamed (o : Compressor.HashOrder) (height : Nat) (block : Block) (mutable : Bool)
    (hne : ∀ e ∈ entry.outputRunes, e.2 ≠ []) :
    processAction (logToResponseWithCtx o (.apply height block entry)) mutable =
      some (some (.rollForward ⟨height, block.hash⟩ block (contextOf entry) mutable)) := by
  have hctx := readContext_blockWithContext (o := o) height block.hash block (o.perm 0 entry.resolver)
    (indexedRunes_collect hne (o.perm 3 _))
  exact processAction_apply rfl hctx (blockRefToPoint_message height block.hash) mutable

end

/-- **Paged and streamed blocks agree.**  A block that was applied in mutable mode has an entry in the tables, for the
pages, and one in the log, for the stream; in whatever order hash maps are iterated, both become payloads for the
same point and block with the same context. -/
theorem paged_streamed_agree {deps : Deps} {cfg : Compressor.Config} {rocks : Rocks} {n n' : Node} {height : Nat}
    {block : Block} (h : applyBlockWithContext deps cfg rocks height block true n = .ok ⟨⟩ n') :
    ∃ entry ctx, n'.db.tables.blockByHeight.get height = some (block.hash, block) ∧
      n'.db.tables.resolverByHeight.get height = some entry ∧
      n'.db.tables.mutableKV.get n.db.nextWalSeq = some (.apply height block entry) ∧
      ∀ o o' : Compressor.HashOrder,
        processAction (.apply (pagedBlock o height block.hash block entry)) false =
          some (some (.rollForward ⟨height, block.hash⟩ block ctx false)) ∧
        processAction (logToResponseWithCtx o' (.apply height block entry)) true =
          some (some (.rollForward ⟨height, block.hash⟩ block ctx true)) := by
  obtain ⟨resolver, staged, entry, hstaged, -, hrunes, -, -, hblock, hentry, hlog⟩ := apply_stores h
  have hne : ∀ e ∈ entry.outputRunes, e.2 ≠ [] := by
    rw [hrunes]
    exact ((stageTxs_notes hstaged).1.staged ⟨fun e he => (List.not_mem_nil he).elim,
      fun e he => (List.not_mem_nil he).elim⟩).runes
  refine ⟨entry, contextOf entry, hblock, hentry, hlog rfl, fun o o' => ⟨?_, ?_⟩⟩
  · exact processAction_paged o height block entry false
  · exact processAction_streamed o' height block true hne

/-- A block that moves an inscription. -/
theorem paged_streamed_agree_moved :
    ∃ n' entry ctx, applyBlockWithContext emptyScripts fromFirstBlock ⟨true, true⟩ 2 movedAndPaid true revealedNode =
        .ok ⟨⟩ n' ∧
      n'.db.tables.resolverByHeight.get 2 = some entry ∧
      ∀ o o' : Compressor.HashOrder,
        processAction (.apply (pagedBlock o 2 movedAndPaid.hash movedAndPaid entry)) false =
          some (some (.rollForward ⟨2, movedAndPaid.hash⟩ movedAndPaid ctx false)) ∧
        processAction (logToResponseWithCtx o' (.apply 2 movedAndPaid entry)) true =
          some (some (.rollForward ⟨2, movedAndPaid.hash⟩ movedAndPaid ctx true)) := by
  have hsome : (runCalls emptyScripts fromFirstBlock revealedNode [⟨2, movedAndPaid, true, ⟨true, true⟩⟩]).isSome =
      true := by
    decide +kernel
  have hrun := runCalls_single hsome
  obtain ⟨entry, ctx, -, hentry, -, hagree⟩ := paged_streamed_agree hrun
  exact ⟨_, entry, ctx, hrun, hentry, hagree⟩

/-! ## Offsets -/

section

variable {entry : ResolverEntry} {block : Block} {resolver : Table TxoRef TxoBody} {staged : Staged}
  {ref : TxoRef} {body : TxoBody}

/-- Reading the inscriptions of an output. -/
theorem get_indexedInscriptions (t : Table TxoRef (List (U32 × InscriptionId)))
    (l : List (TxoRef × List (U64 × InscriptionId))) (ref : TxoRef) :
    (t.insertAll (indexedInscriptions l)).get ref =
      if listed l ref = [] then t.get ref else some (castInscriptions (listed l ref)) := by
  have hkeys : (indexedInscriptions l).map Prod.fst = (gatherInscriptions l).entries.map Prod.fst := by
    unfold indexedInscriptions
    rw [List.map_map]
    rfl
  have hget := get_gatherInscriptions l ref
  split
  · rename_i hnone
    rw [if_pos hnone] at hget
    refine Table.get_insertAll_of_notMem fun hmem => ?_
    rw [hkeys, Table.mem_keys, hget] at hmem
    obtain ⟨v, hv⟩ := hmem
    cases hv
  · rename_i hsome
    rw [if_neg hsome] at hget
    refine Table.get_insertAll_of_mem (by rw [hkeys]; exact Table.keys_nodup _) ?_
    exact List.mem_map.mpr ⟨_, Table.mem_entries.mpr hget, rfl⟩

/-- The inscriptions listed from a table. -/
theorem listed_entries (t : Table TxoRef TxoBody) (ref : TxoRef) :
    listed (t.entries.map fun e => (e.1, e.2.inscriptions)) ref = ((t.get ref).map TxoBody.inscriptions).getD [] := by
  have hmem : ∀ {l : List (TxoRef × TxoBody)}, Entries.Sorted l →
      listed (l.map fun e => (e.1, e.2.inscriptions)) ref =
        ((Entries.get l ref).map TxoBody.inscriptions).getD [] := by
    intro l hs
    induction l with
    | nil => rfl
    | cons e l ih =>
      unfold listed at ih ⊢
      rw [List.map_cons]
      by_cases href : e.1 = ref
      · have hrest : (l.map fun e => (e.1, e.2.inscriptions)).filter (fun e => e.1 = ref) = [] := by
          refine List.filter_eq_nil_iff.mpr fun e' he' hkey => ?_
          obtain ⟨e'', he'', rfl⟩ := List.mem_map.mp he'
          have hlt := hs.head_lt e'' he''
          rw [href] at hlt
          exact absurd (of_decide_eq_true hkey) (ne_of_gt hlt)
        rw [List.filter_cons_of_pos (by simpa using href), hrest]
        simp [Entries.get, href]
      · rw [List.filter_cons_of_neg (by simpa using href), ih hs.tail]
        have hget : Entries.get (e :: l) ref = Entries.get l ref := by
          simp [Entries.get, href]
        rw [hget]
  exact hmem t.sorted

/-- An inscription is held for an output exactly when it is one of those it is stored with, up to the cast. -/
theorem mem_utxoInscriptions (hresolver : entry.resolver = resolver.filter fun ref _ => (inputRefs block).contains ref)
    (houtputs : entry.outputInscriptions = staged.outputInscriptions) (hstaged : StagedFrom resolver staged)
    (hbody : resolver.get ref = some body)
    (htouched : (entry.resolver.get ref).isSome = true ∨ body.inscriptions = [] ∨
      (ref, body.inscriptions) ∈ staged.outputInscriptions) (x : U32 × InscriptionId) :
    x ∈ ((contextOf entry).utxoInscriptions ref).getD [] ↔ x ∈ castInscriptions body.inscriptions := by
  have hinput : entry.resolver.get ref = some body ∨ entry.resolver.get ref = none := by
    rw [hresolver, Table.get_filter, hbody]
    simp only [Option.filter]
    split
    · exact Or.inl rfl
    · exact Or.inr rfl
  have hlisted : ∀ e, e ∈ listed entry.outputInscriptions ref → e ∈ body.inscriptions := by
    intro e he
    obtain ⟨e', he', hmem⟩ := List.mem_flatMap.mp he
    obtain ⟨hin, hkey⟩ := List.mem_filter.mp he'
    rw [houtputs] at hin
    obtain ⟨body', hbody', hinscriptions⟩ := hstaged.inscriptions e' hin
    rw [of_decide_eq_true hkey, hbody] at hbody'
    cases hbody'
    rw [hinscriptions]
    exact hmem
  have hin : listed (entry.resolver.entries.map fun e => (e.1, e.2.inscriptions)) ref =
      ((entry.resolver.get ref).map TxoBody.inscriptions).getD [] := listed_entries entry.resolver ref
  unfold BlockContext.utxoInscriptions contextOf
  simp only
  rw [get_indexedInscriptions, get_indexedInscriptions, hin]
  by_cases hempty : listed entry.outputInscriptions ref = []
  · -- nothing is listed for it as an output of the block
    rw [if_pos hempty]
    have hnot : body.inscriptions = [] ∨ (entry.resolver.get ref).isSome = true := by
      rcases htouched with hsome | hnone | hmem
      · exact Or.inr hsome
      · exact Or.inl hnone
      · left
        by_contra hne
        obtain ⟨e, he⟩ := List.exists_mem_of_ne_nil _ hne
        have hmem' : e ∈ listed entry.outputInscriptions ref := by
          refine List.mem_flatMap.mpr ⟨(ref, body.inscriptions), List.mem_filter.mpr ⟨?_, decide_eq_true rfl⟩, he⟩
          rw [houtputs]
          exact hmem
        rw [hempty] at hmem'
        cases hmem'
    rcases hinput with hsome | hnone
    · rw [hsome]
      simp only [Option.map_some, Option.getD_some]
      split
      · rename_i hnil
        rw [hnil]
        exact Iff.rfl
      · exact Iff.rfl
    · rw [hnone] at hnot ⊢
      rcases hnot with hnil | hfalse
      · rw [hnil]
        exact Iff.rfl
      · cases hfalse
  · rw [if_neg hempty]
    simp only [Option.getD_some]
    -- the listed inscriptions are those of the output, once for each time it is listed
    have hsame : ∀ e, e ∈ listed entry.outputInscriptions ref ↔ e ∈ body.inscriptions := by
      refine fun e => ⟨hlisted e, fun he => ?_⟩
      obtain ⟨e₀, he₀⟩ := List.exists_mem_of_ne_nil _ hempty
      obtain ⟨e', he', -⟩ := List.mem_flatMap.mp he₀
      obtain ⟨hmem, hkey⟩ := List.mem_filter.mp he'
      rw [houtputs] at hmem
      obtain ⟨body', hbody', hinscriptions⟩ := hstaged.inscriptions e' hmem
      rw [of_decide_eq_true hkey, hbody] at hbody'
      cases hbody'
      refine List.mem_flatMap.mpr ⟨e', he', ?_⟩
      rw [← hinscriptions]
      exact he
    unfold castInscriptions
    simp only [List.mem_map, hsame]

end

/-- The outputs that a block consumes, and those it produces, with what is stored for them. -/
def Touched (block : Block) (entry : ResolverEntry) (txos : Table TxoRef TxoBody) (ref : TxoRef) (body : TxoBody) :
    Prop :=
  entry.resolver.get ref = some body ∨ ((∃ tx ∈ block.txdata, ref ∈ outputRefs tx) ∧ txos.get ref = some body)

/-- The inscriptions held for an output are those it is stored with, at the same offsets. -/
def OffsetsHeld (ctx : BlockContext) (ref : TxoRef) (body : TxoBody) : Prop :=
  ∀ (offset : Nat) (id : InscriptionId),
    (∃ held ∈ (ctx.utxoInscriptions ref).getD [], held.1.val = offset ∧ held.2 = id) ↔
      ∃ stored ∈ body.inscriptions, stored.1.val = offset ∧ stored.2 = id

/-- A context that reaches the reducers, from a page or from the stream. -/
def Served (height : Nat) (block : Block) (entry : ResolverEntry) (ctx : BlockContext) : Prop :=
  ∃ (o : Compressor.HashOrder) (point : Point) (mutable : Bool),
    processAction (.apply (pagedBlock o height block.hash block entry)) mutable =
        some (some (.rollForward point block ctx mutable)) ∨
      processAction (logToResponseWithCtx o (.apply height block entry)) mutable =
        some (some (.rollForward point block ctx mutable))

/-- The offsets of an output survive exactly when they fit in 32 bits. -/
theorem offsetsHeld_iff {ctx : BlockContext} {ref : TxoRef} {body : TxoBody}
    (h : ∀ x, x ∈ (ctx.utxoInscriptions ref).getD [] ↔ x ∈ castInscriptions body.inscriptions) :
    OffsetsHeld ctx ref body ↔ ∀ e ∈ body.inscriptions, e.1.val < 2 ^ 32 := by
  constructor
  · intro hheld e he
    obtain ⟨held, -, hoffset, -⟩ := (hheld e.1.val e.2).mpr ⟨e, he, rfl, rfl⟩
    rw [← hoffset]
    exact held.1.isLt
  · intro hfits offset id
    have hcast : ∀ e ∈ body.inscriptions, (Fin.ofNat (2 ^ 32) e.1.val).val = e.1.val :=
      fun e he => Nat.mod_eq_of_lt (hfits e he)
    constructor
    · rintro ⟨held, hheld, rfl, rfl⟩
      obtain ⟨e, he, rfl⟩ := List.mem_map.mp ((h held).mp hheld)
      exact ⟨e, he, (hcast e he).symm, rfl⟩
    · rintro ⟨e, he, rfl, rfl⟩
      exact ⟨_, (h _).mpr (List.mem_map.mpr ⟨e, he, rfl⟩), hcast e he, rfl⟩

/-- **The offsets of inscriptions reach the indexer** exactly when every inscription on a consumed or produced output
is at an offset below 2^32. -/
theorem offsets_survive_iff {deps : Deps} {cfg : Compressor.Config} {rocks : Rocks} {n n' : Node} {height : Nat}
    {block : Block} {mutable : Bool} (h : applyBlockWithContext deps cfg rocks height block mutable n = .ok ⟨⟩ n') :
    ∃ entry, n'.db.tables.resolverByHeight.get height = some entry ∧ (∃ ctx, Served height block entry ctx) ∧
      ((∀ ctx, Served height block entry ctx → ∀ ref body, Touched block entry n'.db.tables.txos ref body →
          OffsetsHeld ctx ref body) ↔
        ∀ ref body, Touched block entry n'.db.tables.txos ref body → ∀ e ∈ body.inscriptions, e.1.val < 2 ^ 32) := by
  obtain ⟨resolver, staged, entry, hstaged, hresolver, hrunes, houtputs, htxos, -, hentry, -⟩ := apply_stores h
  obtain ⟨hnotes, hnoted⟩ := stageTxs_notes hstaged
  have hfrom := hnotes.staged ⟨fun e he => (List.not_mem_nil he).elim, fun e he => (List.not_mem_nil he).elim⟩
  have hserved : ∀ ctx, Served height block entry ctx → ctx = contextOf entry := by
    rintro ctx ⟨o, point, mutable, hpaged | hstreamed⟩
    · rw [processAction_paged] at hpaged
      cases hpaged
      rfl
    · rw [processAction_streamed o height block mutable (by rw [hrunes]; exact hfrom.runes)] at hstreamed
      cases hstreamed
      rfl
  have hthere : Served height block entry (contextOf entry) :=
    ⟨Compressor.HashOrder.byKey, _, false, Or.inl (processAction_paged _ height block entry false)⟩
  -- for every output touched, what is held is what is stored, up to the cast
  have hheld : ∀ ref body, Touched block entry n'.db.tables.txos ref body →
      ∀ x, x ∈ ((contextOf entry).utxoInscriptions ref).getD [] ↔ x ∈ castInscriptions body.inscriptions := by
    rintro ref body (hinput | ⟨⟨tx, htx, href⟩, hstored⟩)
    · have hbody : resolver.get ref = some body := by
        rw [hresolver, Table.get_filter] at hinput
        exact (Option.filter_eq_some_iff.mp hinput).1
      exact mem_utxoInscriptions hresolver houtputs hfrom hbody (Or.inl (by rw [hinput]; rfl))
    · obtain ⟨body', hbody', hlisted, hsame⟩ := hnoted tx htx ref href
      rw [htxos] at hstored
      rw [hsame body hstored]
      exact mem_utxoInscriptions hresolver houtputs hfrom hbody' (Or.inr hlisted)
  refine ⟨entry, hentry, ⟨_, hthere⟩, ?_⟩
  constructor
  · intro hall ref body htouched
    exact (offsetsHeld_iff (hheld ref body htouched)).mp (hall _ hthere ref body htouched)
  · intro hfits ctx hctx ref body htouched
    rw [hserved ctx hctx]
    exact (offsetsHeld_iff (hheld ref body htouched)).mpr (hfits ref body htouched)

/-- An inscription is moved behind the 5000000000 units of another input. -/
def movedFar : Block := ⟨3, 2, [coinbaseTx 13 [5000000000],
  ⟨14, [⟨⟨11, 0⟩, []⟩, ⟨⟨12, 1⟩, []⟩], [⟨5000001000, []⟩]⟩]⟩

/-- Offsets below 2^32 survive. -/
theorem offsets_survive_iff_moved :
    ∃ n' entry, applyBlockWithContext emptyScripts fromFirstBlock ⟨true, true⟩ 2 movedAndPaid true revealedNode =
        .ok ⟨⟩ n' ∧
      n'.db.tables.resolverByHeight.get 2 = some entry ∧
      ((∀ ctx, Served 2 movedAndPaid entry ctx → ∀ ref body, Touched movedAndPaid entry n'.db.tables.txos ref body →
          OffsetsHeld ctx ref body) ↔
        ∀ ref body, Touched movedAndPaid entry n'.db.tables.txos ref body →
          ∀ e ∈ body.inscriptions, e.1.val < 2 ^ 32) := by
  have hsome : (runCalls emptyScripts fromFirstBlock revealedNode [⟨2, movedAndPaid, true, ⟨true, true⟩⟩]).isSome =
      true := by
    decide +kernel
  have hrun := runCalls_single hsome
  obtain ⟨entry, hentry, -, hiff⟩ := offsets_survive_iff hrun
  exact ⟨_, entry, hrun, hentry, hiff⟩

/-- The offset 5000000000 is read as 705032704. -/
theorem offset_truncated :
    ∃ n' entry ctx body, applyBlockWithContext emptyScripts fromFirstBlock ⟨true, true⟩ 2 movedFar true revealedNode =
        .ok ⟨⟩ n' ∧
      n'.db.tables.resolverByHeight.get 2 = some entry ∧ Served 2 movedFar entry ctx ∧
      Touched movedFar entry n'.db.tables.txos ⟨14, 0⟩ body ∧
      body.inscriptions.map (fun e => e.1.val) = [5000000000] ∧
      ((ctx.utxoInscriptions ⟨14, 0⟩).getD []).map (fun e => e.1.val) = [705032704] ∧
      ¬ OffsetsHeld ctx ⟨14, 0⟩ body := by
  have hsome : (runCalls emptyScripts fromFirstBlock revealedNode [⟨2, movedFar, true, ⟨true, true⟩⟩]).isSome = true := by
    decide +kernel
  have hrun := runCalls_single hsome
  have hentry : ((performed emptyScripts fromFirstBlock revealedNode
      [⟨2, movedFar, true, ⟨true, true⟩⟩]).2.db.tables.resolverByHeight.get 2).map (fun entry =>
        (((contextOf entry).utxoInscriptions ⟨14, 0⟩).getD []).map fun e => e.1.val) = some [705032704] := by
    decide +kernel
  have hbody : ((performed emptyScripts fromFirstBlock revealedNode
      [⟨2, movedFar, true, ⟨true, true⟩⟩]).2.db.tables.txos.get ⟨14, 0⟩).map (fun body =>
        body.inscriptions.map fun e => e.1.val) = some [5000000000] := by
    decide +kernel
  obtain ⟨entry, hentry, hread⟩ := Option.map_eq_some_iff.mp hentry
  obtain ⟨body, hbody, hstored⟩ := Option.map_eq_some_iff.mp hbody
  refine ⟨_, entry, contextOf entry, body, hrun, hentry, ?_, ?_, hstored, hread, fun hheld => ?_⟩
  · exact ⟨Compressor.HashOrder.byKey, _, false, Or.inl (processAction_paged _ 2 movedFar entry false)⟩
  · exact Or.inr ⟨⟨_, List.mem_cons_of_mem _ (List.mem_singleton_self _), by decide +kernel⟩, hbody⟩
  · have hmem : 5000000000 ∈ body.inscriptions.map fun e => e.1.val := by
      rw [hstored]
      exact List.mem_singleton_self _
    obtain ⟨e, he, heq⟩ := List.mem_map.mp hmem
    obtain ⟨held, -, hoffset, -⟩ := (hheld e.1.val e.2).mpr ⟨e, he, rfl, rfl⟩
    have hlt := held.1.isLt
    omega

end DogeIndexer.Polyphony
