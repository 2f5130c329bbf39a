import DogeIndexer.Compressor.Debits
import DogeIndexer.Compressor.Holdings

/-!
# Inscriptions on outputs are recorded

An inscription is on no more outputs, and is carried to the coinbase no more often, than it has been
recorded, whether or not ids are distinct.

* `InscriptionsStep.idsRecorded` — one transaction.
* `eq_of_idsOn_le_one` — an inscription that is held once is on one output, at one place.
* `Applied.sound_final`, `Applied.sound_tables` — one block keeps this, and that the numbers on outputs have the widths of
  the messages.
-/

set_option autoImplicit false

namespace DogeIndexer.Compressor

open Fallible

/-- No inscription is on outputs, or carried to the coinbase, more often than it is recorded. -/
def IdsRecorded (live : Table TxoRef TxoBody) (i : InscriptionState) (recorded : List InscriptionId) : Prop :=
  ∀ id, idsOn live id + (i.cbInscriptions.map Flotsam.inscriptionId).count id ≤ recorded.count id

section

variable {deps : Deps} {cfg : Config} {resolver : Table TxoRef TxoBody} {tx : Transaction} {height : Nat}
  {s s' : InscriptionState} {r : IndexInscriptionsResult} {live live' : Table TxoRef TxoBody}
  {placed : List (List (U64 × InscriptionId))} {transfers : Table InscriptionId (Ticker × U128)}
  {messages : List (InscriptionId × BRC20Message)} {bodies : List TxoBody} {earlier : List InscriptionId}

/-- An indexed transaction moves what floats, and records what it reveals. -/
theorem Indexed.idsRecorded (run : Indexed deps cfg resolver tx tx.txid height s r s')
    (h : IdsRecorded live s (earlier ++ s.newInscriptions.map NewInscriptionInfo.id))
    (hresolved : Resolved resolver tx.input)
    (hproduced : Produced height tx r.outputInscriptions transfers bodies)
    (hreplaced : Replaced live live' (inputBodies resolver tx.input) bodies) (hlen : tx.output.length < 2 ^ 32) :
    IdsRecorded live' s' (earlier ++ s'.newInscriptions.map NewInscriptionInfo.id) := by
  obtain ⟨revealed, hrecords, hperm⟩ := run.ids_perm hresolved
  intro id
  have hbefore := h id
  have hfloats := hperm.count_eq id
  have hplaced : (bodies.map fun body => body.ids.count id).sum = run.placedIds.count id := by
    rw [← (run.outputs_ids hlen hproduced).count_eq id, List.count_flatMap]
    rfl
  have hinputs : ((inputBodies resolver tx.input).flatMap TxoBody.ids).count id =
      ((inputBodies resolver tx.input).map fun body => body.ids.count id).sum := by
    rw [List.count_flatMap]
    rfl
  obtain ⟨kept, hlive, hlive'⟩ := hreplaced.weights fun body => body.ids.count id
  rw [hrecords, ← List.append_assoc]
  unfold idsOn at hbefore ⊢
  rw [List.count_append, List.count_append, List.count_append, hinputs] at hfloats
  rw [List.count_append]
  -- the coinbase takes up what has been carried to it; what others leave is carried
  rcases run.rest_cases with ⟨hcoin, hcb, -⟩ | ⟨hcoin, hcb, -⟩
  · rw [hcb, List.map_nil, List.count_nil]
    rw [if_pos hcoin] at hfloats
    omega
  · have hcarried : run.carried.map Flotsam.inscriptionId = run.leftIds := by
      unfold Indexed.carried Indexed.leftIds
      rw [List.map_map]
      rfl
    rw [hcb, List.map_append, List.count_append, hcarried]
    rw [if_neg (by simp [hcoin]), List.map_nil, List.count_nil] at hfloats
    omega

/-- The outputs of a transaction below the first height of inscriptions carry none. -/
theorem Produced.plain (h : Produced height tx (tx.output.map fun _ => []) transfers bodies) :
    ∀ body ∈ bodies, body.inscriptions = [] := by
  intro body hbody
  have hmem := List.mem_map_of_mem (f := TxoBody.inscriptions) hbody
  rw [h.inscriptions] at hmem
  obtain ⟨_, -, heq⟩ := List.mem_map.mp hmem
  exact heq.symm

/-- **One transaction** keeps inscriptions recorded. -/
theorem InscriptionsStep.idsRecorded
    (hstep : InscriptionsStep deps cfg height tx resolver s placed transfers messages s')
    (h : IdsRecorded live s (earlier ++ s.newInscriptions.map NewInscriptionInfo.id))
    (hresolved : Resolved resolver tx.input) (hproduced : Produced height tx placed transfers bodies)
    (hreplaced : Replaced live live' (inputBodies resolver tx.input) bodies) (hlen : tx.output.length < 2 ^ 32) :
    IdsRecorded live' s' (earlier ++ s'.newInscriptions.map NewInscriptionInfo.id) := by
  cases hstep with
  | indexed hheight hindex =>
    obtain ⟨run⟩ := indexInscriptions_ok hindex
    exact run.idsRecorded h hresolved hproduced hreplaced hlen
  | skipped hheight =>
    intro id
    have hbefore := h id
    obtain ⟨kept, hlive, hlive'⟩ := hreplaced.weights fun body => body.ids.count id
    have hnone : (bodies.map fun body => body.ids.count id).sum = 0 := by
      refine List.sum_eq_zero fun v hv => ?_
      obtain ⟨body, hbody, rfl⟩ := List.mem_map.mp hv
      unfold TxoBody.ids
      rw [hproduced.plain body hbody]
      rfl
    unfold idsOn at hbefore ⊢
    omega

end

/-! ## A block -/

section

variable {deps : Deps} {cfg : Config} {n n' : Node} {height : Nat} {block : Block} {mutable : Bool}
  {earlier : List InscriptionId}

/-- A processed transaction keeps inscriptions recorded. -/
theorem ProcessedTx.idsRecorded {idx : Nat} {tx : Transaction} {s s₁ : BlockState} {live : Table TxoRef TxoBody}
    (run : ProcessedTx deps cfg height idx tx s s₁) (hlive : LiveTx live tx s) (hnull : OutPoint.null ∉ spent tx)
    (hlen : tx.output.length < 2 ^ 32)
    (h : IdsRecorded live s.inscriptions (earlier ++ s.inscriptions.newInscriptions.map NewInscriptionInfo.id)) :
    IdsRecorded (afterTx live tx run.bodies) s₁.inscriptions
      (earlier ++ s₁.inscriptions.newInscriptions.map NewInscriptionInfo.id) := by
  rw [run.inscriptions_eq]
  exact run.inscriptions.idsRecorded h hlive.resolved run.produced (hlive.replaced hnull run.bodies) hlen

/-- The coinbase, which comes last, keeps them recorded. -/
theorem Applied.idsRecorded_coinbase (run : Applied deps cfg n height block mutable n')
    (hvalid : ValidBlock n.db.tables height block) {live : Table TxoRef TxoBody}
    (hfresh : ∀ vout, live.get ⟨run.processed.coinbase.txid, vout⟩ = none)
    (h : IdsRecorded live run.processed.closed.inscriptions
      (earlier ++ run.processed.closed.inscriptions.newInscriptions.map NewInscriptionInfo.id)) :
    IdsRecorded (afterCoinbase live run) run.final.inscriptions
      (earlier ++ run.final.inscriptions.newInscriptions.map NewInscriptionInfo.id) := by
  obtain ⟨hcbSpent, -⟩ := hvalid.coinbase.not_null run.processed.txdata
  obtain ⟨hresolved, hnone⟩ := coinbase_inputs hcbSpent run.processed.closed.resolver
  rw [run.processed.inscriptions_eq]
  refine run.processed.inscriptions.idsRecorded h hresolved run.processed.produced ?_
    (hvalid.outputs _ (by rw [run.processed.txdata]; exact List.mem_cons_self))
  rw [hnone]
  exact replaced_coinbase hfresh _

end

/-! ## Once -/

/-- **Where an inscription is held once**, one output holds it, at one place. -/
theorem eq_of_idsOn_le_one {live : Table TxoRef TxoBody} {id : InscriptionId} (h : idsOn live id ≤ 1)
    {ref ref' : TxoRef} {body body' : TxoBody} (hget : live.get ref = some body) (hget' : live.get ref' = some body')
    {e e' : U64 × InscriptionId} (he : e ∈ body.inscriptions) (he' : e' ∈ body'.inscriptions) (hid : e.2 = id)
    (hid' : e'.2 = id) : ref = ref' ∧ e = e' := by
  have hpos : ∀ {body : TxoBody} {e : U64 × InscriptionId}, e ∈ body.inscriptions → e.2 = id →
      0 < body.ids.count id := by
    intro body e he hid
    exact List.count_pos_iff.mpr (List.mem_map.mpr ⟨e, he, hid⟩)
  have herase := Table.total_erase (fun _ (body : TxoBody) => body.ids.count id) live ref
  rw [Table.weightAt_of_get hget] at herase
  have htotal : idsOn live id = live.total fun _ body => body.ids.count id := rfl
  by_cases href : ref = ref'
  · subst href
    rw [hget] at hget'
    cases hget'
    refine ⟨rfl, ?_⟩
    -- two places would be counted twice
    have hone : (body.inscriptions.map Prod.snd).count id ≤ 1 := by
      have hbody : (body.inscriptions.map Prod.snd).count id = body.ids.count id := rfl
      omega
    by_contra hne
    have hsub : [e, e'].Subperm body.inscriptions := by
      refine List.subperm_of_subset ?_ ?_
      · exact List.nodup_cons.mpr ⟨by simpa using hne, List.nodup_singleton _⟩
      · intro x hx
        rcases List.mem_cons.mp hx with rfl | hx
        · exact he
        · rw [List.mem_singleton.mp hx]
          exact he'
    obtain ⟨l, hperm, hsublist⟩ := hsub
    have htwo := (hsublist.map Prod.snd).count_le id
    rw [(hperm.map Prod.snd).count_eq id, List.map_cons, List.map_cons, List.map_nil, hid, hid',
      List.count_cons_self, List.count_cons_self] at htwo
    omega
  · have hother : (live.erase ref).get ref' = some body' := by
      rw [Table.get_erase, if_neg (Ne.symm href)]
      exact hget'
    have hle := Table.total_erase (fun _ (body : TxoBody) => body.ids.count id) (live.erase ref) ref'
    rw [Table.weightAt_of_get hother] at hle
    have hone := hpos he hid
    have htwo := hpos he' hid'
    omega

/-! ## Numbers in the widths of the messages -/

/-- Each dune is listed once, and the numbers in ids have the widths of the messages. -/
structure TxoBody.Fits (body : TxoBody) : Prop where
  dunes : (body.dunes.map Prod.fst).Nodup
  dune : ∀ e ∈ body.dunes, e.1.block < 2 ^ 64 ∧ e.1.tx < 2 ^ 16
  inscription : ∀ e ∈ body.inscriptions, e.2.index = 0

/-- Dunes are stored from a map, under ids of 64 and 16 bits. -/
theorem stored_fits {bodies : List TxoBody} {dunes : List Balances}
    (h : (bodies.map fun b => b.dunes.map fun e => (some e.1, e.2)) = dunes.map storedDunes) :
    ∀ b ∈ bodies, (b.dunes.map Prod.fst).Nodup ∧ ∀ e ∈ b.dunes, e.1.block < 2 ^ 64 ∧ e.1.tx < 2 ^ 16 := by
  intro b hb
  have hmem : (b.dunes.map fun e => (some e.1, e.2)) ∈ dunes.map storedDunes := by
    rw [← h]
    exact List.mem_map_of_mem (f := fun b : TxoBody => b.dunes.map fun e => (some e.1, e.2)) hb
  obtain ⟨m, -, hm⟩ := List.mem_map.mp hmem
  have hentries : (b.dunes.map fun e => (e.1.toU128, e.2)) = m.entries := stored_entries hm.symm
  constructor
  · refine List.Nodup.of_map DuneId.toU128 ?_
    have hkeys : (b.dunes.map Prod.fst).map DuneId.toU128 = m.entries.map Prod.fst := by
      rw [← hentries, List.map_map, List.map_map]
      rfl
    rw [hkeys]
    exact m.keys_nodup
  · intro e he
    have hstored : (some e.1, e.2) ∈ storedDunes m := by
      rw [hm]
      exact List.mem_map_of_mem (f := fun e : DuneId × U128 => (some e.1, e.2)) he
    obtain ⟨x, -, hx⟩ := List.mem_map.mp hstored
    have hid : DuneId.tryFrom x.1 = some e.1 := congrArg Prod.fst hx
    unfold DuneId.tryFrom at hid
    split at hid
    · rename_i hlt
      rw [← Option.some.inj hid]
      exact ⟨hlt, Nat.mod_lt _ (by decide)⟩
    · cases hid

/-- What is on an output is recorded. -/
theorem IdsRecorded.mem {live : Table TxoRef TxoBody} {i : InscriptionState} {recorded : List InscriptionId}
    (h : IdsRecorded live i recorded) {ref : TxoRef} {body : TxoBody} (hget : live.get ref = some body)
    {e : U64 × InscriptionId} (he : e ∈ body.inscriptions) : e.2 ∈ recorded := by
  have hpos : 0 < body.ids.count e.2 := List.count_pos_iff.mpr (List.mem_map_of_mem he)
  have herase := Table.total_erase (fun _ (body : TxoBody) => body.ids.count e.2) live ref
  rw [Table.weightAt_of_get hget] at herase
  have htotal : idsOn live e.2 = live.total fun _ body => body.ids.count e.2 := rfl
  have hle := h e.2
  exact List.count_pos_iff.mp (by omega)

/-- Between the transactions of a block: inscriptions are recorded, and all numbers fit. -/
structure BlockState.Sound (earlier : List InscriptionId) (live : Table TxoRef TxoBody) (s : BlockState) : Prop where
  recorded : IdsRecorded live s.inscriptions (earlier ++ s.inscriptions.newInscriptions.map NewInscriptionInfo.id)
  index : ∀ id ∈ earlier ++ s.inscriptions.newInscriptions.map NewInscriptionInfo.id, id.index = 0
  live : ∀ ref body, live.get ref = some body → body.Fits
  resolved : ∀ ref body, s.resolver.get ref = some body → body.Fits

section

variable {deps : Deps} {cfg : Config} {n n' : Node} {height : Nat} {block : Block} {mutable : Bool}
  {earlier : List InscriptionId}

theorem index_step {tx : Transaction} {s : BlockState} {placed : List (List (U64 × InscriptionId))}
    {transfers : Table InscriptionId (Ticker × U128)} {messages : List (InscriptionId × BRC20Message)}
    {i : InscriptionState}
    (hstep : InscriptionsStep deps cfg height tx s.resolver s.inscriptions placed transfers messages i)
    (h : ∀ id ∈ earlier ++ s.inscriptions.newInscriptions.map NewInscriptionInfo.id, id.index = 0) :
    ∀ id ∈ earlier ++ i.newInscriptions.map NewInscriptionInfo.id, id.index = 0 := by
  intro id hid
  rw [hstep.ids, ← List.append_assoc] at hid
  rcases List.mem_append.mp hid with hid | hid
  · exact h id hid
  · unfold revealedId at hid
    split at hid
    · rw [Option.toList_some, List.mem_singleton] at hid
      rw [hid]
    · cases hid

/-- The outputs of a transaction fit, and so does everything resolved after it. -/
theorem fits_outputs (tx : Transaction) {live live' resolver : Table TxoRef TxoBody} {bodies : List TxoBody}
    {dunes : List Balances} {i : InscriptionState} {recorded : List InscriptionId}
    (hlive : ∀ ref body, live.get ref = some body → body.Fits)
    (hresolved : ∀ ref body, resolver.get ref = some body → body.Fits)
    (hproduced : ∀ ref body, live'.get ref = some body → (∃ ref, live.get ref = some body) ∨ body ∈ bodies)
    (hthere : ∀ vout body, bodies[vout]? = some body → live'.get ⟨tx.txid, vout⟩ = some body)
    (hrecorded : IdsRecorded live' i recorded) (hindex : ∀ id ∈ recorded, id.index = 0)
    (hstored : (bodies.map fun b => b.dunes.map fun e => (some e.1, e.2)) = dunes.map storedDunes) :
    (∀ ref body, live'.get ref = some body → body.Fits) ∧
      ∀ ref body, (resolver.insertAll (numbered tx.txid 0 bodies)).get ref = some body → body.Fits := by
  have hbodies : ∀ body ∈ bodies, body.Fits := by
    intro body hbody
    obtain ⟨vout, hvout⟩ := List.mem_iff_getElem?.mp hbody
    obtain ⟨hnodup, hfit⟩ := stored_fits hstored body hbody
    exact ⟨hnodup, hfit, fun e he => hindex _ (hrecorded.mem (hthere vout body hvout) he)⟩
  refine ⟨fun ref body hget => ?_, fun ref body hget => ?_⟩
  · rcases hproduced ref body hget with ⟨ref', hold⟩ | hnew
    · exact hlive ref' body hold
    · exact hbodies body hnew
  · rcases mem_bodies_of_numbered hget with hold | hnew
    · exact hresolved ref body hold
    · exact hbodies body hnew

theorem BlockState.Sound.step {idx : Nat} {tx : Transaction} {s s₁ : BlockState} {live : Table TxoRef TxoBody}
    (h : s.Sound earlier live) (run : ProcessedTx deps cfg height idx tx s s₁) (hlive : LiveTx live tx s)
    (hnull : OutPoint.null ∉ spent tx) (hlen : tx.output.length < 2 ^ 32) :
    s₁.Sound earlier (afterTx live tx run.bodies) := by
  have hrecorded := run.idsRecorded hlive hnull hlen h.recorded
  have hindex : ∀ id ∈ earlier ++ s₁.inscriptions.newInscriptions.map NewInscriptionInfo.id, id.index = 0 := by
    rw [run.inscriptions_eq]
    exact index_step run.inscriptions h.index
  obtain ⟨hfits, hresolved⟩ := fits_outputs tx h.live h.resolved
    (hlive.replaced hnull run.bodies).produced
    (fun vout body hbody => (get_afterTx_self (hlive.fresh vout)).trans hbody) hrecorded hindex run.stored
  refine ⟨hrecorded, hindex, hfits, ?_⟩
  rw [run.resolver_eq]
  exact hresolved

theorem Applied.sound_coinbase (run : Applied deps cfg n height block mutable n')
    (hvalid : ValidBlock n.db.tables height block) {live : Table TxoRef TxoBody}
    (hfresh : ∀ vout, live.get ⟨run.processed.coinbase.txid, vout⟩ = none) (h : run.processed.closed.Sound earlier live) :
    run.final.Sound earlier (afterCoinbase live run) := by
  have hrecorded := run.idsRecorded_coinbase hvalid hfresh h.recorded
  have hindex : ∀ id ∈ earlier ++ run.final.inscriptions.newInscriptions.map NewInscriptionInfo.id, id.index = 0 := by
    rw [run.processed.inscriptions_eq]
    exact index_step run.processed.inscriptions h.index
  obtain ⟨hfits, hresolved⟩ := fits_outputs run.processed.coinbase h.live h.resolved
    (replaced_coinbase hfresh run.processed.bodies).produced
    (fun vout body hbody => Table.get_insertAll_of_mem (numbered_nodup _ _ _)
      (mem_numbered.mpr ⟨rfl, vout, by simp, hbody⟩)) hrecorded hindex run.processed.stored
  refine ⟨hrecorded, hindex, hfits, ?_⟩
  rw [run.processed.resolver_eq]
  exact hresolved

/-- The outputs of a node's tables, and the inscriptions on them. -/
structure Tables.Sound (t : Tables) : Prop where
  recorded : ∀ id, idsOn t.txos id ≤ (t.records.map NewInscriptionInfo.id).count id
  index : ∀ id ∈ t.records.map NewInscriptionInfo.id, id.index = 0
  fits : ∀ ref body, t.txos.get ref = some body → body.Fits

theorem Tables.Sound.empty : Tables.empty.Sound :=
  ⟨fun _ => Nat.le_refl 0, fun _ hid => (List.not_mem_nil hid).elim, fun ref body hget => by cases hget⟩

/-- A valid block starts from sound tables. -/
theorem Applied.sound_started (run : Applied deps cfg n height block mutable n')
    (hvalid : ValidBlock n.db.tables height block) (hsettled : Settled n.mem n.db.tables.txos)
    (h : n.db.tables.Sound) :
    run.processed.started.Sound (n.db.tables.records.map NewInscriptionInfo.id) n.db.tables.txos := by
  have hnone : run.processed.started.inscriptions.newInscriptions = [] := by
    rw [run.processed.started_inscriptions.1]
    rfl
  refine ⟨?_, ?_, h.fits, fun ref body hget => ?_⟩
  · intro id
    rw [hnone, List.map_nil, List.append_nil, run.processed.started_inscriptions.1]
    exact h.recorded id
  · rw [hnone, List.map_nil, List.append_nil]
    exact h.index
  · rw [run.processed.started_resolver rfl ref] at hget
    split at hget
    · rename_i hexternal
      obtain ⟨stored, hstored⟩ := hvalid.external_stored hexternal
      have hsame : body = stored := by
        cases hmem : n.mem.get ref with
        | none =>
          have hget' : (n.mem.get ref).or (n.db.tables.txos.get ref) = some body := hget
          rw [hmem, Option.none_or, hstored] at hget'
          exact (Option.some.inj hget').symm
        | some held =>
          have hget' : (n.mem.get ref).or (n.db.tables.txos.get ref) = some body := hget
          rw [hmem, Option.some_or] at hget'
          cases hget'
          exact hsettled.agrees ref body stored hmem hstored
      rw [hsame]
      exact h.fits ref stored hstored
    · cases hget

/-- **A block keeps the tables sound**; what it has resolved fits. -/
theorem Applied.sound_final (run : Applied deps cfg n height block mutable n')
    (hvalid : ValidBlock n.db.tables height block) (hsettled : Settled n.mem n.db.tables.txos)
    (h : n.db.tables.Sound) :
    run.final.Sound (n.db.tables.records.map NewInscriptionInfo.id) n'.db.tables.txos := by
  obtain ⟨-, hothers⟩ := hvalid.coinbase.not_null run.processed.txdata
  have hend := run.live_induct hvalid hsettled.agrees hsettled.null
    (P := fun live _ s => s.Sound (n.db.tables.records.map NewInscriptionInfo.id) live)
    (run.sound_started hvalid hsettled h) ?_
  · obtain ⟨live, hlive, hfresh, htxos⟩ := hend
    rw [htxos]
    exact run.sound_coinbase hvalid hfresh hlive
  · intro live done tx idx s s₁ ptx hidx _ hliveTx _ hP
    have htx : tx ∈ run.processed.txs := List.fst_mem_of_mem_zipIdx hidx
    exact hP.step ptx hliveTx (hothers tx htx)
      (hvalid.outputs _ (by rw [run.processed.txdata]; exact List.mem_cons_of_mem _ htx))

theorem Applied.sound_tables (run : Applied deps cfg n height block mutable n')
    (hvalid : ValidBlock n.db.tables height block) (hsettled : Settled n.mem n.db.tables.txos)
    (hsourced : Sourced n.db.tables) (h : n.db.tables.Sound) : n'.db.tables.Sound := by
  have hfinal := run.sound_final hvalid hsettled h
  have hrecords : n'.db.tables.records.map NewInscriptionInfo.id = n.db.tables.records.map NewInscriptionInfo.id ++
      run.final.inscriptions.newInscriptions.map NewInscriptionInfo.id := by
    rw [run.records_append hvalid hsourced, List.map_append]
  refine ⟨fun id => ?_, ?_, hfinal.live⟩
  · rw [hrecords]
    exact le_trans (Nat.le_add_right _ _) (hfinal.recorded id)
  · rw [hrecords]
    exact hfinal.index

end

end DogeIndexer.Compressor
