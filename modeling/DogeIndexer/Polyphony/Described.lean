import DogeIndexer.Polyphony.Enriched

/-!
# What a context says of an output

The resolver entry of a block holds the outputs that the block spends and lists what it places on its
own outputs.  Its context says of each of them what it is stored with.

* `stageTxs_lists` — the lists of a staged block.
* `EntryOf` — an entry and the outputs it is made from.
* `EntryOf.findUtxo`, `EntryOf.utxoRunes`, `EntryOf.utxoInscriptions` — what the context answers.
-/

set_option autoImplicit false

namespace DogeIndexer.Polyphony

open Compressor Fallible

/-! ## The lists of a staged block -/

/-- The outputs that carry something, with what they carry. -/
def listing {α : Type} (f : TxoBody → List α) (final : Table TxoRef TxoBody) (refs : List TxoRef) :
    List (TxoRef × List α) :=
  refs.filterMap fun ref => (final.get ref).bind fun body => if (f body).isEmpty then none else some (ref, f body)

section

variable {α : Type} {f : TxoBody → List α} {final : Table TxoRef TxoBody} {refs : List TxoRef}

theorem mem_listing {e : TxoRef × List α} :
    e ∈ listing f final refs ↔ e.1 ∈ refs ∧ ∃ body, final.get e.1 = some body ∧ e.2 = f body ∧ f body ≠ [] := by
  unfold listing
  rw [List.mem_filterMap]
  constructor
  · rintro ⟨ref, href, heq⟩
    obtain ⟨body, hbody, heq⟩ := Option.bind_eq_some_iff.mp heq
    split at heq
    · cases heq
    · rename_i hne
      cases heq
      exact ⟨href, body, hbody, rfl, fun hnil => hne (List.isEmpty_iff.mpr hnil)⟩
  · rintro ⟨href, body, hbody, hvalue, hne⟩
    refine ⟨e.1, href, ?_⟩
    rw [hbody, Option.bind_some, if_neg (fun hempty => hne (List.isEmpty_iff.mp hempty)), ← hvalue]

theorem listing_append (refs refs' : List TxoRef) :
    listing f final (refs ++ refs') = listing f final refs ++ listing f final refs' :=
  List.filterMap_append

theorem listing_keys (hn : refs.Nodup) : ((listing f final refs).map Prod.fst).Nodup := by
  refine List.Nodup.sublist ?_ hn
  unfold listing
  induction refs with
  | nil => exact List.Sublist.refl _
  | cons ref refs ih =>
    have ih := ih hn.of_cons
    rw [List.filterMap_cons]
    split
    · exact ih.cons _
    · rename_i e heq
      obtain ⟨body, -, heq⟩ := Option.bind_eq_some_iff.mp heq
      split at heq
      · cases heq
      · cases heq
        exact ih.cons_cons _

end

section

variable {final : Table TxoRef TxoBody} {height : Nat} {hash : BlockHash} {s s' : Staged}

/-- The lists with what outputs add to them. -/
structure Lists (final : Table TxoRef TxoBody) (refs : List TxoRef) (s s' : Staged) : Prop where
  runes : s'.outputRunes = s.outputRunes ++ listing TxoBody.dunes final refs
  inscriptions : s'.outputInscriptions = s.outputInscriptions ++ listing TxoBody.inscriptions final refs

theorem Lists.nil (s : Staged) : Lists final [] s s := ⟨(List.append_nil _).symm, (List.append_nil _).symm⟩

theorem Lists.append {s₁ : Staged} {refs refs' : List TxoRef} (h : Lists final refs s s₁)
    (h' : Lists final refs' s₁ s') : Lists final (refs ++ refs') s s' := by
  refine ⟨?_, ?_⟩
  · rw [h'.runes, h.runes, listing_append, List.append_assoc]
  · rw [h'.inscriptions, h.inscriptions, listing_append, List.append_assoc]

theorem stageOutput_lists {txid : Txid} {e : TxOut × Nat} (h : stageOutput final height hash txid s e = .ok s') :
    Lists final [⟨txid, e.2⟩] s s' := by
  unfold stageOutput at h
  simp only at h
  split at h
  · cases h
  · rename_i body hbody
    cases h
    refine ⟨?_, ?_⟩
    · simp only [listing, List.filterMap_cons, hbody, Option.bind_some, List.filterMap_nil]
      split
      · simp
      · simp
    · simp only [listing, List.filterMap_cons, hbody, Option.bind_some, List.filterMap_nil]
      split
      · simp
      · simp

theorem stageOutputs_lists {txid : Txid} {l : List (TxOut × Nat)}
    (h : l.foldlM (stageOutput final height hash txid) s = .ok s') :
    Lists final (l.map fun e => ⟨txid, e.2⟩) s s' := by
  induction l generalizing s with
  | nil =>
    cases h
    exact .nil _
  | cons e l ih =>
    obtain ⟨s₁, hone, hrest⟩ := foldlM_cons_eq_ok.mp h
    exact (stageOutput_lists hone).append (ih hrest)

theorem zipIdx_refs (tx : Transaction) :
    (tx.output.zipIdx.map fun e => (⟨tx.txid, e.2⟩ : TxoRef)) = outputRefs tx := by
  unfold outputRefs
  rw [List.range_eq_range', ← List.zipIdx_map_snd 0 tx.output, List.map_map]
  rfl

theorem stageTx_lists {tx : Transaction} (h : stageTx final height hash s tx = .ok s') :
    Lists final (outputRefs tx) s s' := by
  unfold stageTx at h
  obtain ⟨s₁, houtputs, h⟩ := bind_eq_ok.mp h
  cases h
  have hlists := stageOutputs_lists houtputs
  rw [zipIdx_refs] at hlists
  exact ⟨hlists.runes, hlists.inscriptions⟩

/-- **The lists of a staged block** are those of its outputs, in order. -/
theorem stageTxs_lists {txs : List Transaction} (h : txs.foldlM (stageTx final height hash) s = .ok s') :
    Lists final (txs.flatMap outputRefs) s s' := by
  induction txs generalizing s with
  | nil =>
    cases h
    exact .nil _
  | cons tx txs ih =>
    obtain ⟨s₁, hone, hrest⟩ := foldlM_cons_eq_ok.mp h
    exact (stageTx_lists hone).append (ih hrest)

end

/-! ## Lookups -/

section

variable {t : Table TxoRef (List (DuneId × U128))} {l : List (TxoRef × List (DuneId × U128))} {ref : TxoRef}
  {runes : List (DuneId × U128)}

theorem get_indexedRunes (hn : (l.map Prod.fst).Nodup) (hmem : (ref, runes) ∈ l) (hne : runes ≠ []) :
    (t.insertAll (indexedRunes l)).get ref = some (castRunes runes) := by
  unfold indexedRunes
  refine Table.get_insertAll_of_mem ?_ ?_
  · rw [List.map_map]
    exact hn.sublist (List.filter_sublist.map Prod.fst)
  · refine List.mem_map.mpr ⟨(ref, runes), List.mem_filter.mpr ⟨hmem, ?_⟩, rfl⟩
    cases runes with
    | nil => exact absurd rfl hne
    | cons e runes => rfl

/-- An output that is not listed, or listed without dunes. -/
theorem get_indexedRunes_of_none (h : ∀ e ∈ l, e.1 = ref → e.2 = []) :
    (t.insertAll (indexedRunes l)).get ref = t.get ref := by
  refine Table.get_insertAll_of_notMem fun hmem => ?_
  obtain ⟨x, hx, rfl⟩ := List.mem_map.mp hmem
  obtain ⟨e, he, rfl⟩ := List.mem_map.mp hx
  obtain ⟨hlisted, hne⟩ := List.mem_filter.mp he
  rw [h e hlisted rfl] at hne
  cases hne

/-- A lookup finds what is listed. -/
theorem get_indexedRunes_cases {v : List (DuneId × U128)} (h : (t.insertAll (indexedRunes l)).get ref = some v) :
    (∃ runes, (ref, runes) ∈ l ∧ v = castRunes runes) ∨ t.get ref = some v := by
  rcases Table.get_insertAll h with hmem | ⟨-, hget⟩
  · obtain ⟨⟨ref', runes⟩, he, heq⟩ := List.mem_map.mp hmem
    cases heq
    exact Or.inl ⟨runes, (List.mem_filter.mp he).1, rfl⟩
  · exact Or.inr hget

end

/-- An entry is made from the resolved outputs of a block. -/
structure EntryOf (final : Table TxoRef TxoBody) (block : Block) (entry : ResolverEntry) : Prop where
  txids : (txIds block).Nodup
  resolver : entry.resolver = final.filter fun ref _ => (inputRefs block).contains ref
  runes : entry.outputRunes = listing TxoBody.dunes final (block.txdata.flatMap outputRefs)
  inscriptions : entry.outputInscriptions = listing TxoBody.inscriptions final (block.txdata.flatMap outputRefs)

theorem outputRefs_nodup {txs : List Transaction} (h : (txs.map Transaction.txid).Nodup) :
    (txs.flatMap outputRefs).Nodup := by
  induction txs with
  | nil => exact List.nodup_nil
  | cons tx txs ih =>
    rw [List.map_cons, List.nodup_cons] at h
    rw [List.flatMap_cons, List.nodup_append]
    refine ⟨List.nodup_range.map fun a c heq => congrArg OutPoint.vout heq, ih h.2, ?_⟩
    intro ref href ref' href' heq
    obtain ⟨tx', htx', hout⟩ := List.mem_flatMap.mp href'
    refine h.1 (List.mem_map.mpr ⟨tx', htx', ?_⟩)
    rw [← (mem_outputRefs.mp href).1, heq, (mem_outputRefs.mp hout).1]

namespace EntryOf

variable {final : Table TxoRef TxoBody} {block : Block} {entry : ResolverEntry} {ref : TxoRef} {body : TxoBody}

theorem nonempty (h : EntryOf final block entry) : ∀ e ∈ entry.outputRunes, e.2 ≠ [] := by
  intro e he
  rw [h.runes] at he
  obtain ⟨-, body, -, hvalue, hne⟩ := mem_listing.mp he
  rw [hvalue]
  exact hne

theorem get_resolver (h : EntryOf final block entry) (hin : ref ∈ inputRefs block) :
    entry.resolver.get ref = final.get ref := by
  rw [h.resolver, Table.get_filter]
  cases final.get ref with
  | none => rfl
  | some body => simp [hin]

theorem get_resolver_cases (h : EntryOf final block entry) (hget : entry.resolver.get ref = some body) :
    ref ∈ inputRefs block ∧ final.get ref = some body := by
  rw [h.resolver, Table.get_filter] at hget
  obtain ⟨hbody, hin⟩ := Option.filter_eq_some_iff.mp hget
  exact ⟨List.contains_iff_mem.mp hin, hbody⟩

/-- An output that the block spends is resolved. -/
theorem findUtxo (h : EntryOf final block entry) (hin : ref ∈ inputRefs block) (hbody : final.get ref = some body) :
    (contextOf entry).findUtxo ref = some ⟨body.height, body.raw⟩ := by
  rw [← h.get_resolver hin] at hbody
  unfold BlockContext.findUtxo contextOf
  refine Table.get_insertAll_of_mem ?_ (List.mem_map.mpr ⟨(ref, body), Table.mem_entries.mpr hbody, rfl⟩)
  rw [List.map_map]
  exact Table.keys_nodup entry.resolver

/-- **The dunes of an output** that the block spends or produces. -/
theorem utxoRunes (h : EntryOf final block entry) (hbody : final.get ref = some body)
    (hin : ref ∈ inputRefs block ∨ ref ∈ block.txdata.flatMap outputRefs) :
    ((contextOf entry).utxoRunes ref).getD [] = castRunes body.dunes := by
  have hresolver : ((entry.resolver.entries.map fun e => (e.1, e.2.dunes)).map Prod.fst).Nodup := by
    rw [List.map_map]
    exact Table.keys_nodup entry.resolver
  have hlisted : ∀ e ∈ entry.outputRunes, e.1 = ref → e.2 = body.dunes := by
    intro e he href
    rw [h.runes] at he
    obtain ⟨-, body', hbody', hvalue, -⟩ := mem_listing.mp he
    rw [href, hbody] at hbody'
    cases hbody'
    exact hvalue
  have hresolved : ∀ e ∈ entry.resolver.entries.map fun e => (e.1, e.2.dunes), e.1 = ref → e.2 = body.dunes := by
    intro e he href
    obtain ⟨⟨ref', body'⟩, hmem, rfl⟩ := List.mem_map.mp he
    have hbody' := (h.get_resolver_cases (Table.mem_entries.mp hmem)).2
    rw [show ref' = ref from href, hbody] at hbody'
    cases hbody'
    rfl
  unfold BlockContext.utxoRunes contextOf
  by_cases hne : body.dunes = []
  · rw [hne] at hlisted hresolved
    simp only
    rw [get_indexedRunes_of_none hlisted, get_indexedRunes_of_none hresolved, hne]
    rfl
  · by_cases hout : ref ∈ block.txdata.flatMap outputRefs
    · have hmem : (ref, body.dunes) ∈ entry.outputRunes := by
        rw [h.runes]
        exact mem_listing.mpr ⟨hout, body, hbody, rfl, hne⟩
      have hkeys : (entry.outputRunes.map Prod.fst).Nodup := by
        rw [h.runes]
        exact listing_keys (outputRefs_nodup h.txids)
      simp only
      rw [get_indexedRunes hkeys hmem hne]
      rfl
    · have hnone : ∀ e ∈ entry.outputRunes, e.1 = ref → e.2 = [] := by
        intro e he href
        rw [h.runes] at he
        exact absurd (href ▸ (mem_listing.mp he).1) hout
      have hmem : (ref, body.dunes) ∈ entry.resolver.entries.map fun e => (e.1, e.2.dunes) :=
        List.mem_map.mpr ⟨(ref, body), Table.mem_entries.mpr ((h.get_resolver (hin.resolve_right hout)).trans hbody), rfl⟩
      simp only
      rw [get_indexedRunes_of_none hnone, get_indexedRunes hresolver hmem hne]
      rfl

/-- The dunes of a context are those of resolved outputs. -/
theorem utxoRunes_cases (h : EntryOf final block entry) {runes : List (DuneId × U128)}
    (hget : (contextOf entry).utxoRunes ref = some runes) :
    ∃ body, final.get ref = some body ∧ runes = castRunes body.dunes := by
  rcases get_indexedRunes_cases hget with ⟨stored, hmem, rfl⟩ | hget
  · rw [h.runes] at hmem
    obtain ⟨-, body, hbody, hvalue, -⟩ := mem_listing.mp hmem
    exact ⟨body, hbody, congrArg castRunes hvalue⟩
  · rcases get_indexedRunes_cases hget with ⟨stored, hmem, rfl⟩ | hget
    · obtain ⟨⟨ref', body⟩, he, heq⟩ := List.mem_map.mp hmem
      cases heq
      exact ⟨body, (h.get_resolver_cases (Table.mem_entries.mp he)).2, rfl⟩
    · cases hget

/-- What is listed for an output of the block. -/
theorem listed_output (h : EntryOf final block entry) (hbody : final.get ref = some body) :
    listed entry.outputInscriptions ref = if ref ∈ block.txdata.flatMap outputRefs then body.inscriptions else [] := by
  have hkeys : (entry.outputInscriptions.map Prod.fst).Nodup := by
    rw [h.inscriptions]
    exact listing_keys (outputRefs_nodup h.txids)
  have hmem : ∀ e ∈ entry.outputInscriptions, e.1 = ref → e = (ref, body.inscriptions) := by
    intro e he href
    rw [h.inscriptions] at he
    obtain ⟨-, body', hbody', hvalue, -⟩ := mem_listing.mp he
    rw [href, hbody] at hbody'
    cases hbody'
    exact Prod.ext href hvalue
  -- it is listed once, if at all
  have hfilter : ∀ l : List (TxoRef × List (U64 × InscriptionId)), (l.map Prod.fst).Nodup →
      (∀ e ∈ l, e.1 = ref → e = (ref, body.inscriptions)) →
        l.filter (fun e => e.1 = ref) = if (ref, body.inscriptions) ∈ l then [(ref, body.inscriptions)] else [] := by
    intro l
    induction l with
    | nil => exact fun _ _ => rfl
    | cons e l ih =>
      intro hn hall
      rw [List.map_cons, List.nodup_cons] at hn
      have hrest := ih hn.2 fun e' he' => hall e' (List.mem_cons_of_mem _ he')
      by_cases href : e.1 = ref
      · have heq := hall e List.mem_cons_self href
        have hnot : (ref, body.inscriptions) ∉ l := fun hin => hn.1 (href ▸ List.mem_map_of_mem hin)
        rw [List.filter_cons_of_pos (by simpa using href), hrest, if_neg hnot, heq, if_pos List.mem_cons_self]
      · have hne : (ref, body.inscriptions) ≠ e := fun heq => href (by rw [← heq])
        rw [List.filter_cons_of_neg (by simpa using href), hrest]
        simp only [List.mem_cons, hne, false_or]
  unfold listed
  rw [hfilter _ hkeys hmem]
  have hiff : (ref, body.inscriptions) ∈ entry.outputInscriptions ↔
      ref ∈ block.txdata.flatMap outputRefs ∧ body.inscriptions ≠ [] := by
    rw [h.inscriptions, mem_listing]
    constructor
    · rintro ⟨href, body', hbody', -, hne⟩
      rw [hbody] at hbody'
      cases hbody'
      exact ⟨href, hne⟩
    · rintro ⟨href, hne⟩
      exact ⟨href, body, hbody, rfl, hne⟩
  by_cases hout : ref ∈ block.txdata.flatMap outputRefs
  · rw [if_pos hout]
    by_cases hne : body.inscriptions = []
    · rw [if_neg (fun hin => (hiff.mp hin).2 hne), hne]
      rfl
    · rw [if_pos (hiff.mpr ⟨hout, hne⟩), List.flatMap_singleton]
  · rw [if_neg hout, if_neg fun hin => hout (hiff.mp hin).1]
    rfl

/-- **The inscriptions of an output** that the block spends or produces. -/
theorem utxoInscriptions (h : EntryOf final block entry) (hbody : final.get ref = some body)
    (hin : ref ∈ inputRefs block ∨ ref ∈ block.txdata.flatMap outputRefs) :
    ((contextOf entry).utxoInscriptions ref).getD [] = castInscriptions body.inscriptions := by
  unfold BlockContext.utxoInscriptions contextOf
  simp only
  rw [get_indexedInscriptions, get_indexedInscriptions, listed_entries, h.listed_output hbody]
  by_cases hne : body.inscriptions = []
  · have hresolved : ((entry.resolver.get ref).map TxoBody.inscriptions).getD [] = [] := by
      cases hget : entry.resolver.get ref with
      | none => rfl
      | some body' =>
        have hbody' := (h.get_resolver_cases hget).2
        rw [hbody] at hbody'
        cases hbody'
        exact hne
    rw [hresolved, hne, ite_self, if_pos rfl, if_pos rfl]
    rfl
  · by_cases hout : ref ∈ block.txdata.flatMap outputRefs
    · rw [if_pos hout, if_neg hne]
      rfl
    · have hspent := hin.resolve_right hout
      rw [if_neg hout, if_pos rfl, h.get_resolver hspent, hbody, Option.map_some, Option.getD_some, if_neg hne]
      rfl

/-- The inscriptions of a context are those of resolved outputs. -/
theorem utxoInscriptions_cases (h : EntryOf final block entry) {inscriptions : List (U32 × InscriptionId)}
    (hget : (contextOf entry).utxoInscriptions ref = some inscriptions) :
    ∃ body, final.get ref = some body ∧ ∀ e ∈ inscriptions, ∃ e' ∈ body.inscriptions, e'.2 = e.2 := by
  have hcast : ∀ {l : List (U64 × InscriptionId)}, ∀ e ∈ castInscriptions l, ∃ e' ∈ l, e'.2 = e.2 := by
    intro l e he
    obtain ⟨e', he', rfl⟩ := List.mem_map.mp he
    exact ⟨e', he', rfl⟩
  unfold BlockContext.utxoInscriptions contextOf at hget
  simp only at hget
  rw [get_indexedInscriptions, get_indexedInscriptions, listed_entries] at hget
  split at hget
  · split at hget
    · cases hget
    · rename_i hne
      cases hresolved : entry.resolver.get ref with
      | none =>
        rw [hresolved] at hne
        exact absurd rfl hne
      | some body =>
        rw [hresolved] at hget
        cases hget
        exact ⟨body, (h.get_resolver_cases hresolved).2, hcast⟩
  · rename_i hne
    obtain ⟨e, he⟩ := List.exists_mem_of_ne_nil _ hne
    obtain ⟨e', he', -⟩ := List.mem_flatMap.mp he
    obtain ⟨hmem, hkey⟩ := List.mem_filter.mp he'
    rw [h.inscriptions] at hmem
    obtain ⟨-, body, hbody, -, -⟩ := mem_listing.mp hmem
    rw [of_decide_eq_true hkey] at hbody
    refine ⟨body, hbody, fun x hx => ?_⟩
    cases hget
    obtain ⟨x', hx', hid⟩ := hcast x hx
    rw [h.listed_output hbody] at hx'
    split at hx'
    · exact ⟨x', hx', hid⟩
    · cases hx'

end EntryOf

end DogeIndexer.Polyphony
