import DogeIndexer.Polyphony.Indexes

/-!
# Configurations

A configuration is a list of parts, each of which writes to key spaces of its own.  What a chain of
blocks leaves under a key is then what the actions of one part lead to, whatever the other parts
write and however the blocks are batched.

* `parts_committed` — the rule by which results about single reducers become results about every
  configuration.
* `ValidChain.runsAt_view` — parts that write entries of the unspent outputs.
-/

set_option autoImplicit false

namespace DogeIndexer.Polyphony.Reducers

open Compressor (OutPoint)
open Timbre (Namespace)
open StorageAction (Family)

/-- The family of the actions under a tag. -/
def tagFamily : Timbre.Reducer → Family
  | .satBalanceByScriptHash => .u64
  | .balancesByRuneId => .u128
  | .runeBalancesByScriptHash => .u128
  | .mintsByRuneId => .u128
  | .balancesByBrc20 => .u128
  | .brc20TotalBalanceByScriptHash => .u128NoDelete
  | .brc20AvailableBalanceByScriptHash => .u128NoDelete
  | _ => .writes

section

variable {ι : Type} (ns : Namespace) (tags : ι → List Timbre.Reducer)
  (reduce : ι → EnrichedBlock → Option (List StorageAction))

/-- `Worker::reduce_block` up to storage actions: those of every part, then the cursor's. -/
def partActions (parts : List ι) (b : EnrichedBlock) : Option (List StorageAction) := do
  let actions ← collect (fun p => reduce p b) parts
  return actions ++ cursorActions ns b

/-- The family of the actions on a key, under the tags that are written. -/
def familyAt (written : List Timbre.Reducer) (k : Key) : Family :=
  match written.find? fun tag => decide (ns.dataPrefix tag <+: k) with
  | some tag => tagFamily tag
  | none => .writes

variable {ns tags reduce} {written : List Timbre.Reducer} {tag : Timbre.Reducer} {k : Key}

theorem familyAt_eq (hw : tag ∈ written) (h : ns.dataPrefix tag <+: k) : familyAt ns written k = tagFamily tag := by
  unfold familyAt
  cases hfind : written.find? fun tag => decide (ns.dataPrefix tag <+: k) with
  | none => exact absurd (decide_eq_true h) (List.find?_eq_none.mp hfind tag hw)
  | some tag' =>
    have htag' : ns.dataPrefix tag' <+: k := by simpa using List.find?_some hfind
    rw [tag_unique h htag']

theorem familyAt_eq_writes (h : ∀ tag ∈ written, ¬ ns.dataPrefix tag <+: k) :
    familyAt ns written k = .writes := by
  unfold familyAt
  rw [List.find?_eq_none.mpr fun tag htag => by simpa using h tag htag]

/-- No part writes the cursor. -/
theorem not_prefix_cursorActions {b : EnrichedBlock} {a : StorageAction} (h : a ∈ cursorActions ns b)
    (tag : Timbre.Reducer) : ¬ ns.dataPrefix tag <+: a.key := by
  rcases List.mem_cons.mp h with rfl | h
  · exact not_prefix_cursor _
  · rw [List.mem_singleton.mp h]
    exact not_prefix_info _

variable (ns) in
/-- What a part makes of the blocks of a chain: it reduces each of them, to actions on its own keys. -/
structure Reduced (written : List Timbre.Reducer) (chain : List EnrichedBlock)
    (reduced : EnrichedBlock → Option (List StorageAction)) (acts : EnrichedBlock → List StorageAction) : Prop where
  some : ∀ b ∈ chain, reduced b = some (acts b)
  own : ∀ b ∈ chain, ∀ a ∈ acts b, ∃ tag ∈ written, ns.dataPrefix tag <+: a.key ∧ a.inFamily (tagFamily tag) = true

variable {parts : List ι} {chain : List EnrichedBlock} {acts : ι → EnrichedBlock → List StorageAction}

/-- On a key of a part, the actions of a block are those of the part. -/
theorem of_parts {own : ι → List StorageAction}
    (htags : parts.Pairwise fun p q => ∀ tag ∈ tags p, tag ∉ tags q)
    (hown : ∀ p ∈ parts, ∀ a ∈ own p, ∃ tag ∈ tags p, ns.dataPrefix tag <+: a.key) {p : ι} (hp : p ∈ parts)
    (htag : tag ∈ tags p) (hk : ns.dataPrefix tag <+: k) :
    Keyed.of StorageAction.key (parts.flatMap own) k = Keyed.of StorageAction.key (own p) k := by
  have hother : ∀ q ∈ parts, tag ∉ tags q → Keyed.of StorageAction.key (own q) k = [] := by
    intro q hq hnot
    refine Keyed.of_eq_nil fun hmem => ?_
    obtain ⟨a, ha, rfl⟩ := List.mem_map.mp hmem
    obtain ⟨tag', htag', hk'⟩ := hown q hq a ha
    exact hnot (tag_unique hk hk' ▸ htag')
  rw [of_flatMap]
  induction parts with
  | nil => cases hp
  | cons q parts ih =>
    obtain ⟨hq, hrest⟩ := List.pairwise_cons.mp htags
    rw [List.flatMap_cons]
    rcases List.mem_cons.mp hp with rfl | hp
    · have hnil : (parts.flatMap fun q => Keyed.of StorageAction.key (own q) k) = [] :=
        List.flatMap_eq_nil_iff.mpr fun q' hq' => hother q' (List.mem_cons_of_mem _ hq') (hq q' hq' tag htag)
      rw [hnil, List.append_nil]
    · have hnot : tag ∉ tags q := fun hmem => hq p hp tag hmem htag
      rw [hother q List.mem_cons_self hnot, List.nil_append]
      exact ih hrest (fun p hp => hown p (List.mem_cons_of_mem _ hp)) hp
        fun q hq => hother q (List.mem_cons_of_mem _ hq)

theorem mapM_partActions (h : ∀ p ∈ parts, Reduced ns (tags p) chain (reduce p) (acts p)) :
    chain.mapM (partActions ns reduce parts) =
      some (chain.map fun b => (parts.flatMap fun p => acts p b) ++ cursorActions ns b) := by
  have hblock : ∀ b ∈ chain, partActions ns reduce parts b =
      some ((parts.flatMap fun p => acts p b) ++ cursorActions ns b) := by
    intro b hb
    unfold partActions
    rw [collect_eq fun p hp => (h p hp).some b hb]
    rfl
  clear h
  induction chain with
  | nil => rfl
  | cons b chain ih =>
    rw [List.mapM_cons, hblock b List.mem_cons_self, ih fun b' hb' => hblock b' (List.mem_cons_of_mem _ hb')]
    rfl

/-- On any other key they are none. -/
theorem of_parts_other {own : ι → List StorageAction}
    (hown : ∀ p ∈ parts, ∀ a ∈ own p, ∃ tag ∈ tags p, ns.dataPrefix tag <+: a.key)
    (hk : ∀ p ∈ parts, ∀ tag ∈ tags p, ¬ ns.dataPrefix tag <+: k) :
    Keyed.of StorageAction.key (parts.flatMap own) k = [] := by
  refine Keyed.of_eq_nil fun hmem => ?_
  obtain ⟨a, ha, rfl⟩ := List.mem_map.mp hmem
  obtain ⟨p, hp, hap⟩ := List.mem_flatMap.mp ha
  obtain ⟨tag, htag, hprefix⟩ := hown p hp a hap
  exact hk p hp tag htag hprefix

section

variable (htags : parts.Pairwise fun p q => ∀ tag ∈ tags p, tag ∉ tags q)
  (hparts : ∀ p ∈ parts, Reduced ns (tags p) chain (reduce p) (acts p)) {b : EnrichedBlock}

include hparts

theorem Reduced.own_key (hb : b ∈ chain) :
    ∀ p ∈ parts, ∀ a ∈ acts p b, ∃ tag ∈ tags p, ns.dataPrefix tag <+: a.key := by
  intro p hp a ha
  obtain ⟨tag, htag, hprefix, -⟩ := (hparts p hp).own b hb a ha
  exact ⟨tag, htag, hprefix⟩

/-- On any other key the actions of a block are the cursor's. -/
theorem of_block_other (hb : b ∈ chain) (hk : ∀ p ∈ parts, ∀ tag ∈ tags p, ¬ ns.dataPrefix tag <+: k) :
    Keyed.of StorageAction.key ((parts.flatMap fun p => acts p b) ++ cursorActions ns b) k =
      Keyed.of StorageAction.key ((cursorUpdates ns b).map writeAction) k := by
  rw [Keyed.of_append, of_parts_other (Reduced.own_key hparts hb) hk, List.nil_append, cursorActions_eq]

/-- **A configuration that can be executed at every key of a part is committed**, whatever the batching. -/
theorem parts_executed {checks : Bool} {batches : List (HashOrder × List (List StorageAction))}
    (hbatches : (batches.map Prod.snd).flatten =
      chain.map fun b => (parts.flatMap fun p => acts p b) ++ cursorActions ns b)
    (h : ∀ p ∈ parts, ∀ tag ∈ tags p, ∀ k, ns.dataPrefix tag <+: k →
      ∃ o, executedAt checks (atKey batches k) none = some o) :
    ∃ store, executeBatches checks Table.empty batches = some store := by
  refine exists_committed fun k => ?_
  by_cases hk : ∃ p ∈ parts, ∃ tag ∈ tags p, ns.dataPrefix tag <+: k
  · obtain ⟨p, hp, tag, htag, hk⟩ := hk
    exact h p hp tag htag k hk
  · have hnone : ∀ p ∈ parts, ∀ tag ∈ tags p, ¬ ns.dataPrefix tag <+: k :=
      fun p hp tag htag hprefix => hk ⟨p, hp, tag, htag, hprefix⟩
    have hflatten : (atKey batches k).flatten =
        Keyed.of StorageAction.key ((chain.flatMap (cursorUpdates ns)).map writeAction) k := by
      rw [flatten_atKey, allActions_eq, hbatches, ← List.flatMap_def, List.map_flatMap, of_flatMap, of_flatMap]
      exact congrArg List.flatten (List.map_congr_left fun b hb => of_block_other hparts hb hnone)
    have hruns := runsAt_writeActions checks k none (chain.flatMap (cursorUpdates ns))
    rw [← hflatten] at hruns
    have hfamily : ∀ a ∈ (atKey batches k).flatten, a.inFamily .writes = true ∧ a.key = k := by
      intro a ha
      rw [hflatten] at ha
      obtain ⟨hmem, hkey⟩ := List.mem_filter.mp ha
      obtain ⟨u, -, rfl⟩ := List.mem_map.mp hmem
      exact ⟨writeAction_inFamily u, by simpa using hkey⟩
    obtain ⟨o, ho, -⟩ := hruns.executedAt hfamily (agree_refl .writes none)
    exact ⟨o, ho⟩

include htags

/-- On a key of a part the actions of a block are those of the part. -/
theorem of_block (hb : b ∈ chain) {p : ι} (hp : p ∈ parts) (htag : tag ∈ tags p) (hk : ns.dataPrefix tag <+: k) :
    Keyed.of StorageAction.key ((parts.flatMap fun p => acts p b) ++ cursorActions ns b) k =
      Keyed.of StorageAction.key (acts p b) k := by
  have hcursor : Keyed.of StorageAction.key (cursorActions ns b) k = [] := by
    refine Keyed.of_eq_nil fun hmem => ?_
    obtain ⟨a, ha, rfl⟩ := List.mem_map.mp hmem
    exact not_prefix_cursorActions ha tag hk
  rw [Keyed.of_append, hcursor, List.append_nil, of_parts htags (Reduced.own_key hparts hb) hp htag hk]

end

/-- **A configuration that is reduced and committed.**  When at every key of a part the part's own actions run
through, then the blocks are reduced, every batching commits, each key of a part holds what the actions of the part
lead to, and the store holds nothing else but the cursor. -/
theorem parts_committed {checks : Bool} (htags : parts.Pairwise fun p q => ∀ tag ∈ tags p, tag ∉ tags q)
    (hparts : ∀ p ∈ parts, Reduced ns (tags p) chain (reduce p) (acts p))
    {Q : Timbre.Reducer → Key → Option Value → Prop}
    (h : ∀ p ∈ parts, ∀ tag ∈ tags p, ∀ k, ns.dataPrefix tag <+: k →
      ∃ o, RunsAt checks none (Keyed.of StorageAction.key (chain.flatMap (acts p)) k) o ∧ Q tag k o) :
    ∃ blocks, chain.mapM (partActions ns reduce parts) = some blocks ∧
      ∀ batches : List (HashOrder × List (List StorageAction)), (batches.map Prod.snd).flatten = blocks →
        ∃ store, executeBatches checks Table.empty batches = some store ∧
          (∀ p ∈ parts, ∀ tag ∈ tags p, ∀ k, ns.dataPrefix tag <+: k →
            ∃ o, Q tag k o ∧ SameValue (tagFamily tag) (store.get k) o) ∧
          ∀ k, (∀ p ∈ parts, ∀ tag ∈ tags p, ¬ ns.dataPrefix tag <+: k) →
            store.get k = Ledger.reading k none (chain.flatMap (cursorUpdates ns)) := by
  refine ⟨_, mapM_partActions hparts, fun batches hbatches => ?_⟩
  have hall : allActions batches =
      chain.flatMap fun b => (parts.flatMap fun p => acts p b) ++ cursorActions ns b := by
    rw [allActions_eq, hbatches]
    rfl
  -- the actions on a key of a part, over the whole chain
  have hpart : ∀ p ∈ parts, ∀ tag ∈ tags p, ∀ k, ns.dataPrefix tag <+: k →
      Keyed.of StorageAction.key (allActions batches) k =
        Keyed.of StorageAction.key (chain.flatMap (acts p)) k := by
    intro p hp tag htag k hk
    rw [hall, of_flatMap, of_flatMap]
    exact congrArg List.flatten (List.map_congr_left fun b hb => of_block htags hparts hb hp htag hk)
  -- and those on any other key
  have hother : ∀ k, (∀ p ∈ parts, ∀ tag ∈ tags p, ¬ ns.dataPrefix tag <+: k) →
      Keyed.of StorageAction.key (allActions batches) k =
        Keyed.of StorageAction.key ((chain.flatMap (cursorUpdates ns)).map writeAction) k := by
    intro k hk
    rw [hall, List.map_flatMap, of_flatMap, of_flatMap]
    exact congrArg List.flatten (List.map_congr_left fun b hb => of_block_other hparts hb hk)
  have hruns : ∀ k, ∃ o, RunsAt checks none (Keyed.of StorageAction.key (allActions batches) k) o ∧
      (∀ p ∈ parts, ∀ tag ∈ tags p, ns.dataPrefix tag <+: k → Q tag k o) ∧
      ((∀ p ∈ parts, ∀ tag ∈ tags p, ¬ ns.dataPrefix tag <+: k) →
        o = Ledger.reading k none (chain.flatMap (cursorUpdates ns))) := by
    intro k
    by_cases hk : ∃ p ∈ parts, ∃ tag ∈ tags p, ns.dataPrefix tag <+: k
    · obtain ⟨p, hp, tag, htag, hk⟩ := hk
      obtain ⟨o, hrun, hQ⟩ := h p hp tag htag k hk
      rw [hpart p hp tag htag k hk]
      refine ⟨o, hrun, fun p' hp' tag' htag' hk' => ?_, fun hnone => absurd hk (hnone p hp tag htag)⟩
      rw [← tag_unique hk hk']
      exact hQ
    · have hnone : ∀ p ∈ parts, ∀ tag ∈ tags p, ¬ ns.dataPrefix tag <+: k :=
        fun p hp tag htag hprefix => hk ⟨p, hp, tag, htag, hprefix⟩
      rw [hother k hnone]
      exact ⟨_, runsAt_writeActions checks k none _, fun p hp tag htag hprefix => absurd hprefix (hnone p hp tag htag),
        fun _ => rfl⟩
  choose target htarget hQ hcursor using hruns
  have hwritten : ∀ {p tag}, p ∈ parts → tag ∈ tags p → tag ∈ parts.flatMap tags :=
    fun hp htag => List.mem_flatMap.mpr ⟨_, hp, htag⟩
  have hfam : ∀ a ∈ allActions batches, a.inFamily (familyAt ns (parts.flatMap tags) a.key) = true := by
    intro a ha
    rw [hall] at ha
    obtain ⟨b, hb, hab⟩ := List.mem_flatMap.mp ha
    rcases List.mem_append.mp hab with hab | hab
    · obtain ⟨p, hp, hap⟩ := List.mem_flatMap.mp hab
      obtain ⟨tag, htag, hprefix, hfamily⟩ := (hparts p hp).own b hb a hap
      rw [familyAt_eq (hwritten hp htag) hprefix]
      exact hfamily
    · rw [familyAt_eq_writes fun tag _ => not_prefix_cursorActions hab tag]
      rw [cursorActions_eq] at hab
      obtain ⟨x, -, rfl⟩ := List.mem_map.mp hab
      exact writeAction_inFamily x
  have hstart : ∀ k, RunsAt checks ((Table.empty : Store).get k)
      (Keyed.of StorageAction.key (allActions batches) k) (target k) := htarget
  obtain ⟨store, hrun, hsame⟩ := committed (familyAt ns (parts.flatMap tags)) hfam hstart
  refine ⟨store, hrun, fun p hp tag htag k hk => ⟨target k, hQ k p hp tag htag hk, ?_⟩, fun k hk => ?_⟩
  · have hfamily : familyAt ns (parts.flatMap tags) k = tagFamily tag := familyAt_eq (hwritten hp htag) hk
    rw [← hfamily]
    exact hsame k
  · have hwrites := hsame k
    rw [familyAt_eq_writes fun tag htag => by
      obtain ⟨p, hp, htag⟩ := List.mem_flatMap.mp htag
      exact hk p hp tag htag] at hwrites
    rw [← hcursor k hk]
    exact hwrites

end

/-! ## Views of the unspent outputs -/

section

variable {chain : List EnrichedBlock} {t : Unspent}

theorem ValidChain.valid_events (hchain : ValidChain t chain) :
    Ledger.Valid t (chain.flatMap EnrichedBlock.events) := by
  induction chain generalizing t with
  | nil => trivial
  | cons b chain ih =>
    rw [List.flatMap_cons, Ledger.valid_append]
    exact ⟨hchain.1.spends, ih hchain.2⟩

/-- The blocks of a chain are valid where they stand. -/
theorem ValidChain.valid_of_mem (hchain : ValidChain t chain) {b : EnrichedBlock} (hb : b ∈ chain) :
    ∃ t, b.Valid t := by
  induction chain generalizing t with
  | nil => cases hb
  | cons b' chain ih =>
    rcases List.mem_cons.mp hb with rfl | hb
    · exact ⟨t, hchain.1⟩
    · exact ih hchain.2 hb

/-- A part that writes the entries of the events of each block leaves those of the unspent outputs. -/
theorem ValidChain.runsAt_view (hchain : ValidChain Table.empty chain) (checks : Bool)
    {f : OutPoint → Utxo → List (Key × Value)} {k : Key}
    (hs : Ledger.Along (Ledger.Single f k) Table.empty (chain.flatMap EnrichedBlock.events)) :
    ∃ o, RunsAt checks none (Keyed.of StorageAction.key
        (chain.flatMap fun b => (b.events.flatMap (Ledger.updates f)).map writeAction) k) o ∧
      ∀ v, o = some v ↔ Ledger.Lists f (unspentAfter chain) k v := by
  obtain ⟨o, hruns, ho⟩ := runsAt_writes checks hchain.valid_events hs (o := none) (by
    intro v
    refine iff_of_false (by simp) ?_
    rintro ⟨ref, u, hget, -⟩
    cases hget)
  refine ⟨o, ?_, ho⟩
  rw [List.flatMap_assoc, List.map_flatMap] at hruns
  exact hruns

end

end DogeIndexer.Polyphony.Reducers
