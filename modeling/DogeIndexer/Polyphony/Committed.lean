import DogeIndexer.Polyphony.Unspent

/-!
# Blocks that are reduced and committed

What a chain of valid blocks leaves in the store, under any configuration of the reducers and in
any batching: the keys of each reducer hold what its own actions lead to.

* `committed_sameValue` — what was committed holds, at the keys of a reducer, what its own actions lead to.
* `indexed` — the rule that the results about single reducers are proved by.
* `storedEntries_perm` — the entries of a reducer, read back, are those of the unspent outputs.
-/

set_option autoImplicit false

namespace DogeIndexer.Polyphony.Reducers

open Compressor (Bytes U32 Txid ScriptHash OutPoint TxOut DuneId InscriptionId hashBytes scriptHashBytes)
open Timbre (Namespace Ty)
open StorageAction (Family)

/-! ## Numbers and hashes in keys -/

theorem uint_inj {w n m : Nat} (hn : n < 256 ^ w) (hm : m < 256 ^ w) (h : uint w n = uint w m) : n = m := by
  have hval := congrArg Fin.val h
  simp only [uint, Fin.ofNat] at hval
  rwa [Nat.mod_eq_of_lt hn, Nat.mod_eq_of_lt hm] at hval

theorem toBE_inj {w n : Nat} (hn : n ≤ 256 ^ w) {a b : Fin n} (h : Machine.toBE w a.val = Machine.toBE w b.val) :
    a = b := by
  refine Fin.ext ?_
  rw [← Machine.ofBE_toBE w a.val (lt_of_lt_of_le a.isLt hn), ← Machine.ofBE_toBE w b.val (lt_of_lt_of_le b.isLt hn), h]

theorem array32_inj {a b : Fin (2 ^ 256)} (h : array32 a = array32 b) : a = b := by
  have hval : (array32 a).val = (array32 b).val := by rw [h]
  have hbytes : hashBytes a = hashBytes b := hval
  exact toBE_inj (by decide +kernel) hbytes

theorem array20_inj {a b : ScriptHash} (h : array20 a = array20 b) : a = b := by
  have hval : (array20 a).val = (array20 b).val := by rw [h]
  have hbytes : scriptHashBytes a = scriptHashBytes b := hval
  exact toBE_inj (by decide +kernel) hbytes

/-- An outpoint of the source: its index has 32 bits. -/
theorem outpoint_inj {a b : OutPoint} (ha : a.vout < 2 ^ 32) (hb : b.vout < 2 ^ 32) (htxid : array32 a.txid = array32 b.txid)
    (hvout : uint 4 a.vout = uint 4 b.vout) : a = b := by
  obtain ⟨txid, vout⟩ := a
  obtain ⟨txid', vout'⟩ := b
  cases array32_inj htxid
  cases uint_inj (w := 4) ha hb hvout
  rfl

/-! ## Keys of the reducers -/

namespace Reducer

/-- The reducer's tag in the keys. -/
def tag : Reducer → Timbre.Reducer
  | balancesByRuneId => .balancesByRuneId
  | inscriptionsByScriptHash => .inscriptionsByScriptHash
  | runeBalancesByScriptHash => .runeBalancesByScriptHash
  | satBalanceByScriptHash => .satBalanceByScriptHash
  | utxosByRuneId => .utxosByRuneId
  | utxosByScriptHash => .utxosByScriptHash

theorem tag_injective {r r' : Reducer} (h : r.tag = r'.tag) : r = r' := by
  cases r <;> cases r' <;> first | rfl | cases h

/-- The family of a reducer's actions. -/
def family : Reducer → Family
  | balancesByRuneId => .u128
  | runeBalancesByScriptHash => .u128
  | satBalanceByScriptHash => .u64
  | _ => .writes

def all : List Reducer :=
  [balancesByRuneId, inscriptionsByScriptHash, runeBalancesByScriptHash, satBalanceByScriptHash, utxosByRuneId,
   utxosByScriptHash]

theorem mem_all (r : Reducer) : r ∈ all := by
  cases r <;> decide

end Reducer

section

variable (ns : Namespace)

/-- The family of the actions on a key. -/
def familyOf (k : Key) : Family :=
  match Reducer.all.find? fun r => decide (ns.dataPrefix r.tag <+: k) with
  | some r => r.family
  | none => .writes

variable {ns} {r : Reducer} {k : Key}

/-- Prefixes of different reducers do not begin one key. -/
theorem tag_unique {tag tag' : Timbre.Reducer} (h : ns.dataPrefix tag <+: k) (h' : ns.dataPrefix tag' <+: k) :
    tag = tag' := by
  have heq : ns.dataPrefix tag = ns.dataPrefix tag' :=
    List.prefix_or_prefix_of_prefix h h' |>.elim (fun hp => hp.eq_of_length rfl) fun hp => (hp.eq_of_length rfl).symm
  simp only [Namespace.dataPrefix, Namespace.encode, List.cons_append, List.nil_append, List.cons.injEq] at heq
  exact Timbre.Reducer.encode_injective heq.2.2.2.1

theorem familyOf_eq (h : ns.dataPrefix r.tag <+: k) : familyOf ns k = r.family := by
  unfold familyOf
  cases hfind : Reducer.all.find? fun r => decide (ns.dataPrefix r.tag <+: k) with
  | none =>
    have hnot := List.find?_eq_none.mp hfind r (Reducer.mem_all r)
    exact absurd (decide_eq_true h) hnot
  | some r' =>
    have hr' : ns.dataPrefix r'.tag <+: k := by simpa using List.find?_some hfind
    rw [Reducer.tag_injective (tag_unique h hr')]

theorem familyOf_eq_writes (h : ∀ r : Reducer, ¬ ns.dataPrefix r.tag <+: k) : familyOf ns k = .writes := by
  unfold familyOf
  rw [List.find?_eq_none.mpr fun r _ => by simpa using h r]

/-- No reducer writes the cursor. -/
theorem not_prefix_cursor (tag : Timbre.Reducer) : ¬ ns.dataPrefix tag <+: ns.key .cursor := by
  intro h
  exact absurd h.length_le (by simp [Namespace.dataPrefix, Namespace.key, Namespace.encode])

theorem not_prefix_info (tag : Timbre.Reducer) : ¬ ns.dataPrefix tag <+: ns.key .info := by
  intro h
  exact absurd h.length_le (by simp [Namespace.dataPrefix, Namespace.key, Namespace.encode])

variable (ns)

/-- The updates that the cursor's actions make. -/
def cursorUpdates (b : EnrichedBlock) : List (Key × Option Value) :=
  [(ns.key .cursor, some (pointValue b.point false b.now)), (ns.key .info, some (pointValue b.point false b.now))]

theorem cursorActions_eq (b : EnrichedBlock) : cursorActions ns b = (cursorUpdates ns b).map writeAction := rfl

theorem cursorActions_key {b : EnrichedBlock} {a : StorageAction} (h : a ∈ cursorActions ns b) (r : Reducer) :
    ¬ ns.dataPrefix r.tag <+: a.key := by
  rcases List.mem_cons.mp h with rfl | h
  · exact not_prefix_cursor _
  · rw [List.mem_singleton.mp h]
    exact not_prefix_info _

end

section

variable (scriptHash : Bytes → ScriptHash) (ns : Namespace)

/-- The entries and amounts of an output are under the reducer's keys. -/
theorem eventActions_key (r : Reducer) (e : Event) {a : StorageAction} (h : a ∈ r.eventActions scriptHash ns e) :
    ns.dataPrefix r.tag <+: a.key ∧ a.inFamily r.family = true := by
  have hwrites : ∀ f : OutPoint → Utxo → List (Key × Value),
      (∀ ref u x, x ∈ f ref u → ns.dataPrefix r.tag <+: x.1) → a ∈ (Ledger.updates f e).map writeAction →
        ns.dataPrefix r.tag <+: a.key ∧ a.inFamily .writes = true := by
    intro f hf ha
    obtain ⟨x, hx, rfl⟩ := List.mem_map.mp ha
    rw [writeAction_key]
    refine ⟨?_, writeAction_inFamily x⟩
    cases e with
    | spend ref u =>
      obtain ⟨y, hy, rfl⟩ := List.mem_map.mp hx
      exact hf ref u y hy
    | produce ref u =>
      obtain ⟨y, hy, rfl⟩ := List.mem_map.mp hx
      exact hf ref u y hy
  have hcounts : ∀ (c : CounterKind) (g : OutPoint → Utxo → List (Key × c.Amount)),
      (∀ ref u x, x ∈ g ref u → ns.dataPrefix r.tag <+: x.1) → a ∈ counterActions c g e →
        ns.dataPrefix r.tag <+: a.key ∧ a.inFamily c.family = true := by
    intro c g hg ha
    cases e with
    | spend ref u =>
      obtain ⟨x, hx, rfl⟩ := List.mem_map.mp ha
      rw [c.decrement_key]
      exact ⟨hg ref u x hx, c.decrement_family _ _⟩
    | produce ref u =>
      obtain ⟨x, hx, rfl⟩ := List.mem_map.mp ha
      rw [c.increment_key]
      exact ⟨hg ref u x hx, c.increment_family _ _⟩
  cases r with
  | balancesByRuneId =>
    refine hcounts .u128 _ (fun ref u x hx => ?_) h
    obtain ⟨y, -, rfl⟩ := List.mem_map.mp hx
    exact List.prefix_append _ _
  | runeBalancesByScriptHash =>
    refine hcounts .u128 _ (fun ref u x hx => ?_) h
    obtain ⟨y, -, rfl⟩ := List.mem_map.mp hx
    exact List.prefix_append _ _
  | satBalanceByScriptHash =>
    refine hcounts .u64 _ (fun ref u x hx => ?_) h
    rw [List.mem_singleton.mp hx]
    exact List.prefix_append _ _
  | inscriptionsByScriptHash =>
    refine hwrites _ (fun ref u x hx => ?_) h
    obtain ⟨y, -, rfl⟩ := List.mem_map.mp hx
    exact List.prefix_append _ _
  | utxosByRuneId =>
    refine hwrites _ (fun ref u x hx => ?_) h
    obtain ⟨y, -, rfl⟩ := List.mem_map.mp hx
    exact List.prefix_append _ _
  | utxosByScriptHash =>
    refine hwrites _ (fun ref u x hx => ?_) h
    rw [List.mem_singleton.mp hx]
    exact List.prefix_append _ _

/-- The actions of a reducer over a chain. -/
def chainActions (r : Reducer) (chain : List EnrichedBlock) : List StorageAction :=
  (chain.flatMap r.eventsOf).flatMap (r.eventActions scriptHash ns)

/-- The actions of a block under a configuration. -/
def actionsOf (reducers : List Reducer) (b : EnrichedBlock) : List StorageAction :=
  (reducers.flatMap fun r => (r.eventsOf b).flatMap (r.eventActions scriptHash ns)) ++ cursorActions ns b

end

/-! ## The actions of one key -/

section

variable {scriptHash : Bytes → ScriptHash} {ns : Namespace} {reducers : List Reducer} {r : Reducer} {k : Key}

theorem of_flatMap {α : Type} (l : List α) (f : α → List StorageAction) (k : Key) :
    Keyed.of StorageAction.key (l.flatMap f) k = l.flatMap fun x => Keyed.of StorageAction.key (f x) k := by
  unfold Keyed.of
  exact List.filter_flatMap ..

theorem of_reducer_eq_nil (h : ¬ ns.dataPrefix r.tag <+: k) (l : List Event) :
    Keyed.of StorageAction.key (l.flatMap (r.eventActions scriptHash ns)) k = [] := by
  refine Keyed.of_eq_nil fun hmem => ?_
  obtain ⟨a, ha, rfl⟩ := List.mem_map.mp hmem
  obtain ⟨e, -, hae⟩ := List.mem_flatMap.mp ha
  exact h (eventActions_key scriptHash ns r e hae).1

/-- On a key of a configured reducer, a block's actions are that reducer's. -/
theorem of_actionsOf (hnodup : reducers.Nodup) (hr : r ∈ reducers) (hk : ns.dataPrefix r.tag <+: k)
    (b : EnrichedBlock) : Keyed.of StorageAction.key (actionsOf scriptHash ns reducers b) k =
      Keyed.of StorageAction.key ((r.eventsOf b).flatMap (r.eventActions scriptHash ns)) k := by
  have hcursor : Keyed.of StorageAction.key (cursorActions ns b) k = [] := by
    refine Keyed.of_eq_nil fun hmem => ?_
    obtain ⟨a, ha, rfl⟩ := List.mem_map.mp hmem
    exact cursorActions_key ns ha r hk
  unfold actionsOf
  rw [Keyed.of_append, hcursor, List.append_nil, of_flatMap]
  induction reducers with
  | nil => cases hr
  | cons r' reducers ih =>
    rw [List.nodup_cons] at hnodup
    rw [List.flatMap_cons]
    by_cases heq : r = r'
    · subst heq
      have hrest : (reducers.flatMap fun r' => Keyed.of StorageAction.key
          ((r'.eventsOf b).flatMap (r'.eventActions scriptHash ns)) k) = [] := by
        refine List.flatMap_eq_nil_iff.mpr fun r' hr' => of_reducer_eq_nil (fun hk' => ?_) _
        exact hnodup.1 (Reducer.tag_injective (tag_unique hk hk') ▸ hr')
      rw [hrest, List.append_nil]
    · rw [of_reducer_eq_nil (fun hk' => heq (Reducer.tag_injective (tag_unique hk hk'))), List.nil_append]
      rcases List.mem_cons.mp hr with heq' | hr
      · exact absurd heq' heq
      · exact ih hnodup.2 hr

/-- On any other key they are the cursor's. -/
theorem of_actionsOf_other (hk : ∀ r ∈ reducers, ¬ ns.dataPrefix r.tag <+: k) (b : EnrichedBlock) :
    Keyed.of StorageAction.key (actionsOf scriptHash ns reducers b) k =
      Keyed.of StorageAction.key ((cursorUpdates ns b).map writeAction) k := by
  unfold actionsOf
  rw [Keyed.of_append, of_flatMap, List.flatMap_eq_nil_iff.mpr fun r hr => of_reducer_eq_nil (hk r hr) _,
    List.nil_append, cursorActions_eq]

/-- The blocks of a valid chain are reduced. -/
theorem ValidChain.mapM_blockActions {t : Unspent} {chain : List EnrichedBlock} (h : ValidChain t chain)
    (policy : RuntimePolicy) (reducers : List Reducer) :
    chain.mapM (blockActions scriptHash policy ns reducers) = some (chain.map (actionsOf scriptHash ns reducers)) := by
  induction chain generalizing t with
  | nil => rfl
  | cons b chain ih =>
    rw [List.mapM_cons, h.1.blockActions_eq, ih h.2]
    rfl

theorem allActions_eq (batches : List (HashOrder × List (List StorageAction))) :
    allActions batches = (batches.map Prod.snd).flatten.flatten := by
  induction batches with
  | nil => rfl
  | cons batch batches ih =>
    unfold allActions at ih ⊢
    rw [List.map_cons, List.flatten_cons, ih, List.map_cons, List.flatten_cons, List.flatten_append]

/-- On a key of a configured reducer, the actions of a chain are that reducer's. -/
theorem of_chain (hnodup : reducers.Nodup) (hr : r ∈ reducers) (hk : ns.dataPrefix r.tag <+: k)
    (chain : List EnrichedBlock) :
    Keyed.of StorageAction.key (chain.flatMap (actionsOf scriptHash ns reducers)) k =
      Keyed.of StorageAction.key (chainActions scriptHash ns r chain) k := by
  rw [chainActions, of_flatMap, of_flatMap, List.flatMap_assoc]
  refine congrArg List.flatten (List.map_congr_left fun b _ => ?_)
  rw [of_actionsOf hnodup hr hk, of_flatMap]

/-- The actions of each key are of one family. -/
theorem chain_inFamily (scriptHash : Bytes → ScriptHash) (ns : Namespace) (reducers : List Reducer)
    (chain : List EnrichedBlock) {a : StorageAction} (ha : a ∈ chain.flatMap (actionsOf scriptHash ns reducers)) :
    a.inFamily (familyOf ns a.key) = true := by
  obtain ⟨b, -, hab⟩ := List.mem_flatMap.mp ha
  rcases List.mem_append.mp hab with hab | hab
  · obtain ⟨r, -, har⟩ := List.mem_flatMap.mp hab
    obtain ⟨e, -, hae⟩ := List.mem_flatMap.mp har
    obtain ⟨hkey, hfamily⟩ := eventActions_key scriptHash ns r e hae
    rw [familyOf_eq hkey]
    exact hfamily
  · rw [familyOf_eq_writes (cursorActions_key ns hab)]
    rw [cursorActions_eq] at hab
    obtain ⟨x, -, rfl⟩ := List.mem_map.mp hab
    exact writeAction_inFamily x

section

variable {chain : List EnrichedBlock} {batches : List (HashOrder × List (List StorageAction))}
variable (hbatches : (batches.map Prod.snd).flatten = chain.map (actionsOf scriptHash ns reducers))

include hbatches

theorem allActions_chain : allActions batches = chain.flatMap (actionsOf scriptHash ns reducers) := by
  rw [allActions_eq, hbatches]
  rfl

/-- **What was committed holds, at the keys of a reducer, what its own actions lead to**, whatever the other reducers
do. -/
theorem committed_sameValue {checks : Bool} {store : Store} {o : Option Value}
    (hcommit : executeBatches checks Table.empty batches = some store) (hnodup : reducers.Nodup) (hr : r ∈ reducers)
    (hk : ns.dataPrefix r.tag <+: k)
    (hruns : RunsAt checks none (Keyed.of StorageAction.key (chainActions scriptHash ns r chain) k) o) :
    SameValue r.family (store.get k) o := by
  have hall := allActions_chain hbatches
  refine (executeBatches_agree_at hcommit (fun a ha hkey => ?_) (agree_refl _ _) ?_).sameValue
  · rw [hall] at ha
    rw [← familyOf_eq (hkey ▸ hk : ns.dataPrefix r.tag <+: a.key)]
    exact chain_inFamily scriptHash ns reducers chain ha
  · rw [hall, of_chain hnodup hr hk]
    exact hruns

/-- Without overflow checks every batching commits. -/
theorem unchecked_commits : ∃ store, executeBatches false Table.empty batches = some store := by
  have hfam : ∀ a ∈ allActions batches, a.inFamily (familyOf ns a.key) = true := by
    intro a ha
    rw [allActions_chain hbatches] at ha
    exact chain_inFamily scriptHash ns reducers chain ha
  exact exists_executeBatches hfam readable_empty

end

/-- **A chain that is reduced and committed**: when, at every key of a configured reducer, the reducer's own actions
run through, then no block fails to be reduced, every batching commits, and each key holds the value that the actions
of its reducer lead to. -/
theorem indexed {checks : Bool} {policy : RuntimePolicy} {chain : List EnrichedBlock}
    (hchain : ValidChain Table.empty chain) (hnodup : reducers.Nodup) {Q : Reducer → Key → Option Value → Prop}
    (h : ∀ r ∈ reducers, ∀ k, ns.dataPrefix r.tag <+: k →
      ∃ o, RunsAt checks none (Keyed.of StorageAction.key (chainActions scriptHash ns r chain) k) o ∧ Q r k o) :
    ∃ blocks, chain.mapM (blockActions scriptHash policy ns reducers) = some blocks ∧
      ∀ batches : List (HashOrder × List (List StorageAction)), (batches.map Prod.snd).flatten = blocks →
        ∃ store, executeBatches checks Table.empty batches = some store ∧
          ∀ r ∈ reducers, ∀ k, ns.dataPrefix r.tag <+: k →
            ∃ o, Q r k o ∧ SameValue r.family (store.get k) o := by
  refine ⟨_, hchain.mapM_blockActions policy reducers, fun batches hbatches => ?_⟩
  have hall := allActions_chain hbatches
  -- key by key: those of a configured reducer, and the others
  have hruns : ∀ k, ∃ o, RunsAt checks none (Keyed.of StorageAction.key (allActions batches) k) o ∧
      ∀ r ∈ reducers, ns.dataPrefix r.tag <+: k → Q r k o := by
    intro k
    rw [hall]
    by_cases hk : ∃ r ∈ reducers, ns.dataPrefix r.tag <+: k
    · obtain ⟨r, hr, hk⟩ := hk
      obtain ⟨o, hrun, hQ⟩ := h r hr k hk
      refine ⟨o, ?_, fun r' hr' hk' => ?_⟩
      · rw [of_chain hnodup hr hk]
        exact hrun
      · rw [← Reducer.tag_injective (tag_unique hk hk')]
        exact hQ
    · have hnone : ∀ r ∈ reducers, ¬ ns.dataPrefix r.tag <+: k := fun r hr hk' => hk ⟨r, hr, hk'⟩
      have heq : (fun b => Keyed.of StorageAction.key (actionsOf scriptHash ns reducers b) k) = fun b =>
          Keyed.of StorageAction.key ((cursorUpdates ns b).map writeAction) k := by
        funext b
        exact of_actionsOf_other hnone b
      rw [of_flatMap, heq, ← of_flatMap, ← List.map_flatMap]
      exact ⟨_, runsAt_writeActions checks k none _, fun r hr hk' => absurd hk' (hnone r hr)⟩
  choose target htarget hQ using hruns
  have hfam : ∀ a ∈ allActions batches, a.inFamily (familyOf ns a.key) = true := by
    intro a ha
    rw [hall] at ha
    exact chain_inFamily scriptHash ns reducers chain ha
  have hstart : ∀ k, RunsAt checks ((Table.empty : Store).get k)
      (Keyed.of StorageAction.key (allActions batches) k) (target k) := htarget
  obtain ⟨store, hrun, hsame⟩ := committed (familyOf ns) hfam hstart
  refine ⟨store, hrun, fun r hr k hk => ⟨target k, hQ k r hr hk, ?_⟩⟩
  rw [← familyOf_eq hk]
  exact hsame k

end

/-! ## Entries read back -/

section

variable (ns : Namespace) (tag : Timbre.Reducer) (K V : Ty)

/-- An entry of a reducer in the store. -/
def encodedEntry (e : K.Val × V.Val) : Key × Value := (ns.data tag K e.1, V.encode e.2)

/-- An entry of the store that is one of the reducer's. -/
def decodedEntry (e : Key × Value) : Option (K.Val × V.Val) :=
  if ns.dataPrefix tag <+: e.1 then
    match K.decode (fun _ => 1) (e.1.drop 5), V.decode (fun _ => 1) e.2 with
    | .ok (k, []), .ok (v, []) => some (k, v)
    | _, _ => none
  else none

/-- The entries of a reducer. -/
def storedEntries (store : Store) : List (K.Val × V.Val) := store.entries.filterMap (decodedEntry ns tag K V)

variable {K V} (hK : K ∈ Timbre.schema) (hKo : K.ordered = true) (hV : V ∈ Timbre.schema) (hVo : V.ordered = true)

include hK hKo hV hVo

theorem decodedEntry_encodedEntry (e : K.Val × V.Val) :
    decodedEntry ns tag K V (encodedEntry ns tag K V e) = some e := by
  have hone : ∀ (t : Ty), ∀ e ∈ t.elements, (fun _ : Ty => 1) e ≤ 2 ^ 31 := fun t e _ => Nat.one_le_two_pow
  have hread : ∀ (t : Ty), t ∈ Timbre.schema → t.ordered = true → ∀ x : t.Val,
      t.decode (fun _ => 1) (t.encode x) = .ok (x, []) := by
    intro t ht ho x
    have hdecode := t.decode_encode (hone t) (Timbre.schema_tagged t ht) x (t.sized_of_ordered ho x) []
    rwa [List.append_nil] at hdecode
  have hdrop : (encodedEntry ns tag K V e).1.drop 5 = K.encode e.1 := rfl
  have hstarts : ns.dataPrefix tag <+: (encodedEntry ns tag K V e).1 := List.prefix_append _ _
  unfold decodedEntry
  rw [if_pos hstarts, hdrop, hread K hK hKo]
  have hvalue : V.decode (fun _ => 1) (encodedEntry ns tag K V e).2 = .ok (e.2, []) := hread V hV hVo e.2
  rw [hvalue]

/-- **The entries of a reducer are those of the unspent outputs**, each once. -/
theorem storedEntries_perm {store : Store} {t : Unspent} {g : OutPoint → Utxo → List (K.Val × V.Val)}
    (hnodup : ((t.entries.flatMap fun e => g e.1 e.2).map Prod.fst).Nodup)
    (hstore : ∀ k v, ns.dataPrefix tag <+: k → (store.get k = some v ↔
      Ledger.Lists (fun ref u => (g ref u).map (encodedEntry ns tag K V)) t k v)) :
    (storedEntries ns tag K V store).Perm (t.entries.flatMap fun e => g e.1 e.2) := by
  have hinjective : Function.Injective (ns.data tag K) := fun x y h =>
    Timbre.data_injective hK (K.sized_of_ordered hKo x) (K.sized_of_ordered hKo y) h
  have hraw : (store.entries.filter fun e => ns.dataPrefix tag <+: e.1).Perm
      ((t.entries.flatMap fun e => g e.1 e.2).map (encodedEntry ns tag K V)) := by
    refine (List.perm_ext_iff_of_nodup (store.keys_nodup.of_map.filter _) ?_).mpr fun e => ?_
    · refine List.Nodup.of_map Prod.fst ?_
      rw [List.map_map]
      have hkeys : (Prod.fst ∘ encodedEntry ns tag K V) = ns.data tag K ∘ (Prod.fst : K.Val × V.Val → K.Val) := rfl
      rw [hkeys, ← List.map_map]
      exact hnodup.map hinjective
    · obtain ⟨k, v⟩ := e
      simp only [List.mem_filter, decide_eq_true_eq, List.mem_map, List.mem_flatMap]
      constructor
      · rintro ⟨hmem, hk⟩
        obtain ⟨ref, u, hget, hin⟩ := (hstore k v hk).mp (Table.mem_entries.mp hmem)
        obtain ⟨e, he, heq⟩ := List.mem_map.mp hin
        exact ⟨e, ⟨(ref, u), Table.mem_entries.mpr hget, he⟩, heq⟩
      · rintro ⟨e, ⟨⟨ref, u⟩, hmem, he⟩, heq⟩
        have hk : ns.dataPrefix tag <+: k := by
          have hkey : ns.data tag K e.1 = k := congrArg Prod.fst heq
          rw [← hkey]
          exact List.prefix_append _ _
        refine ⟨Table.mem_entries.mpr ((hstore k v hk).mpr ⟨ref, u, Table.mem_entries.mp hmem, ?_⟩), hk⟩
        exact List.mem_map.mpr ⟨e, he, heq⟩
  have hfilter : storedEntries ns tag K V store =
      (store.entries.filter fun e => ns.dataPrefix tag <+: e.1).filterMap (decodedEntry ns tag K V) := by
    unfold storedEntries
    rw [List.filterMap_filter]
    refine List.filterMap_congr fun e _ => ?_
    by_cases hk : ns.dataPrefix tag <+: e.1
    · simp [hk]
    · simp [decodedEntry, hk]
  have hback : ((t.entries.flatMap fun e => g e.1 e.2).map (encodedEntry ns tag K V)).filterMap
      (decodedEntry ns tag K V) = t.entries.flatMap fun e => g e.1 e.2 := by
    rw [List.filterMap_map]
    have hid : (decodedEntry ns tag K V) ∘ (encodedEntry ns tag K V) = some :=
      funext fun e => decodedEntry_encodedEntry ns tag hK hKo hV hVo e
    rw [hid, List.filterMap_some]
  rw [hfilter, ← hback]
  exact hraw.filterMap _

end

end DogeIndexer.Polyphony.Reducers
