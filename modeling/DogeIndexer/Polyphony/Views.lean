import DogeIndexer.Lib.Ledger
import DogeIndexer.Polyphony.Batch

/-!
# Views of a ledger in the store

What the storage actions of a ledger's events leave in the store, in any batching.  The actions of
one key are followed through the run (`RunsAt`), whatever stands between them.

* `committed` — when the actions of every key run through, every batching commits, and leaves at
  each key the reading that they lead to.
* `executeBatches_agree_at` — what was committed agrees at every key whose actions run through, whatever the other
  keys do.
* `executeBatches_at`, `exists_committed` — the same at one key at a time: what is merged for it and executed.
* `exists_executeBatches` — without overflow checks every batching commits.
* `runsAt_writes` — entries that are set and deleted.
* `runsAt_counter` — counters, while they are in range.
-/

set_option autoImplicit false

namespace DogeIndexer.Polyphony

open StorageAction (Family)

/-! ## The actions of one key -/

/-- The actions, on one key that reads `o`, complete without leaving a counter's range and lead to `o'`. -/
def RunsAt (checks : Bool) : Option Value → List StorageAction → Option Value → Prop
  | o, [], o' => o = o'
  | o, a :: l, o' => ∃ p, a.effect checks o = some p ∧ a.Fits o ∧ RunsAt checks p l o'

section

variable {checks : Bool} {o o' : Option Value} {l l₁ l₂ : List StorageAction}

theorem runsAt_append : RunsAt checks o (l₁ ++ l₂) o' ↔ ∃ p, RunsAt checks o l₁ p ∧ RunsAt checks p l₂ o' := by
  induction l₁ generalizing o with
  | nil =>
    constructor
    · exact fun h => ⟨o, rfl, h⟩
    · rintro ⟨p, rfl, h⟩
      exact h
  | cons a l₁ ih =>
    constructor
    · rintro ⟨p, heffect, hfits, hrest⟩
      obtain ⟨q, hleft, hright⟩ := ih.mp hrest
      exact ⟨q, ⟨p, heffect, hfits, hleft⟩, hright⟩
    · rintro ⟨q, ⟨p, heffect, hfits, hleft⟩, hright⟩
      exact ⟨p, heffect, hfits, ih.mpr ⟨q, hleft, hright⟩⟩

/-- Actions of which those of every key run through can be executed one by one. -/
theorem oneByOne_of_runsAt {store : Store} {target : Key → Option Value}
    (h : ∀ k, RunsAt checks (store.get k) (Keyed.of StorageAction.key l k) (target k)) :
    StepsFit checks store l ∧ ∃ store', executeOneByOne checks store l = some store' ∧ ∀ k, store'.get k = target k := by
  induction l generalizing store with
  | nil => exact ⟨trivial, store, rfl, h⟩
  | cons a l ih =>
    have ha := h a.key
    have hof : Keyed.of StorageAction.key (a :: l) a.key = a :: Keyed.of StorageAction.key l a.key :=
      List.filter_cons_of_pos (by simp)
    rw [hof] at ha
    obtain ⟨p, heffect, hfits, hrest⟩ := ha
    have hstep : (applyActions checks store [a] false).map Prod.fst = some (store.assign a.key p) := by
      rw [applyActions_single]
      simp [Keyed.step, heffect]
    have hrest : ∀ k, RunsAt checks ((store.assign a.key p).get k) (Keyed.of StorageAction.key l k) (target k) := by
      intro k
      rw [Table.get_assign]
      by_cases hk : k = a.key
      · subst hk
        rw [if_pos rfl]
        exact hrest
      · have hk' := h k
        rw [Keyed.of, List.filter_cons_of_neg (by simpa using Ne.symm hk)] at hk'
        rw [if_neg hk]
        exact hk'
    obtain ⟨hfit, store', hone, htarget⟩ := ih hrest
    refine ⟨⟨hfits, ?_⟩, store', ?_, htarget⟩
    · rw [hstep]
      exact hfit
    · simp only [executeOneByOne, List.foldlM_cons, hstep]
      exact hone

/-- **When the actions of every key run through, every batching commits**, and leaves at each key the value that they
lead to. -/
theorem committed {store : Store} {target : Key → Option Value} (fam : Key → Family)
    {batches : List (HashOrder × List (List StorageAction))}
    (hfam : ∀ a ∈ allActions batches, a.inFamily (fam a.key))
    (h : ∀ k, RunsAt checks (store.get k) (Keyed.of StorageAction.key (allActions batches) k) (target k)) :
    ∃ store', executeBatches checks store batches = some store' ∧ ∀ k, SameValue (fam k) (store'.get k) (target k) := by
  obtain ⟨hfit, store₁, hone, htarget⟩ := oneByOne_of_runsAt h
  obtain ⟨store', hrun, hagree⟩ := executeBatches_agree store hfam (fun k => agree_refl (fam k) _) hfit hone
  refine ⟨store', hrun, fun k => ?_⟩
  rw [← htarget k]
  exact (hagree k).sameValue

end

/-! ## Batches at one key -/

section

variable (checks : Bool)

/-- A batch at one key: its actions are merged to one, which is executed. -/
def batchAt (l : List StorageAction) (o : Option Value) : Option (Option Value) := do
  match ← Keyed.at_ (mergeEffect checks) l none with
  | some m => m.effect checks o
  | none => some o

def executedAt : List (List StorageAction) → Option Value → Option (Option Value)
  | [], o => some o
  | l :: batches, o => (batchAt checks l o).bind (executedAt batches)

/-- The actions of batches on a key. -/
def atKey (batches : List (HashOrder × List (List StorageAction))) (k : Key) : List (List StorageAction) :=
  batches.map fun batch => Keyed.of StorageAction.key batch.2.flatten k

variable {checks} {store store' : Store} {batch : HashOrder × List (List StorageAction)}
  {batches : List (HashOrder × List (List StorageAction))} {k : Key}

theorem flatten_atKey (batches : List (HashOrder × List (List StorageAction))) (k : Key) :
    (atKey batches k).flatten = Keyed.of StorageAction.key (allActions batches) k := by
  induction batches with
  | nil => rfl
  | cons batch batches ih =>
    have hall : allActions (batch :: batches) = batch.2.flatten ++ allActions batches := rfl
    rw [hall, Keyed.of_append, ← ih]
    rfl

/-- The batches at a key are groups of what the blocks have on it. -/
theorem atKey_eq (batches : List (HashOrder × List (List StorageAction))) (k : Key) :
    atKey batches k =
      ((batches.map Prod.snd).map (List.map fun l => Keyed.of StorageAction.key l k)).map List.flatten := by
  unfold atKey
  rw [List.map_map, List.map_map]
  refine List.map_congr_left fun batch _ => ?_
  have hflatten : ∀ ls : List (List StorageAction), Keyed.of StorageAction.key ls.flatten k =
      (ls.map fun l => Keyed.of StorageAction.key l k).flatten := by
    intro ls
    induction ls with
    | nil => rfl
    | cons l ls ih => rw [List.flatten_cons, Keyed.of_append, ih, List.map_cons, List.flatten_cons]
  exact hflatten batch.2

/-- The first of the batches is merged and executed, then the others. -/
theorem executeBatches_cons : executeBatches checks store (batch :: batches) = some store' ↔
    ∃ b flushed r, batch.2.foldlM (SyncBatcher.pushActions checks) (SyncBatcher.new 0 0) = some b ∧
      applyActions checks store (b.getBatchActions batch.1) false = some (flushed, r) ∧
      executeBatches checks flushed batches = some store' := by
  unfold executeBatches
  rw [List.foldlM_cons]
  constructor
  · intro h
    obtain ⟨flushed, hflushed, hrest⟩ := Option.bind_eq_some_iff.mp h
    obtain ⟨b, hb, hexecute⟩ := Option.bind_eq_some_iff.mp hflushed
    obtain ⟨⟨applied, r⟩, happly, heq⟩ := Option.bind_eq_some_iff.mp hexecute
    obtain rfl : applied = flushed := Option.some.inj heq
    exact ⟨b, applied, r, hb, happly, hrest⟩
  · rintro ⟨b, flushed, r, hb, happly, hrest⟩
    simp only [hb, happly, Option.bind_eq_bind, Option.bind_some]
    exact hrest

/-- What a batcher holds for each key. -/
theorem merged_at {b : SyncBatcher} {blocks : List (List StorageAction)}
    (hb : blocks.foldlM (SyncBatcher.pushActions checks) (SyncBatcher.new 0 0) = some b) :
    WellKeyed b.batchActions ∧
      ∀ k, Keyed.at_ (mergeEffect checks) (Keyed.of StorageAction.key blocks.flatten k) none =
        some (b.batchActions.get k) := by
  have hmerged : mergeAll checks Table.empty blocks.flatten = some b.batchActions := by
    refine (foldlM_pushActions (SyncBatcher.new 0 0) blocks).symm.trans ?_
    rw [hb]
    rfl
  exact ⟨mergeAll_wellKeyed wellKeyed_empty hmerged, Keyed.run_eq_some_iff.mp hmerged⟩

/-- **A batch that is executed**, at each key. -/
theorem batchAt_of_flush {b : SyncBatcher} {blocks : List (List StorageAction)} {order : HashOrder}
    {r : Option (List StorageAction)}
    (hb : blocks.foldlM (SyncBatcher.pushActions checks) (SyncBatcher.new 0 0) = some b)
    (happly : applyActions checks store (b.getBatchActions order) false = some (store', r)) (k : Key) :
    batchAt checks (Keyed.of StorageAction.key blocks.flatten k) (store.get k) = some (store'.get k) := by
  obtain ⟨hw, hmerged⟩ := merged_at hb
  have hget := flush_get hw happly k
  unfold batchAt
  rw [hmerged k]
  cases hheld : b.batchActions.get k with
  | some m =>
    simp only [hheld] at hget
    exact hget
  | none =>
    simp only [hheld] at hget
    exact congrArg some hget.symm

/-- **What was committed**, key by key. -/
theorem executeBatches_at (h : executeBatches checks store batches = some store') (k : Key) :
    executedAt checks (atKey batches k) (store.get k) = some (store'.get k) := by
  induction batches generalizing store with
  | nil =>
    cases h
    rfl
  | cons batch batches ih =>
    obtain ⟨b, flushed, r, hb, happly, hrest⟩ := executeBatches_cons.mp h
    have hat : atKey (batch :: batches) k = Keyed.of StorageAction.key batch.2.flatten k :: atKey batches k := rfl
    rw [hat, executedAt, batchAt_of_flush hb happly k]
    exact ih hrest

/-- A batch that can be executed at every key. -/
theorem exists_flush_of_at {blocks : List (List StorageAction)} (order : HashOrder)
    (h : ∀ k, ∃ o, batchAt checks (Keyed.of StorageAction.key blocks.flatten k) (store.get k) = some o) :
    ∃ b flushed, blocks.foldlM (SyncBatcher.pushActions checks) (SyncBatcher.new 0 0) = some b ∧
      applyActions checks store (b.getBatchActions order) false = some (flushed, none) := by
  obtain ⟨held, hheld⟩ := Keyed.exists_run_of_at (t := Table.empty) fun k => by
    obtain ⟨o, ho⟩ := h k
    obtain ⟨merged, hmerged, -⟩ := Option.bind_eq_some_iff.mp ho
    exact ⟨merged, hmerged⟩
  obtain ⟨b, hb, hbheld⟩ := Option.map_eq_some_iff.mp
    ((foldlM_pushActions (SyncBatcher.new 0 0) blocks).trans hheld)
  obtain ⟨hw, hmerged⟩ := merged_at hb
  obtain ⟨flushed, hflush⟩ := exists_flush checks store order hw fun k m hget => by
    obtain ⟨o, ho⟩ := h k
    unfold batchAt at ho
    rw [hmerged k, hget] at ho
    exact ⟨o, ho⟩
  exact ⟨b, flushed, hb, hflush⟩

/-- **What can be executed at every key is committed.** -/
theorem exists_committed (h : ∀ k, ∃ o, executedAt checks (atKey batches k) (store.get k) = some o) :
    ∃ store', executeBatches checks store batches = some store' := by
  induction batches generalizing store with
  | nil => exact ⟨store, rfl⟩
  | cons batch batches ih =>
    have hhead : ∀ k, ∃ p o, batchAt checks (Keyed.of StorageAction.key batch.2.flatten k) (store.get k) = some p ∧
        executedAt checks (atKey batches k) p = some o := by
      intro k
      obtain ⟨o, ho⟩ := h k
      obtain ⟨p, hp, hrest⟩ := Option.bind_eq_some_iff.mp ho
      exact ⟨p, o, hp, hrest⟩
    obtain ⟨b, flushed, hb, happly⟩ := exists_flush_of_at batch.1 fun k => by
      obtain ⟨p, -, hp, -⟩ := hhead k
      exact ⟨p, hp⟩
    obtain ⟨store', hrest⟩ := ih fun k => by
      obtain ⟨p, o, hp, ho⟩ := hhead k
      have hsame := batchAt_of_flush hb happly k
      rw [hp] at hsame
      cases hsame
      exact ⟨o, ho⟩
    exact ⟨store', executeBatches_cons.mpr ⟨b, flushed, none, hb, happly, hrest⟩⟩

end

section

variable {checks : Bool} {f : Family} {k : Key} {o o' : Option Value} {l : List StorageAction}

/-- A batch keeps pace at one key: the merged action is what the actions of the key have already done. -/
theorem exists_pendingAt {before : Option Value} {held : Option StorageAction}
    (hpend : Pending checks f before held o) (hheld : ∀ m, held = some m → m.key = k)
    (hl : ∀ a ∈ l, a.inFamily f = true ∧ a.key = k) (hruns : RunsAt checks o l o') :
    ∃ held', Keyed.at_ (mergeEffect checks) l held = some held' ∧ Pending checks f before held' o' := by
  induction l generalizing held o with
  | nil =>
    cases hruns
    exact ⟨held, rfl, hpend⟩
  | cons a l ih =>
    obtain ⟨p, heffect, hfits, hrest⟩ := hruns
    obtain ⟨hfam, hkey⟩ := hl a List.mem_cons_self
    obtain ⟨c, hc, hpend'⟩ := hpend.push hfam (fun m hm => (hheld m hm).trans hkey.symm) hfits heffect
    rw [Keyed.at_cons, hc, Option.bind_some]
    refine ih hpend' (fun m hm => ?_) (fun b hb => hl b (List.mem_cons_of_mem _ hb)) hrest
    cases hm
    exact (mergeEffect_key (fun q hq => (hheld q hq).trans hkey.symm) hc rfl).trans hkey

/-- **Actions that run through are executed in any batching**, and leave what they lead to. -/
theorem RunsAt.executedAt {batches : List (List StorageAction)} {p : Option Value}
    (hl : ∀ a ∈ batches.flatten, a.inFamily f = true ∧ a.key = k) (hagree : Agree f p o)
    (h : RunsAt checks o batches.flatten o') : ∃ p', executedAt checks batches p = some p' ∧ Agree f p' o' := by
  induction batches generalizing p o with
  | nil =>
    cases h
    exact ⟨p, rfl, hagree⟩
  | cons l batches ih =>
    rw [List.flatten_cons] at h hl
    obtain ⟨mid, hbatch, hrest⟩ := runsAt_append.mp h
    have hstart : Pending checks f p none o := hagree
    obtain ⟨held, hmerged, hpend⟩ := exists_pendingAt hstart (fun m hm => by cases hm)
      (fun a ha => hl a (List.mem_append_left _ ha)) hbatch
    obtain ⟨q, hq, hafter⟩ : ∃ q, batchAt checks l p = some q ∧ Agree f q mid := by
      unfold batchAt
      rw [hmerged]
      cases held with
      | none => exact ⟨p, rfl, hpend⟩
      | some m => exact hpend.flush
    obtain ⟨p', hp', hagree'⟩ := ih (fun a ha => hl a (List.mem_append_right _ ha)) hafter hrest
    refine ⟨p', ?_, hagree'⟩
    rw [Polyphony.executedAt, hq]
    exact hp'

/-- **What was committed agrees at every key** whose actions run through, whatever the other keys do. -/
theorem executeBatches_agree_at {store store' : Store} {batches : List (HashOrder × List (List StorageAction))}
    (hcommit : executeBatches checks store batches = some store')
    (hfam : ∀ a ∈ allActions batches, a.key = k → a.inFamily f = true) (hagree : Agree f (store.get k) o)
    (hruns : RunsAt checks o (Keyed.of StorageAction.key (allActions batches) k) o') : Agree f (store'.get k) o' := by
  rw [← flatten_atKey] at hruns
  have hl : ∀ a ∈ (atKey batches k).flatten, a.inFamily f = true ∧ a.key = k := by
    intro a ha
    rw [flatten_atKey] at ha
    obtain ⟨hmem, hkey⟩ := List.mem_filter.mp ha
    have hkey' : a.key = k := by simpa using hkey
    exact ⟨hfam a hmem hkey', hkey'⟩
  obtain ⟨p, hp, hagree'⟩ := hruns.executedAt hl hagree
  rw [executeBatches_at hcommit k] at hp
  cases hp
  exact hagree'

end

/-! ## Builds without overflow checks -/

section

variable {f : Family} {a : StorageAction} {w n : Nat} [NeZero n] {d : Fin n} {o : Option Value}

open StorageAction (Decodes)

theorem exists_incremented (hn : n = 256 ^ w) (ho : Decodes w o) :
    ∃ p, StorageAction.incremented w false d o = some p ∧ Decodes w p := by
  cases o with
  | none => exact ⟨_, rfl, StorageAction.decodes_writeUInt d⟩
  | some v =>
    obtain ⟨prev, hprev, -⟩ := StorageAction.exists_readUInt hn ho
    refine ⟨some (writeUInt w (prev + d)), ?_, StorageAction.decodes_writeUInt _⟩
    rw [StorageAction.incremented, hprev]
    rfl

theorem exists_decremented (hn : n = 256 ^ w) (ho : Decodes w o) :
    ∃ p, StorageAction.decremented w d o = some p ∧ Decodes w p := by
  cases o with
  | none => exact ⟨none, rfl, ho⟩
  | some v =>
    obtain ⟨prev, hprev, -⟩ := StorageAction.exists_readUInt hn ho
    refine ⟨if d < prev then some (writeUInt w (prev - d)) else none, ?_, ?_⟩
    · rw [StorageAction.decremented, hprev]
      rfl
    split
    · exact StorageAction.decodes_writeUInt _
    · exact fun v h => by cases h

theorem exists_decrementedNoDelete (hn : n = 256 ^ w) (ho : Decodes w o) :
    ∃ p, StorageAction.decrementedNoDelete w d o = some p ∧ Decodes w p := by
  cases o with
  | none => exact ⟨none, rfl, ho⟩
  | some v =>
    obtain ⟨prev, hprev, -⟩ := StorageAction.exists_readUInt hn ho
    refine ⟨if d ≤ prev then some (writeUInt w (prev - d)) else some (writeUInt w (0 : Fin n)), ?_, ?_⟩
    · rw [StorageAction.decrementedNoDelete, hprev]
      rfl
    split
    · exact StorageAction.decodes_writeUInt _
    · exact StorageAction.decodes_writeUInt _

/-- Without overflow checks an action completes on every counter that can be read, and leaves one. -/
theorem exists_effect (ha : a.inFamily f = true) (ho : Decodes f.width o) :
    ∃ p, a.effect false o = some p ∧ Decodes f.width p := by
  unfold StorageAction.effect
  split
  · exact ⟨o, rfl, ho⟩
  · cases f with
    | writes => cases a <;> cases ha <;> exact ⟨_, rfl, fun _ _ => Nat.zero_le _⟩
    | _ =>
      cases a <;> cases ha <;> simp only [StorageAction.Family.width] at ho ⊢
      all_goals first
        | exact exists_incremented (by decide) ho
        | exact exists_decremented (by decide) ho
        | exact exists_decrementedNoDelete (by decide) ho

/-- Without overflow checks two actions of one family merge. -/
theorem exists_merge {b : StorageAction} (ha : a.inFamily f = true) (hb : b.inFamily f = true) (hk : a.key = b.key) :
    ∃ c, a.merge false b = some c ∧ c.inFamily f = true := by
  cases f with
  | writes =>
    obtain ⟨c, hc, hfam, -⟩ := StorageAction.merge_writes false ha hb hk
    exact ⟨c, hc, hfam⟩
  | _ =>
    cases a <;> cases ha <;> cases b <;> cases hb <;> simp only [StorageAction.key] at hk <;> subst hk <;>
      simp only [StorageAction.merge, StorageAction.key, ne_eq, not_true_eq_false, if_false]
    all_goals first
      | exact ⟨_, rfl, rfl⟩
      | split <;> exact ⟨_, rfl, rfl⟩

end

section

variable {fam : Key → Family} {store : Store}

/-- Every counter is long enough to be read. -/
def Readable (fam : Key → Family) (store : Store) : Prop :=
  ∀ k, StorageAction.Decodes (fam k).width (store.get k)

theorem readable_empty : Readable fam Table.empty := by
  intro k v h
  cases h

/-- Actions of one family at each key are merged. -/
theorem exists_mergeAll {held : Table Key StorageAction} {l : List StorageAction}
    (hheld : ∀ k m, held.get k = some m → m.key = k ∧ m.inFamily (fam k) = true)
    (hl : ∀ a ∈ l, a.inFamily (fam a.key) = true) :
    ∃ held', mergeAll false held l = some held' ∧
      ∀ k m, held'.get k = some m → m.key = k ∧ m.inFamily (fam k) = true := by
  induction l generalizing held with
  | nil => exact ⟨held, rfl, hheld⟩
  | cons a l ih =>
    have ha := hl a List.mem_cons_self
    have hpush : ∃ c, mergeEffect false a (held.get a.key) = some (some c) ∧ c.key = a.key ∧
        c.inFamily (fam a.key) = true := by
      cases hget : held.get a.key with
      | none => exact ⟨a, rfl, rfl, ha⟩
      | some m =>
        obtain ⟨hkey, hfam⟩ := hheld a.key m hget
        obtain ⟨c, hc, hcfam⟩ := exists_merge hfam ha hkey
        exact ⟨c, by rw [mergeEffect, hc]; rfl, (StorageAction.merge_key hc).trans hkey, hcfam⟩
    obtain ⟨c, hc, hckey, hcfam⟩ := hpush
    have hstep : Keyed.step StorageAction.key (mergeEffect false) held a = some (held.assign a.key (some c)) := by
      rw [Keyed.step, hc]
      rfl
    rw [mergeAll, Keyed.run_cons, hstep]
    refine ih (fun k m hget => ?_) fun b hb => hl b (List.mem_cons_of_mem _ hb)
    rw [Table.get_assign] at hget
    split at hget
    · rename_i hk
      cases hget
      rw [hk]
      exact ⟨hckey, hcfam⟩
    · exact hheld k m hget

/-- **Without overflow checks every batching commits**: the actions of each key being of one family, nothing panics. -/
theorem exists_executeBatches {batches : List (HashOrder × List (List StorageAction))}
    (hfam : ∀ a ∈ allActions batches, a.inFamily (fam a.key) = true) (hstore : Readable fam store) :
    ∃ store', executeBatches false store batches = some store' := by
  induction batches generalizing store with
  | nil => exact ⟨store, rfl⟩
  | cons batch batches ih =>
    have hall : allActions (batch :: batches) = batch.2.flatten ++ allActions batches := rfl
    rw [hall] at hfam
    have hempty : ∀ k m, (Table.empty : Table Key StorageAction).get k = some m → m.key = k ∧ m.inFamily (fam k) = true :=
      fun k m h => by cases h
    obtain ⟨held, hmerged, hheld⟩ := exists_mergeAll hempty fun a ha => hfam a (List.mem_append_left _ ha)
    obtain ⟨b, hb, hbheld⟩ := Option.map_eq_some_iff.mp
      ((foldlM_pushActions (SyncBatcher.new 0 0) batch.2).trans hmerged)
    have hw : WellKeyed held := fun k m hget => (hheld k m hget).1
    obtain ⟨flushed, hflush⟩ := exists_flush false store batch.1 hw fun k m hget => by
      obtain ⟨p, hp, -⟩ := exists_effect (hheld k m hget).2 (hstore k)
      exact ⟨p, hp⟩
    have hreadable : Readable fam flushed := by
      intro k
      have hget := flush_get hw hflush k
      cases hk : held.get k with
      | none =>
        rw [hk] at hget
        rw [hget]
        exact hstore k
      | some m =>
        obtain ⟨p, hp, hdecodes⟩ := exists_effect (hheld k m hk).2 (hstore k)
        simp only [hk, hp] at hget
        rw [← Option.some.inj hget]
        exact hdecodes
    obtain ⟨store', hrest⟩ := ih (fun a ha => hfam a (List.mem_append_right _ ha)) hreadable
    refine ⟨store', ?_⟩
    simp only [executeBatches, List.foldlM_cons, hb, Option.bind_eq_bind, Option.bind_some, SyncBatcher.getBatchActions,
      hbheld, hflush]
    exact hrest

end

/-! ## Entries -/

/-- The action of an update. -/
def writeAction : Key × Option Value → StorageAction
  | (k, some v) => .set k v
  | (k, none) => .delete k

theorem writeAction_key (u : Key × Option Value) : (writeAction u).key = u.1 := by
  obtain ⟨k, o⟩ := u
  cases o <;> rfl

theorem writeAction_inFamily (u : Key × Option Value) : (writeAction u).inFamily .writes = true := by
  obtain ⟨k, o⟩ := u
  cases o <;> rfl

theorem runsAt_writeActions (checks : Bool) (k : Key) (o : Option Value) (l : List (Key × Option Value)) :
    RunsAt checks o (Keyed.of StorageAction.key (l.map writeAction) k) (Ledger.reading k o l) := by
  induction l generalizing o with
  | nil => rfl
  | cons u l ih =>
    have hreading : Ledger.reading k o (u :: l) = Ledger.reading k (if u.1 = k then u.2 else o) l := rfl
    rw [List.map_cons, hreading]
    by_cases hk : u.1 = k
    · rw [Keyed.of, List.filter_cons_of_pos (by simpa [writeAction_key] using hk), if_pos hk]
      refine ⟨u.2, ?_, ?_, ih u.2⟩
      · obtain ⟨k', v⟩ := u
        cases v <;> rfl
      · obtain ⟨k', v⟩ := u
        cases v <;> exact trivial
    · rw [Keyed.of, List.filter_cons_of_neg (by simpa [writeAction_key] using hk), if_neg hk]
      exact ih o

section

variable {R U : Type} [LinearOrder R] {t : Table R U} {l : List (Ledger.Event R U)} {k : Key}

/-- **The entries of a ledger's items**, at a key that one item at a time contributes to. -/
theorem runsAt_writes (checks : Bool) {f : R → U → List (Key × Value)} (hv : Ledger.Valid t l)
    (hs : Ledger.Along (Ledger.Single f k) t l) {o : Option Value} (ho : ∀ v, o = some v ↔ Ledger.Lists f t k v) :
    ∃ o', RunsAt checks o (Keyed.of StorageAction.key ((l.flatMap (Ledger.updates f)).map writeAction) k) o' ∧
      ∀ v, o' = some v ↔ Ledger.Lists f (Ledger.run t l) k v :=
  ⟨_, runsAt_writeActions checks k o _, Ledger.reading_updates hv hs ho⟩

end

/-! ## Counters -/

/-- A kind of counter: its amounts, and the actions that add and take them. -/
structure CounterKind where
  Amount : Type
  value : Amount → Nat
  family : Family
  counter : family ≠ .writes
  increment : Key → Amount → StorageAction
  decrement : Key → Amount → StorageAction
  increment_key : ∀ k a, (increment k a).key = k
  decrement_key : ∀ k a, (decrement k a).key = k
  increment_family : ∀ k a, (increment k a).inFamily family = true
  decrement_family : ∀ k a, (decrement k a).inFamily family = true
  increment_delta : ∀ k a, (increment k a).delta = value a
  decrement_delta : ∀ k a, (decrement k a).delta = -(value a)

namespace CounterKind

def u64 : CounterKind where
  Amount := U64
  value a := a.val
  family := .u64
  counter := by decide
  increment := .incrementU64
  decrement := .decrementU64
  increment_key _ _ := rfl
  decrement_key _ _ := rfl
  increment_family _ _ := rfl
  decrement_family _ _ := rfl
  increment_delta _ _ := rfl
  decrement_delta _ _ := rfl

def u128 : CounterKind where
  Amount := U128
  value a := a.val
  family := .u128
  counter := by decide
  increment := .incrementU128
  decrement := .decrementU128
  increment_key _ _ := rfl
  decrement_key _ _ := rfl
  increment_family _ _ := rfl
  decrement_family _ _ := rfl
  increment_delta _ _ := rfl
  decrement_delta _ _ := rfl

variable (c : CounterKind)

/-- The counter reads the value. -/
def Reads (o : Option Value) (n : Nat) : Prop := counterValue c.family.width o = n ∧ StorageAction.Decodes c.family.width o

/-- What a list of contributions adds at a key. -/
def at_ (k : Key) (l : List (Key × c.Amount)) : Nat := ((l.filter fun e => e.1 = k).map fun e => c.value e.2).sum

variable {c}

theorem at_cons (k : Key) (e : Key × c.Amount) (l : List (Key × c.Amount)) :
    c.at_ k (e :: l) = (if e.1 = k then c.value e.2 else 0) + c.at_ k l := by
  unfold at_
  by_cases hk : e.1 = k
  · rw [List.filter_cons_of_pos (by simpa using hk), if_pos hk, List.map_cons, List.sum_cons]
  · rw [List.filter_cons_of_neg (by simpa using hk), if_neg hk, Nat.zero_add]

/-- One action of a counter. -/
theorem runsAt_action (checks : Bool) {o : Option Value} {n m : Nat} {a : StorageAction} (hr : c.Reads o n)
    (ha : a.inFamily c.family = true) (hdelta : (n : Int) + a.delta = m) (hm : m < 256 ^ c.family.width) :
    ∃ p, a.effect checks o = some p ∧ a.Fits o ∧ c.Reads p m := by
  have hpow : ((256 ^ c.family.width : Nat) : Int) = 256 ^ c.family.width := Int.natCast_pow 256 c.family.width
  have hfits : a.Fits o := by
    rw [StorageAction.fits_iff c.counter ha, hr.1, hdelta, ← hpow]
    exact ⟨Int.natCast_nonneg m, Int.ofNat_lt.mpr hm⟩
  obtain ⟨p, heffect, hvalue, hzero, hdecodes⟩ :=
    StorageAction.effect_counter checks c.counter ha (fun _ => hr.2) hfits
  refine ⟨p, heffect, hfits, ?_, ?_⟩
  · rw [hr.1, hdelta] at hvalue
    exact Int.ofNat_inj.mp hvalue
  · cases hz : a.isZeroDelta with
    | true =>
      rw [hzero hz]
      exact hr.2
    | false => exact hdecodes hz

theorem runsAt_increments {checks : Bool} {k : Key} {o : Option Value} {n : Nat} {l : List (Key × c.Amount)}
    (hr : c.Reads o n) (hlt : n + c.at_ k l < 256 ^ c.family.width) :
    ∃ o', RunsAt checks o (Keyed.of StorageAction.key (l.map fun e => c.increment e.1 e.2) k) o' ∧
      c.Reads o' (n + c.at_ k l) := by
  induction l generalizing o n with
  | nil => exact ⟨o, rfl, hr⟩
  | cons e l ih =>
    rw [at_cons] at hlt ⊢
    rw [List.map_cons]
    by_cases hk : e.1 = k
    · rw [if_pos hk] at hlt ⊢
      obtain ⟨p, heffect, hfits, hp⟩ := runsAt_action checks (m := n + c.value e.2) hr
        (c.increment_family e.1 e.2) (by rw [c.increment_delta]; exact (Int.natCast_add _ _).symm) (by omega)
      obtain ⟨o', hrun, ho'⟩ := ih hp (by omega)
      refine ⟨o', ?_, by rw [← Nat.add_assoc]; exact ho'⟩
      rw [Keyed.of, List.filter_cons_of_pos (by simpa [c.increment_key] using hk)]
      exact ⟨p, heffect, hfits, hrun⟩
    · rw [if_neg hk, Nat.zero_add] at hlt ⊢
      rw [Keyed.of, List.filter_cons_of_neg (by simpa [c.increment_key] using hk)]
      exact ih hr hlt

theorem runsAt_decrements {checks : Bool} {k : Key} {o : Option Value} {n : Nat} {l : List (Key × c.Amount)}
    (hr : c.Reads o (n + c.at_ k l)) (hlt : n + c.at_ k l < 256 ^ c.family.width) :
    ∃ o', RunsAt checks o (Keyed.of StorageAction.key (l.map fun e => c.decrement e.1 e.2) k) o' ∧ c.Reads o' n := by
  induction l generalizing o n with
  | nil => exact ⟨o, rfl, hr⟩
  | cons e l ih =>
    rw [at_cons] at hr hlt
    rw [List.map_cons]
    by_cases hk : e.1 = k
    · rw [if_pos hk] at hr hlt
      obtain ⟨p, heffect, hfits, hp⟩ := runsAt_action checks (m := n + c.at_ k l) hr
        (c.decrement_family e.1 e.2) (by rw [c.decrement_delta]; omega) (by omega)
      obtain ⟨o', hrun, ho'⟩ := ih hp (by omega)
      refine ⟨o', ?_, ho'⟩
      rw [Keyed.of, List.filter_cons_of_pos (by simpa [c.decrement_key] using hk)]
      exact ⟨p, heffect, hfits, hrun⟩
    · rw [if_neg hk, Nat.zero_add] at hr hlt
      rw [Keyed.of, List.filter_cons_of_neg (by simpa [c.decrement_key] using hk)]
      exact ih hr hlt

end CounterKind

section

variable {R U : Type} [LinearOrder R]

/-- The actions of an event: the amounts of its item are taken off or added. -/
def counterActions (c : CounterKind) (g : R → U → List (Key × c.Amount)) : Ledger.Event R U → List StorageAction
  | .spend r u => (g r u).map fun e => c.decrement e.1 e.2
  | .produce r u => (g r u).map fun e => c.increment e.1 e.2

variable {c : CounterKind} {g : R → U → List (Key × c.Amount)} {t : Table R U} {l : List (Ledger.Event R U)} {k : Key}

/-- What the items of a ledger add up to at a key. -/
def counted (c : CounterKind) (g : R → U → List (Key × c.Amount)) (k : Key) (t : Table R U) : Nat :=
  t.total fun r u => c.at_ k (g r u)

/-- **The counter of a ledger's items**, while their total is in range. -/
theorem runsAt_counter (checks : Bool) (hv : Ledger.Valid t l)
    (hb : Ledger.Along (fun t => counted c g k t < 256 ^ c.family.width) t l) {o : Option Value}
    (ho : c.Reads o (counted c g k t)) :
    ∃ o', RunsAt checks o (Keyed.of StorageAction.key (l.flatMap (counterActions c g)) k) o' ∧
      c.Reads o' (counted c g k (Ledger.run t l)) := by
  induction l generalizing t o with
  | nil => exact ⟨o, rfl, ho⟩
  | cons e l ih =>
    have hstep : ∃ p, RunsAt checks o (Keyed.of StorageAction.key (counterActions c g e) k) p ∧
        c.Reads p (counted c g k (e.apply t)) := by
      have htotal := Ledger.total_apply (fun r u => c.at_ k (g r u)) hv.1
      cases e with
      | spend r u =>
        have hsum : counted c g k t = counted c g k (Ledger.Event.apply t (.spend r u)) + c.at_ k (g r u) := htotal.symm
        have hlt := hb.1
        rw [hsum] at ho hlt
        exact CounterKind.runsAt_decrements ho hlt
      | produce r u =>
        have hsum : counted c g k (Ledger.Event.apply t (.produce r u)) = counted c g k t + c.at_ k (g r u) := htotal
        have hlt := hb.2.head
        rw [hsum] at hlt ⊢
        exact CounterKind.runsAt_increments ho hlt
    obtain ⟨p, hrun, hp⟩ := hstep
    obtain ⟨o', hrest, ho'⟩ := ih hv.2 hb.2 hp
    refine ⟨o', ?_, ho'⟩
    rw [List.flatMap_cons, Keyed.of_append]
    exact runsAt_append.mpr ⟨p, hrun, hrest⟩

end

end DogeIndexer.Polyphony
