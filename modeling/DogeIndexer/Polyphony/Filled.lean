import DogeIndexer.Polyphony.Persisted
import DogeIndexer.Polyphony.Staggered

/-!
# Values that are not empty

An empty value among the rollback metadata stands for a delete, so nothing empty may be stored under
a data key.  A flush keeps this, completed or not.

* `effectWithInverse_filled`, `inverseAt_isInverse` — what one action does.
* `Sound` — no empty value is stored or pending.
* `flushBatch_keeps`, `maybeAdvertise_keeps` — the parts of a unit that leave the metadata alone.
* `flushRemaining_get` — what a key reads once the pending batch is flushed.
-/

set_option autoImplicit false

namespace DogeIndexer.Polyphony

open Effect

/-! ## Stored values are not empty -/

/-- The action does not write an empty value of its own. -/
def StorageAction.isFilled : StorageAction → Bool
  | .set _ v => v ≠ []
  | .insert _ v => v ≠ []
  | _ => true

/-- No key holds an empty value. -/
def FilledStore (data : Store) : Prop := ∀ k, ReadsOnly (· ≠ []) (data.get k)

section Filled

variable {checks : Bool} {a b c : StorageAction} {o o' : Option Value}

theorem merge_isFilled (h : a.merge checks b = some c) (ha : a.isFilled = true) (hb : b.isFilled = true) :
    c.isFilled = true := by
  unfold StorageAction.merge at h
  split at h
  · cases h
  · split at h
    all_goals first
      | (cases h; first | exact ha | exact hb | rfl)
      | (obtain ⟨d, -, rfl⟩ := Option.map_eq_some_iff.mp h; rfl)
      | (split at h <;> cases h <;> rfl)
      | cases h

theorem mergeAll_isFilled {held held' : Table Key StorageAction} {l : List StorageAction}
    (h : mergeAll checks held l = some held') (hheld : ∀ k a, held.get k = some a → a.isFilled = true)
    (hl : ∀ a ∈ l, a.isFilled = true) : ∀ k a, held'.get k = some a → a.isFilled = true := by
  refine Keyed.run_forall (P := fun o => ∀ a, o = some a → a.isFilled = true) ?_ h hheld
  intro a ha o o' ho heff
  cases o with
  | none =>
    cases heff
    rintro b ⟨rfl⟩
    exact hl a ha
  | some prev =>
    obtain ⟨c, hc, rfl⟩ := Option.map_eq_some_iff.mp heff
    rintro b ⟨rfl⟩
    exact merge_isFilled hc (ho prev rfl) (hl a ha)

theorem writeUInt_ne_nil {w n : Nat} (hw : w ≠ 0) (d : Fin n) : writeUInt w d ≠ [] := by
  intro h
  have hlen : (writeUInt w d).length = w := by simp [writeUInt]
  rw [h] at hlen
  exact hw hlen.symm

theorem incremented_filled {w n : Nat} [NeZero n] (hw : w ≠ 0) {d : Fin n}
    (h : StorageAction.incremented w checks d o = some o') : ReadsOnly (· ≠ []) o' := by
  rintro v rfl
  cases o with
  | none =>
    cases h
    exact writeUInt_ne_nil hw d
  | some p =>
    obtain ⟨x, -, hx⟩ := Option.bind_eq_some_iff.mp h
    obtain ⟨y, -, hy⟩ := Option.map_eq_some_iff.mp hx
    cases hy
    exact writeUInt_ne_nil hw y

theorem decremented_filled {w n : Nat} [NeZero n] (hw : w ≠ 0) {d : Fin n}
    (h : StorageAction.decremented w d o = some o') : ReadsOnly (· ≠ []) o' := by
  rintro v rfl
  cases o with
  | none => cases h
  | some p =>
    obtain ⟨x, -, hx⟩ := Option.map_eq_some_iff.mp h
    split at hx
    · cases hx
      exact writeUInt_ne_nil hw _
    · cases hx

theorem decrementedNoDelete_filled {w n : Nat} [NeZero n] (hw : w ≠ 0) {d : Fin n}
    (h : StorageAction.decrementedNoDelete w d o = some o') : ReadsOnly (· ≠ []) o' := by
  rintro v rfl
  cases o with
  | none => cases h
  | some p =>
    obtain ⟨x, -, hx⟩ := Option.map_eq_some_iff.mp h
    split at hx
    all_goals
      cases hx
      exact writeUInt_ne_nil hw _

/-- **A filled action keeps the readings filled.** -/
theorem effectWithInverse_filled (ha : a.isFilled = true) (ho : ReadsOnly (· ≠ []) o)
    (h : a.effectWithInverse checks o = some o') : ReadsOnly (· ≠ []) o' := by
  cases a with
  | set k v =>
    cases h
    rintro v' ⟨rfl⟩
    simpa [StorageAction.isFilled] using ha
  | delete k =>
    cases h
    rintro v' ⟨⟩
  | insert k v =>
    cases h
    rintro v' ⟨rfl⟩
    cases o with
    | none => simpa [StorageAction.isFilled] using ha
    | some p => exact ho p rfl
  | incrementU64 k d => exact incremented_filled (by decide) h
  | incrementU128 k d => exact incremented_filled (by decide) h
  | decrementU64 k d => exact decremented_filled (by decide) h
  | decrementU128 k d => exact decremented_filled (by decide) h
  | decrementU128NoDelete k d => exact decrementedNoDelete_filled (by decide) h

theorem effect_filled (ha : a.isFilled = true) (ho : ReadsOnly (· ≠ []) o)
    (h : a.effect checks o = some o') : ReadsOnly (· ≠ []) o' := by
  unfold StorageAction.effect at h
  split at h
  · cases h
    exact ho
  · exact effectWithInverse_filled ha ho h

/-- The inverse recorded at a filled reading can be stored. -/
theorem inverseAt_isInverse {i : StorageAction} (ho : ReadsOnly (· ≠ []) o) (h : a.inverseAt o = some i) :
    i.isInverse = true := by
  cases o with
  | none => cases a <;> cases h <;> rfl
  | some p =>
    have hp : StorageAction.isInverse (.set a.key p) = true := by
      simpa [StorageAction.isInverse] using ho p rfl
    cases a with
    | set k v =>
      unfold StorageAction.inverseAt at h
      simp only at h
      split at h
      · cases h
      · cases h
        exact hp
    | insert k v => cases h
    | _ =>
      cases h
      exact hp

end Filled

/-- The store already holds what the action writes, or already lacks what it takes away. -/
def StorageAction.isRedundant (o : Option Value) : StorageAction → Bool
  | .set _ v => o = some v
  | .insert _ _ => o.isSome
  | .incrementU64 _ _ => false
  | .incrementU128 _ _ => false
  | _ => o.isNone

theorem inverseAt_eq_none_iff {a : StorageAction} {o : Option Value} :
    a.inverseAt o = none ↔ a.isRedundant o = true := by
  cases o with
  | none => cases a <;> simp [StorageAction.inverseAt, StorageAction.isRedundant]
  | some p => cases a <;> simp [StorageAction.inverseAt, StorageAction.isRedundant]

/-! ## What a flush leaves -/

/-- No empty value is stored or pending. -/
structure Sound (data : Store) (batcher : SyncBatcher) : Prop where
  filled : FilledStore data
  wellKeyed : WellKeyed batcher.batchActions
  pending : ∀ k a, batcher.batchActions.get k = some a → a.isFilled = true

section Flush

variable {cfg : Config} {Q : Worker → Prop} {w w' : Worker} {data : Store} {batcher : SyncBatcher}

theorem Sound.batch (h : Sound data batcher) (order : HashOrder) :
    ((batcher.getBatchActions order).map StorageAction.key).Nodup ∧
      ∀ a ∈ batcher.getBatchActions order, a.isFilled = true := by
  refine ⟨values_nodup h.wellKeyed, fun a ha => ?_⟩
  obtain ⟨k, hk⟩ := mem_values.mp ha
  exact h.pending k a hk

theorem Sound.wipe (h : Sound data batcher) : Sound data batcher.wipe :=
  ⟨h.filled, wellKeyed_empty, fun k a hk => by cases hk⟩

theorem Sound.push {checks : Bool} {ops : List StorageAction} {b : SyncBatcher} (h : Sound data batcher)
    (hops : ∀ a ∈ ops, a.isFilled = true) (hpush : batcher.pushActions checks ops = some b) : Sound data b := by
  rw [SyncBatcher.pushActions_eq_run] at hpush
  obtain ⟨held, hheld, rfl⟩ := Option.map_eq_some_iff.mp hpush
  exact ⟨h.filled, mergeAll_wellKeyed h.wellKeyed hheld, mergeAll_isFilled hheld h.pending hops⟩

theorem call_keeps (hfaults : ∀ w f, Q w → Q { w with faults := f }) : Keeps Q call := by
  intro w h
  unfold call
  split
  · exact hfaults w _ h
  · exact hfaults w _ h
  · exact h

theorem whenM_keeps {c : Bool} {x : Exec Unit} (hx : Keeps Q x) : Keeps Q (whenM c x) := by
  unfold whenM
  split
  · exact hx
  · exact Keeps.pure _

/-- What a transaction may change is the data, and no value becomes empty. -/
structure Indifferent (Q : Worker → Prop) : Prop where
  faults : ∀ w f, Q w → Q { w with faults := f }
  filled : ∀ w, Q w → FilledStore w.data
  data : ∀ w view, Q w → FilledStore view → Q { w with data := view }

theorem applyActions_filled {checks : Bool} {actions : List StorageAction} {view : Store}
    {r : Option (List StorageAction)} (hn : (actions.map StorageAction.key).Nodup)
    (hactions : ∀ a ∈ actions, a.isFilled = true) (hdata : FilledStore data)
    (h : applyActions checks data actions false = some (view, r)) : FilledStore view := by
  rw [applyActions_bulk checks hn] at h
  obtain ⟨t, hrun, ht⟩ := Option.map_eq_some_iff.mp h
  cases ht
  exact Keyed.run_forall (P := ReadsOnly (· ≠ []))
    (fun a ha o o' ho heff => effect_filled (hactions a ha) ho heff) hrun hdata

theorem commitActions_keeps (hQ : Indifferent Q) {actions : List StorageAction}
    (hn : (actions.map StorageAction.key).Nodup) (hactions : ∀ a ∈ actions, a.isFilled = true) :
    Keeps Q (commitActions cfg actions) := by
  refine Keeps.bind (call_keeps hQ.faults) fun _ => Keeps.get_bind fun w hw => ?_
  refine endState_bind (fun e s h => ?_) fun r s h => ?_
  · rw [(orPanic_error h).2]
    exact hw
  · obtain ⟨happ, rfl⟩ := orPanic_ok h
    obtain ⟨view, inverses⟩ := r
    refine Keeps.bind (call_keeps hQ.faults) (fun _ => Keeps.modify fun v hv => ?_) s hw
    exact hQ.data v view hv (applyActions_filled hn hactions (hQ.filled s hw) happ)

theorem applyStaggeredActions_keeps (hQ : Indifferent Q) {actions : List StorageAction}
    (hn : (actions.map StorageAction.key).Nodup) (hactions : ∀ a ∈ actions, a.isFilled = true) :
    Keeps Q (applyStaggeredActions cfg actions) := by
  have hpart : ∀ l : List StorageAction, l.Sublist actions → Keeps Q (commitActions cfg l) := fun l hl =>
    commitActions_keeps hQ (nodup_sublist hn hl) fun a ha => hactions a (hl.subset ha)
  refine Keeps.bind (hpart _ List.filter_sublist) fun _ => Keeps.bind (Keeps.forM fun c hc => ?_) fun _ => ?_
  · exact hpart c ((chunks_sublist _ _ _ c hc).trans List.filter_sublist)
  · show Keeps Q (orPanic (cursorAction cfg actions) >>= fun cursor =>
      commitActions cfg (actions.filter isOther ++ [cursor]))
    cases hcursor : cursorAction cfg actions with
    | none => exact Keeps.throw _
    | some cursor =>
      have hall := staggeredTransactions_nodup hn hcursor
      rw [staggeredTransactions_flatten hcursor] at hall
      refine commitActions_keeps hQ (nodup_sublist hall (List.sublist_append_right _ _)) fun a ha => ?_
      rcases List.mem_append.mp ha with ha | ha
      · exact hactions a (List.mem_of_mem_filter ha)
      · rw [List.mem_singleton.mp ha]
        exact hactions cursor (cursorAction_spec hcursor).1

theorem flushBatch_keeps (hQ : Indifferent Q) {actions : List StorageAction}
    (hn : (actions.map StorageAction.key).Nodup) (hactions : ∀ a ∈ actions, a.isFilled = true) :
    Keeps Q (flushBatch cfg actions) := by
  unfold flushBatch
  split
  · exact applyStaggeredActions_keeps hQ hn hactions
  · exact commitActions_keeps hQ hn hactions

theorem maybeAdvertise_keeps (hfaults : ∀ w f, Q w → Q { w with faults := f })
    (hregistered : ∀ w b, Q w → Q { w with registered := b }) : Keeps Q (maybeAdvertise cfg) := by
  have hscores : Keeps Q (updateRegistryScores cfg) := Keeps.forM fun _ _ => call_keeps hfaults
  refine Keeps.get_bind fun w hw => ?_
  split
  · exact hscores w hw
  · split
    · exact hw
    · exact Keeps.bind hscores (fun _ => Keeps.modify fun v hv => hregistered v true hv) w hw

/-- What a key reads once the pending batch is flushed. -/
def flushedReading (cfg : Config) (w : Worker) (k : Key) : Option Value :=
  match w.syncBatcher.batchActions.get k with
  | some a => (a.effect cfg.checks (w.data.get k)).getD none
  | none => w.data.get k

/-- **A completed flush** leaves at each key the effect of the pending action. -/
theorem flushRemaining_get {u : Unit} (hw : WellKeyed w.syncBatcher.batchActions)
    (h : flushRemaining cfg w = .ok u w') (k : Key) : w'.data.get k = flushedReading cfg w k := by
  unfold flushRemaining at h
  rw [get_bind] at h
  unfold flushedReading
  rcases whenM_ok h with ⟨-, hf⟩ | ⟨hempty, rfl⟩
  · obtain ⟨_, w₁, h₁, h₂⟩ := bind_eq_ok.mp hf
    rw [modify_eq_ok.mp h₂]
    show w₁.data.get k = _
    cases hcursor : cursorAction cfg (w.syncBatcher.getBatchActions cfg.order) with
    | none =>
      -- without a cursor the flush panics
      obtain ⟨_, v₁, -, h₃⟩ := bind_eq_ok.mp h₁
      obtain ⟨_, v₂, -, h₄⟩ := bind_eq_ok.mp h₃
      obtain ⟨cursor, v₃, h₅, -⟩ := bind_eq_ok.mp h₄
      have hsome := (orPanic_ok h₅).1
      rw [show (List.filter (isCursorSet cfg.cursorKey) (w.syncBatcher.getBatchActions cfg.order)).getLast? = none
        from hcursor] at hsome
      cases hsome
    | some cursor =>
      obtain ⟨faults, hcommit, -⟩ := (applyStaggeredActions_commits hcursor).1 w₁ h₁
      have hall : ((staggeredTransactions cfg (w.syncBatcher.getBatchActions cfg.order)).flatten.map
          StorageAction.key).Nodup := staggeredTransactions_nodup (values_nodup hw) hcursor
      rw [commitAll_eq_run cfg.checks hall] at hcommit
      have hmem : ∀ a, a ∈ (staggeredTransactions cfg (w.syncBatcher.getBatchActions cfg.order)).flatten ↔
          a ∈ w.syncBatcher.getBatchActions cfg.order := mem_staggeredTransactions (values_nodup hw) hcursor
      cases hk : w.syncBatcher.batchActions.get k with
      | some a =>
        have ha : a ∈ w.syncBatcher.getBatchActions cfg.order := mem_values.mpr ⟨k, hk⟩
        have heffect := Keyed.run_get_of_mem hall hcommit ((hmem a).mpr ha)
        rw [hw k a hk] at heffect
        simp only [heffect, Option.getD_some]
      | none =>
        refine Keyed.run_get_of_notMem hcommit fun hin => ?_
        obtain ⟨a, ha, rfl⟩ := List.mem_map.mp hin
        obtain ⟨k', hk'⟩ := mem_values.mp ((hmem a).mp ha)
        rw [hw k' a hk', hk'] at hk
        cases hk
  · have hnil : w'.syncBatcher.batchActions.entries = [] := by
      simpa [SyncBatcher.isEmpty] using hempty
    cases hk : w'.syncBatcher.batchActions.get k with
    | none => rfl
    | some a =>
      have hin := Table.mem_entries.mpr hk
      rw [hnil] at hin
      cases hin

end Flush

end DogeIndexer.Polyphony
