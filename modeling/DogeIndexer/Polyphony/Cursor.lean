import DogeIndexer.Polyphony.Source

/-!
# The cursor and the rollback metadata

What the source reads back on a restart: the cursor key of the committed store and the
persistent rollback buffer.

* `flushBatch_reads`, `flushRemaining_reads` — a flush leaves at a key one of the values set.
* `BlockCommit.cursor` — a mutable block moves the cursor, so it records an inverse.
* `fetchPersistentBuffer_newest` — the newest buffered point is that of the greatest height.
-/

set_option autoImplicit false

namespace DogeIndexer.Polyphony

open Effect

/-! ## The cursor key -/

section Cursor

variable {cfg : Config} {k : Key} {P : Value → Prop}

/-- Every value at a key satisfies `P`. -/
def ReadsOnly (P : Value → Prop) (o : Option Value) : Prop := ∀ v, o = some v → P v

/-- The actions of a key are all `Set`s of values with `P`. -/
def SetsOnly (k : Key) (P : Value → Prop) (l : List StorageAction) : Prop :=
  ∀ a ∈ l, a.key = k → ∃ v, a = .set k v ∧ P v

/-- The actions of a key lead from values with `P` to values with `P`. -/
def KeepsReads (checks : Bool) (k : Key) (P : Value → Prop) (l : List StorageAction) : Prop :=
  ∀ a ∈ l, a.key = k → ∀ o o', ReadsOnly P o → a.effect checks o = some o' → ReadsOnly P o'

theorem KeepsReads.mono {checks : Bool} {l l' : List StorageAction} (h : KeepsReads checks k P l)
    (hsub : ∀ a ∈ l', a ∈ l) : KeepsReads checks k P l' := fun a ha => h a (hsub a ha)

theorem SetsOnly.keepsReads {checks : Bool} {l : List StorageAction} (h : SetsOnly k P l) :
    KeepsReads checks k P l := by
  intro a ha hak o o' _ ho
  obtain ⟨v, rfl, hv⟩ := h a ha hak
  cases ho
  intro v' hv'
  cases hv'
  exact hv

theorem commitActions_reads {w w' : Worker} {actions : List StorageAction} {u : Unit}
    (hn : (actions.map StorageAction.key).Nodup) (hs : KeepsReads cfg.checks k P actions)
    (hr : ReadsOnly P (w.data.get k)) (h : commitActions cfg actions w = .ok u w') :
    ReadsOnly P (w'.data.get k) := by
  obtain ⟨view, r, faults, happ, rfl⟩ := commitActions_ok h
  rw [applyActions_bulk cfg.checks hn] at happ
  obtain ⟨t, hrun, ht⟩ := Option.map_eq_some_iff.mp happ
  cases ht
  by_cases hk : k ∈ actions.map StorageAction.key
  · obtain ⟨a, ha, rfl⟩ := List.mem_map.mp hk
    exact hs a ha rfl _ _ hr (Keyed.run_get_of_mem hn hrun ha)
  · show ReadsOnly P (view.get k)
    rw [Keyed.run_get_of_notMem hrun hk]
    exact hr

theorem nodup_sublist {l l' : List StorageAction} (hn : (l.map StorageAction.key).Nodup)
    (hsub : l'.Sublist l) : (l'.map StorageAction.key).Nodup :=
  hn.sublist (hsub.map _)

/-- Chunks keep the order of the list they cut. -/
theorem chunks_sublist {α : Type} (n fuel : Nat) (l : List α) :
    ∀ c ∈ chunks n fuel l, c.Sublist l := by
  induction fuel generalizing l with
  | zero => intro c hc; cases hc
  | succ fuel ih =>
    intro c hc
    unfold chunks at hc
    split at hc
    · cases hc
    · rcases List.mem_cons.mp hc with rfl | hc
      · exact List.take_sublist n l
      · exact (ih _ c hc).trans (List.drop_sublist n l)

theorem applyStaggeredActions_reads {w w' : Worker} {actions : List StorageAction} {u : Unit}
    (hn : (actions.map StorageAction.key).Nodup) (hs : KeepsReads cfg.checks k P actions)
    (hr : ReadsOnly P (w.data.get k)) (h : applyStaggeredActions cfg actions w = .ok u w') :
    ReadsOnly P (w'.data.get k) := by
  obtain ⟨_, w₁, h₁, h₂⟩ := bind_eq_ok.mp h
  have hr₁ := commitActions_reads (nodup_sublist hn List.filter_sublist)
    (hs.mono (fun a ha => List.mem_of_mem_filter ha)) hr h₁
  obtain ⟨_, w₂, h₃, h₄⟩ := bind_eq_ok.mp h₂
  have hr₂ : ReadsOnly P (w₂.data.get k) := by
    refine (forM_induct (P := fun l v => ReadsOnly P (v.data.get k) ∧ ∀ c ∈ l, c.Sublist actions)
      ?_ ⟨hr₁, fun c hc => ?_⟩ h₃).1
    · rintro c l s s' ⟨hreads, hsub⟩ hs'
      have hc := hsub c List.mem_cons_self
      exact ⟨commitActions_reads (nodup_sublist hn hc) (hs.mono (fun a ha => hc.subset ha)) hreads hs',
        fun c' hc' => hsub c' (List.mem_cons_of_mem _ hc')⟩
    · exact (chunks_sublist _ _ _ c hc).trans List.filter_sublist
  obtain ⟨cursor, w₃, h₅, h₆⟩ := bind_eq_ok.mp h₄
  obtain ⟨hcursor, rfl⟩ := orPanic_ok h₅
  have hmem : cursor ∈ actions :=
    List.mem_of_mem_filter (List.mem_of_mem_getLast? (Option.mem_def.mpr hcursor))
  have hset : isCursorSet cfg.cursorKey cursor = true := by
    have hf := List.mem_of_mem_getLast? (Option.mem_def.mpr hcursor)
    exact (List.mem_filter.mp hf).2
  refine commitActions_reads ?_ (hs.mono ?_) hr₂ h₆
  · -- the cursor is a set, so it is not among the others
    rw [List.map_append, List.map_singleton]
    refine List.Nodup.append (nodup_sublist hn List.filter_sublist) (List.nodup_singleton _) ?_
    rw [List.disjoint_singleton]
    intro hin
    obtain ⟨a, ha, hak⟩ := List.mem_map.mp hin
    have heq : a = cursor :=
      List.inj_on_of_nodup_map hn (List.mem_of_mem_filter ha) hmem hak
    have hother := (List.mem_filter.mp ha).2
    rw [heq] at hother
    cases cursor <;> first | cases hset | cases hother
  · intro a ha
    rcases List.mem_append.mp ha with ha | ha
    · exact List.mem_of_mem_filter ha
    · rw [List.mem_singleton.mp ha]
      exact hmem

theorem flushBatch_reads {w w' : Worker} {actions : List StorageAction} {u : Unit}
    (hn : (actions.map StorageAction.key).Nodup) (hs : KeepsReads cfg.checks k P actions)
    (hr : ReadsOnly P (w.data.get k)) (h : flushBatch cfg actions w = .ok u w') :
    ReadsOnly P (w'.data.get k) := by
  unfold flushBatch at h
  split at h
  · exact applyStaggeredActions_reads hn hs hr h
  · exact commitActions_reads hn hs hr h

/-- The held actions of a key are `Set`s of values with `P`. -/
theorem setsOnly_values {held : Table Key StorageAction} (hw : WellKeyed held)
    (hheld : ∀ a, held.get k = some a → ∃ v, a = .set k v ∧ P v) (order : HashOrder) :
    SetsOnly k P (order.values (held.entries.map Prod.snd)) := by
  intro a ha hak
  obtain ⟨k', hk'⟩ := mem_values.mp ha
  rw [← hak, hw k' a hk'] at hheld ⊢
  exact hheld a hk'

theorem flushRemaining_reads {w w' : Worker} {u : Unit} (hw : WellKeyed w.syncBatcher.batchActions)
    (hheld : KeepsReads cfg.checks k P (w.syncBatcher.getBatchActions cfg.order))
    (hr : ReadsOnly P (w.data.get k)) (h : flushRemaining cfg w = .ok u w') :
    ReadsOnly P (w'.data.get k) := by
  unfold flushRemaining at h
  rw [get_bind] at h
  rcases whenM_ok h with ⟨-, hf⟩ | ⟨-, rfl⟩
  · obtain ⟨_, w₁, h₁, h₂⟩ := bind_eq_ok.mp hf
    have hr₁ := applyStaggeredActions_reads (values_nodup hw) hheld hr h₁
    rw [modify_eq_ok.mp h₂]
    exact hr₁
  · exact hr

/-- Merging a `Set` onto anything leaves the `Set`. -/
theorem merge_set {checks : Bool} {prev c : StorageAction} {v : Value}
    (h : prev.merge checks (.set k v) = some c) : c = .set k v := by
  unfold StorageAction.merge at h
  split at h
  · cases h
  · cases prev <;> first | (cases h; rfl) | cases h

/-- Pushing actions that end with the only `Set` of a key leaves that `Set` at the key. -/
theorem mergeAll_set {checks : Bool} {held held' : Table Key StorageAction}
    {l : List StorageAction} {v : Value} (hof : Keyed.of StorageAction.key l k = [.set k v])
    (h : mergeAll checks held l = some held') : held'.get k = some (.set k v) := by
  have hk := Keyed.run_eq_some_iff.mp h k
  rw [hof, Keyed.at_cons] at hk
  cases hm : mergeEffect checks (.set k v) (held.get k) with
  | none => rw [hm] at hk; cases hk
  | some o =>
    rw [hm] at hk
    have ho : o = held'.get k := Option.some.inj hk
    rw [← ho]
    cases hg : held.get k with
    | none => rw [hg] at hm; cases hm; rfl
    | some prev =>
      rw [hg] at hm
      obtain ⟨c, hc, rfl⟩ := Option.map_eq_some_iff.mp hm
      rw [merge_set hc]

end Cursor

/-! ## The blocks' actions -/

section Blocks

variable {ch : Chain} {cfg : Config} {infoKey : Key}

/-- The reducers' keys and the info key are not the cursor key. -/
structure CursorApart (ch : Chain) (cfg : Config) (infoKey : Key) : Prop where
  reducers : ∀ height, ∀ a ∈ ch.storageOps height, a.key ≠ cfg.cursorKey
  info : infoKey ≠ cfg.cursorKey

theorem of_blockOps (h : CursorApart ch cfg infoKey) (height : Nat) (rest : List Byte) :
    Keyed.of StorageAction.key (blockOps ch cfg.cursorKey infoKey height rest) cfg.cursorKey =
      [.set cfg.cursorKey (cursorValue (ch.point height) rest)] := by
  unfold blockOps
  rw [Keyed.of_append, Keyed.of_eq_nil]
  · simp [Keyed.of, StorageAction.key, h.info]
  · intro hmem
    obtain ⟨a, ha, hak⟩ := List.mem_map.mp hmem
    exact h.reducers height a ha hak

theorem cursorHeight_cursorValue {p : Point} (hp : p.height < 2 ^ 64) (rest : List Byte) :
    cursorHeight (cursorValue p rest) = p.height := by
  unfold cursorHeight cursorValue
  rw [List.append_assoc, List.take_left' (by simp)]
  exact Machine.ofBE_toBE 8 p.height (by omega)

/-- A block that sets a key once, to a value it does not hold yet, records an inverse. -/
theorem BlockCommit.setsKey {initial : Option (Option Point)} {point : Point} {k : Key} {v : Value}
    {storageOps : List StorageAction} {before after : Store} {rollback rollback' : Table MetadataKey Value}
    {inverseOps : List StorageAction} (hof : Keyed.of StorageAction.key storageOps k = [.set k v])
    (h : BlockCommit cfg initial point storageOps before after rollback rollback' inverseOps)
    (hne : before.get k ≠ some v) : after.get k = some v ∧ inverseOps ≠ [] := by
  obtain ⟨actions, hactions, happ⟩ := h.actions
  have hn := blockActions_nodup hactions
  obtain ⟨merger, hpush, rfl⟩ := Option.map_eq_some_iff.mp hactions
  rw [SyncBatcher.pushActions_eq_run] at hpush
  obtain ⟨held, hheld, rfl⟩ := Option.map_eq_some_iff.mp hpush
  have hset := mergeAll_set hof hheld
  have hmem : StorageAction.set k v ∈ cfg.order.values (held.entries.map Prod.snd) := mem_values.mpr ⟨_, hset⟩
  rw [applyActions_mutable cfg.checks hn] at happ
  obtain ⟨view, hrun, heq⟩ := Option.map_eq_some_iff.mp happ
  cases heq
  constructor
  · exact (Option.some.inj (Keyed.run_get_of_mem hn hrun hmem)).symm
  · have hinv : ∃ i, (StorageAction.set k v).inverseAt (before.get k) = some i := by
      cases hb : before.get k with
      | none => exact ⟨_, rfl⟩
      | some v' =>
        refine ⟨.set k v', if_neg ?_⟩
        rintro rfl
        exact hne hb
    obtain ⟨i, hi⟩ := hinv
    exact List.ne_nil_of_mem (List.mem_filterMap.mpr ⟨_, hmem, hi⟩)

end Blocks

/-! ## Rollback metadata -/

section Metadata

variable {rollback rollback' : Table MetadataKey Value} {inverseOps : List StorageAction}
  {height : Nat} {hash : BlockHash}

/-- A metadata key after a block is one of the block or was there before. -/
theorem applyStorageRbActions_cases
    (h : applyStorageRbActions rollback inverseOps height hash = some rollback') {k : MetadataKey}
    {v : Value} (hk : rollback'.get k = some v) :
    (k.height = height ∧ k.hash = hash) ∨ rollback.get k = some v := by
  unfold applyStorageRbActions at h
  generalize inverseOps.zipIdx = l at h
  induction l generalizing rollback with
  | nil => cases h; exact Or.inr hk
  | cons e l ih =>
    obtain ⟨action, idx⟩ := e
    rw [List.foldlM_cons] at h
    have hinsert : ∀ x, (rollback.insert ⟨height, hash, idx, action.key⟩ x).get k = some v →
        (k.height = height ∧ k.hash = hash) ∨ rollback.get k = some v := by
      intro x hx
      rw [Table.get_insert] at hx
      split at hx
      · rename_i heq
        rw [heq]
        exact Or.inl ⟨rfl, rfl⟩
      · exact Or.inr hx
    cases action with
    | set k' v' =>
      rcases ih h with hl | hr
      · exact Or.inl hl
      · exact hinsert _ hr
    | delete k' =>
      rcases ih h with hl | hr
      · exact Or.inl hl
      · exact hinsert _ hr
    | _ => cases h

/-- A block with inverses has a metadata key. -/
theorem exists_applyStorageRbActions (hne : inverseOps ≠ [])
    (h : applyStorageRbActions rollback inverseOps height hash = some rollback') :
    ∃ k v, rollback'.get k = some v ∧ k.height = height := by
  unfold applyStorageRbActions at h
  have hl : inverseOps.zipIdx ≠ [] := by
    intro hnil
    apply hne
    exact List.length_eq_zero_iff.mp (by rw [← List.length_zipIdx, hnil]; rfl)
  generalize inverseOps.zipIdx = l at h hl
  induction l generalizing rollback with
  | nil => exact absurd rfl hl
  | cons e l ih =>
    obtain ⟨action, idx⟩ := e
    rw [List.foldlM_cons] at h
    by_cases hnil : l = []
    · subst hnil
      cases action with
      | set k' v' =>
        cases h
        exact ⟨_, v', by rw [Table.get_insert, if_pos rfl], rfl⟩
      | delete k' =>
        cases h
        exact ⟨_, [], by rw [Table.get_insert, if_pos rfl], rfl⟩
      | _ => cases h
    · cases action with
      | set k' v' => exact ih h hnil
      | delete k' => exact ih h hnil
      | _ => cases h

/-- Trimming removes the heights above its bound and nothing else. -/
theorem get_trimmed (rollback : Table MetadataKey Value) (afterHeight : Nat) (k : MetadataKey) :
    ((metadataHeights rollback (· > afterHeight)).reverse.foldl removeHeight rollback).get k =
      if k.height > afterHeight then none else rollback.get k := by
  rw [get_foldl_removeHeight]
  unfold metadataHeights
  by_cases hgt : k.height > afterHeight
  · rw [if_pos hgt]
    split
    · rfl
    · rename_i hnot
      cases hg : rollback.get k with
      | none => rfl
      | some v =>
        refine absurd (List.mem_reverse.mpr (List.mem_dedup.mpr (List.mem_filter.mpr
          ⟨?_, by simpa using hgt⟩))) hnot
        exact List.mem_map.mpr ⟨(k, v), Table.mem_entries.mpr hg, rfl⟩
  · rw [if_neg hgt, if_neg]
    intro hmem
    exact hgt (by simpa using (List.mem_filter.mp (List.mem_dedup.mp (List.mem_reverse.mp hmem))).2)

/-- Keys sort by height first. -/
theorem MetadataKey.height_le_of_lt {k k' : MetadataKey} (h : k < k') : k.height ≤ k'.height := by
  have hlt : k.fields < k'.fields := h
  unfold MetadataKey.fields at hlt
  rcases Prod.Lex.toLex_lt_toLex.mp hlt with hlt | ⟨heq, -⟩
  · exact Nat.le_of_lt hlt
  · exact Nat.le_of_eq heq

/-- The scan's current point is that of the last entry. -/
theorem foldl_fetchStep (l : List (MetadataKey × Value)) (hl : l ≠ []) :
    (l.foldl fetchStep ⟨[], originPoint, []⟩).currentPoint.height = (l.getLast hl).1.height ∧
      ((l.getLast hl).1.height ≠ 0 → ∃ e ∈ l, e.1.height = (l.getLast hl).1.height ∧
        (l.foldl fetchStep ⟨[], originPoint, []⟩).currentPoint.hash = e.1.hash) := by
  induction l using List.reverseRecOn with
  | nil => exact absurd rfl hl
  | append_singleton l e ih =>
    obtain ⟨k, v⟩ := e
    rw [List.foldl_append, List.getLast_append_singleton]
    simp only [List.foldl_cons, List.foldl_nil]
    generalize hs : l.foldl fetchStep ⟨[], originPoint, []⟩ = s at ih ⊢
    unfold fetchStep
    by_cases hk : k.height = s.currentPoint.height
    · simp only [hk, ne_eq, not_true_eq_false, if_false, true_and]
      intro hne
      by_cases hnil : l = []
      · subst hnil
        subst hs
        exact absurd rfl hne
      · obtain ⟨hheight, hhash⟩ := ih hnil
        obtain ⟨e, he, heh, hee⟩ := hhash (by rw [← hheight]; exact hne)
        exact ⟨e, List.mem_append_left _ he, by rw [heh, hheight], hee⟩
    · simp only [ne_eq, hk, not_false_eq_true, if_true, true_and]
      intro _
      exact ⟨(k, v), by simp, rfl, rfl⟩

/-- **The newest point of the persistent buffer.** -/
theorem fetchPersistentBuffer_newest {a : Nat} (ha : 1 ≤ a)
    (hle : ∀ k v, rollback.get k = some v → k.height ≤ a)
    (hhash : ∀ k v, rollback.get k = some v → k.height = a → k.hash = hash)
    (hex : ∃ k v, rollback.get k = some v ∧ k.height = a) :
    ∃ buf actions, fetchPersistentBuffer rollback = some (buf ++ [⟨⟨a, hash⟩, actions⟩]) := by
  obtain ⟨k, v, hkv, hka⟩ := hex
  have hmem := Table.mem_entries.mpr hkv
  have hne : rollback.entries ≠ [] := List.ne_nil_of_mem hmem
  obtain ⟨hheight, hfound⟩ := foldl_fetchStep rollback.entries hne
  have hlast : (rollback.entries.getLast hne).1.height = a := by
    have hin := List.getLast_mem hne
    refine Nat.le_antisymm (hle _ _ (Table.mem_entries.mp hin)) ?_
    -- no entry comes after the last one
    rw [← hka]
    have hsorted := rollback.sorted
    rw [← List.dropLast_append_getLast hne] at hmem hsorted
    rcases List.mem_append.mp hmem with hfirst | hend
    · have hlt := (List.pairwise_append.mp hsorted).2.2 _ hfirst _ (List.mem_singleton.mpr rfl)
      exact MetadataKey.height_le_of_lt hlt
    · exact Nat.le_of_eq (congrArg (fun e => e.1.height) (List.mem_singleton.mp hend))
  rw [hlast] at hheight hfound
  obtain ⟨e, he, hea, heh⟩ := hfound (by omega)
  have hpoint : (rollback.entries.foldl fetchStep ⟨[], originPoint, []⟩).currentPoint = ⟨a, hash⟩ := by
    have hh := hhash _ _ (Table.mem_entries.mp he) hea
    rw [← heh] at hh
    generalize (rollback.entries.foldl fetchStep ⟨[], originPoint, []⟩).currentPoint = p at hheight hh
    obtain ⟨h, g⟩ := p
    cases hheight
    cases hh
    rfl
  have hpos : a ≠ 0 := by omega
  unfold fetchPersistentBuffer
  simp only [hpoint, ne_eq, hpos, not_false_eq_true, if_true]
  rw [if_neg (by simp)]
  exact ⟨_, _, rfl⟩

end Metadata

end DogeIndexer.Polyphony
