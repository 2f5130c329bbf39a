import DogeIndexer.Polyphony.Cursor

/-!
# The persistent rollback buffer

The inverses of a mutable block are written as metadata keys, an empty value standing for a
delete, and read back by `fetch_persistent_buffer`.

* `Stored` — the metadata table holds a list of buffered points.
* `fetchPersistentBuffer_of_stored` — reading the table back gives that list.
* `Stored.push`, `Stored.filter` — writing a block, collecting and trimming.
-/

set_option autoImplicit false

namespace DogeIndexer.Polyphony

open Effect

/-! ## Inverse actions -/

/-- Inverses are sets of a value or deletes. -/
def StorageAction.isInverse : StorageAction → Bool
  | .set _ v => v ≠ []
  | .delete _ => true
  | _ => false

/-- A buffered point with its inverse actions. -/
abbrev Buffered := PointWithResult (List StorageAction)

/-- What can be written to the persistent buffer and read back. -/
structure Invertible (actions : List StorageAction) : Prop where
  nonempty : actions ≠ []
  inverses : ∀ a ∈ actions, a.isInverse = true
  nodup : (actions.map StorageAction.key).Nodup

/-! ## The metadata of a block -/

/-- Value is nil if the inverse action deletes the key, otherwise the overwritten value. -/
def metadataValue : StorageAction → Value
  | .set _ v => v
  | _ => []

def metadataEntry (p : Point) (e : StorageAction × Nat) : MetadataKey × Value :=
  (⟨p.height, p.hash, e.2, e.1.key⟩, metadataValue e.1)

/-- The metadata keys of a block, in key order. -/
def blockEntries (b : Buffered) : List (MetadataKey × Value) := b.result.zipIdx.map (metadataEntry b.point)

/-- The table holds the given points, newest first. -/
structure Stored (rollback : Table MetadataKey Value) (stack : List Buffered) : Prop where
  entries : rollback.entries = stack.reverse.flatMap blockEntries
  descending : stack.Pairwise (fun a b => b.point.height < a.point.height)
  invertible : ∀ b ∈ stack, Invertible b.result

theorem stored_empty : Stored Table.empty [] :=
  ⟨rfl, List.Pairwise.nil, fun _ hb => absurd hb List.not_mem_nil⟩

theorem height_of_mem_blockEntries {b : Buffered} {e : MetadataKey × Value} (h : e ∈ blockEntries b) :
    e.1.height = b.point.height := by
  obtain ⟨x, -, rfl⟩ := List.mem_map.mp h
  rfl

theorem mem_height {rollback : Table MetadataKey Value} {stack : List Buffered} (h : Stored rollback stack)
    {e : MetadataKey × Value} (he : e ∈ rollback.entries) : ∃ b ∈ stack, e.1.height = b.point.height := by
  rw [h.entries] at he
  obtain ⟨b, hb, heb⟩ := List.mem_flatMap.mp he
  exact ⟨b, List.mem_reverse.mp hb, height_of_mem_blockEntries heb⟩

/-! ## Writing a block -/

theorem MetadataKey.lt_of_height_lt {k k' : MetadataKey} (h : k.height < k'.height) : k < k' := by
  show k.fields < k'.fields
  exact Prod.Lex.toLex_lt_toLex.mpr (Or.inl h)

theorem MetadataKey.lt_of_index_lt {p : Point} {i j : Nat} {k k' : Key} (h : i < j) :
    (⟨p.height, p.hash, i, k⟩ : MetadataKey) < ⟨p.height, p.hash, j, k'⟩ := by
  show MetadataKey.fields _ < MetadataKey.fields _
  refine Prod.Lex.toLex_lt_toLex.mpr (Or.inr ⟨rfl, ?_⟩)
  refine Prod.Lex.toLex_lt_toLex.mpr (Or.inr ⟨rfl, ?_⟩)
  exact Prod.Lex.toLex_lt_toLex.mpr (Or.inl h)

/-- Inverses above every key of the table are appended to its entries. -/
theorem applyStorageRbActions_entries {rollback : Table MetadataKey Value} {p : Point}
    {actions : List StorageAction} (hinv : ∀ a ∈ actions, a.isInverse = true)
    (hlow : ∀ e ∈ rollback.entries, e.1.height < p.height) :
    ∃ rollback', applyStorageRbActions rollback actions p.height p.hash = some rollback' ∧
      rollback'.entries = rollback.entries ++ blockEntries ⟨p, actions⟩ := by
  unfold applyStorageRbActions blockEntries
  have hbound : ∀ e ∈ rollback.entries, ∀ k, e.1 < ⟨p.height, p.hash, 0, k⟩ :=
    fun e he k => MetadataKey.lt_of_height_lt (hlow e he)
  clear hlow
  -- the index at which the actions start grows along the list
  generalize 0 = n at hbound ⊢
  induction actions generalizing rollback n with
  | nil => exact ⟨rollback, rfl, by simp⟩
  | cons a actions ih =>
    have hlast := Table.entries_insert_last (t := rollback) (metadataValue a) (fun e he => hbound e he a.key)
    have hbound' : ∀ e ∈ (rollback.insert ⟨p.height, p.hash, n, a.key⟩ (metadataValue a)).entries,
        ∀ k, e.1 < ⟨p.height, p.hash, n + 1, k⟩ := by
      intro e he k
      rw [hlast] at he
      rcases List.mem_append.mp he with he | he
      · exact lt_trans (hbound e he k) (MetadataKey.lt_of_index_lt (Nat.lt_succ_self n))
      · rw [List.mem_singleton.mp he]
        exact MetadataKey.lt_of_index_lt (Nat.lt_succ_self n)
    obtain ⟨rollback', hrun, hentries⟩ := ih (fun b hb => hinv b (List.mem_cons_of_mem _ hb)) (n + 1) hbound'
    refine ⟨rollback', ?_, ?_⟩
    · rw [List.zipIdx_cons, List.foldlM_cons]
      have ha := hinv a List.mem_cons_self
      cases a <;> first | exact hrun | cases ha
    · rw [hentries, hlast, List.zipIdx_cons]
      simp [metadataEntry]

/-- **Writing the inverses of a block above all stored points.** -/
theorem Stored.push {rollback rollback' : Table MetadataKey Value} {stack : List Buffered} {b : Buffered}
    (h : Stored rollback stack) (hinv : Invertible b.result)
    (hlow : ∀ a ∈ stack, a.point.height < b.point.height)
    (hrun : applyStorageRbActions rollback b.result b.point.height b.point.hash = some rollback') :
    Stored rollback' (b :: stack) := by
  have hbelow : ∀ e ∈ rollback.entries, e.1.height < b.point.height := by
    intro e he
    obtain ⟨a, ha, hea⟩ := mem_height h he
    rw [hea]
    exact hlow a ha
  obtain ⟨rollback₁, hrun₁, hentries⟩ := applyStorageRbActions_entries hinv.inverses hbelow
  rw [hrun] at hrun₁
  cases hrun₁
  refine ⟨?_, List.pairwise_cons.mpr ⟨hlow, h.descending⟩, ?_⟩
  · rw [hentries, h.entries, List.reverse_cons, List.flatMap_append]
    simp
  · intro a ha
    rcases List.mem_cons.mp ha with rfl | ha
    · exact hinv
    · exact h.invertible a ha

/-! ## Removing heights -/

theorem flatMap_filter_height (P : Nat → Bool) (l : List Buffered) :
    (l.flatMap blockEntries).filter (fun e => P e.1.height) =
      (l.filter (fun b => P b.point.height)).flatMap blockEntries := by
  induction l with
  | nil => rfl
  | cons b l ih =>
    rw [List.flatMap_cons, List.filter_append, ih, List.filter_cons]
    have hall : ∀ e ∈ blockEntries b, P e.1.height = P b.point.height :=
      fun e he => congrArg P (height_of_mem_blockEntries he)
    cases hP : P b.point.height with
    | true =>
      rw [List.filter_eq_self.mpr (fun e he => by rw [hall e he, hP]), if_pos rfl, List.flatMap_cons]
    | false =>
      rw [List.filter_eq_nil_iff.mpr (fun e he => by rw [hall e he, hP]; simp)]
      simp

/-- **Removing the keys of some heights removes their points.** -/
theorem Stored.filter {rollback : Table MetadataKey Value} {stack : List Buffered} (h : Stored rollback stack)
    (rollback' : Table MetadataKey Value) (P : Nat → Bool)
    (hget : ∀ k, rollback'.get k = if P k.height then rollback.get k else none) :
    Stored rollback' (stack.filter (fun b => P b.point.height)) := by
  have heq : rollback' = rollback.filter (fun k _ => P k.height) := by
    refine Table.ext_get (fun k => ?_)
    rw [hget, Table.get_filter]
    cases rollback.get k <;> cases P k.height <;> rfl
  refine ⟨?_, h.descending.sublist List.filter_sublist, fun b hb => h.invertible b (List.mem_of_mem_filter hb)⟩
  rw [heq, ← List.filter_reverse, ← flatMap_filter_height, ← h.entries]
  rfl

/-! ## Reading back -/

/-- An inverse read back from its metadata. -/
theorem readBack_inverse {a : StorageAction} (h : a.isInverse = true) :
    (if (metadataValue a).isEmpty then StorageAction.delete a.key else .set a.key (metadataValue a)) = a := by
  cases a with
  | set k v =>
    have hv : v ≠ [] := by simpa [StorageAction.isInverse] using h
    simp [metadataValue, StorageAction.key, hv]
  | delete k => rfl
  | _ => cases h

/-- Reading more keys of the current point. -/
theorem foldl_fetchStep_same {p : Point} {buf : List Buffered} {actions : List StorageAction}
    (l : List (StorageAction × Nat)) (hinv : ∀ e ∈ l, e.1.isInverse = true) :
    (l.map (metadataEntry p)).foldl fetchStep ⟨buf, p, actions⟩ = ⟨buf, p, actions ++ l.map Prod.fst⟩ := by
  induction l generalizing actions with
  | nil => simp
  | cons e l ih =>
    have hread := readBack_inverse (hinv e List.mem_cons_self)
    have hstep : fetchStep ⟨buf, p, actions⟩ (metadataEntry p e) = ⟨buf, p, actions ++ [e.1]⟩ := by
      unfold fetchStep metadataEntry
      simp only [ne_eq, not_true_eq_false, if_false]
      rw [hread]
    rw [List.map_cons, List.foldl_cons, hstep, ih (fun e' he' => hinv e' (List.mem_cons_of_mem _ he'))]
    simp

/-- What has been read when the keys of a point are exhausted. -/
def FetchState.finish (s : FetchState) : List Buffered :=
  if s.currentPoint.height ≠ 0 then s.persistentBuf ++ [⟨s.currentPoint, s.actions⟩] else s.persistentBuf

/-- Reading the keys of a new point. -/
theorem foldl_fetchStep_block {s : FetchState} {b : Buffered} (hinv : Invertible b.result)
    (hne : b.point.height ≠ s.currentPoint.height) :
    (blockEntries b).foldl fetchStep s = ⟨s.finish, b.point, b.result⟩ := by
  unfold blockEntries
  have hzip : ∀ e ∈ b.result.zipIdx, e.1.isInverse = true := by
    rintro ⟨a, i⟩ he
    exact hinv.inverses a (List.fst_mem_of_mem_zipIdx he)
  have hfst : b.result.zipIdx.map Prod.fst = b.result := List.zipIdx_map_fst 0 b.result
  cases hz : b.result.zipIdx with
  | nil =>
    rw [hz] at hfst
    exact absurd hfst.symm hinv.nonempty
  | cons e l =>
    rw [hz] at hzip hfst
    have hread := readBack_inverse (hzip e List.mem_cons_self)
    have hstep : fetchStep s (metadataEntry b.point e) = ⟨s.finish, b.point, [e.1]⟩ := by
      unfold fetchStep metadataEntry FetchState.finish
      simp only [ne_eq, hne, not_false_eq_true, if_true]
      rw [hread]
      rfl
    rw [List.map_cons, List.foldl_cons, hstep,
      foldl_fetchStep_same l (fun e' he' => hzip e' (List.mem_cons_of_mem _ he')), ← hfst]
    rfl

/-- Reading a list of points with ascending heights, oldest first. -/
theorem foldl_fetchStep_blocks (l : List Buffered) (s : FetchState)
    (hpos : ∀ b ∈ l, s.currentPoint.height < b.point.height)
    (hasc : l.Pairwise (fun a b => a.point.height < b.point.height)) (hinv : ∀ b ∈ l, Invertible b.result) :
    ((l.flatMap blockEntries).foldl fetchStep s).finish = s.finish ++ l := by
  induction l generalizing s with
  | nil => simp
  | cons b l ih =>
    obtain ⟨hb, hasc⟩ := List.pairwise_cons.mp hasc
    have hlt := hpos b List.mem_cons_self
    rw [List.flatMap_cons, List.foldl_append,
      foldl_fetchStep_block (hinv b List.mem_cons_self) (by omega),
      ih _ hb hasc (fun c hc => hinv c (List.mem_cons_of_mem _ hc))]
    have hne : b.point.height ≠ 0 := by omega
    simp [FetchState.finish, hne]

/-- **Reading the persistent buffer back.** -/
theorem fetchPersistentBuffer_of_stored {rollback : Table MetadataKey Value} {stack : List Buffered}
    (h : Stored rollback stack) (hpos : ∀ b ∈ stack, 1 ≤ b.point.height) :
    (fetchPersistentBuffer rollback).getD [] = stack.reverse := by
  have hread := foldl_fetchStep_blocks stack.reverse ⟨[], originPoint, []⟩
    (fun b hb => hpos b (List.mem_reverse.mp hb)) (List.pairwise_reverse.mpr h.descending)
    (fun b hb => h.invertible b (List.mem_reverse.mp hb))
  rw [← h.entries] at hread
  have hfinish : FetchState.finish ⟨[], originPoint, []⟩ = [] := rfl
  rw [hfinish, List.nil_append] at hread
  unfold fetchPersistentBuffer
  show (if (FetchState.finish (rollback.entries.foldl fetchStep ⟨[], originPoint, []⟩)).isEmpty then none
    else some (FetchState.finish (rollback.entries.foldl fetchStep ⟨[], originPoint, []⟩))).getD [] = _
  rw [hread]
  split
  · rename_i hempty
    rw [List.isEmpty_iff.mp hempty]
    rfl
  · rfl

end DogeIndexer.Polyphony
