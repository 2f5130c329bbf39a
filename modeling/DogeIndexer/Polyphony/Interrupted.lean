import DogeIndexer.Polyphony.Reload

/-!
# An interrupted rollback converges

A rollback undoes its blocks in transactions of their own and then trims the persistent buffer,
so it may fail anywhere in between.  Inverses only set and delete, hence undoing all blocks once
more, or the older ones that the persistent buffer still holds, ends in the same store.

* `undoBlocks_eq_run` — undoing blocks is a run of overwriting updates.
* `rollBack_error` — what a failed rollback leaves behind.
* `Underway` — what failed attempts leave, and from where a rollback still converges:
  `Underway.again` on the same worker, `Underway.restart` after a restart.
-/

set_option autoImplicit false

namespace DogeIndexer.Polyphony

open Effect

/-! ## Where a rollback fails -/

section Failed

variable {cfg : Config} {w w' : Worker}

/-- **What a failed rollback leaves**: some of the blocks undone and the persistent buffer
untouched, or all of them undone and the newest heights trimmed. -/
theorem rollBack_error {unit : StorageActionPayload} {point : Point}
    (h : rollBack cfg unit point w = .error .restart w') :
    ∃ pos, w.rollbackBuffer.position point = some pos ∧ w'.workUnit2pc = some unit ∧
      w'.rollbackBuffer = w.rollbackBuffer ∧ w'.syncBatcher = w.syncBatcher ∧
      ((∃ n ≤ pos, undoBlocks cfg.checks w.data (w.rollbackBuffer.blocks.take n) = some w'.data ∧
          w'.rollback = w.rollback) ∨
        (undoBlocks cfg.checks w.data (w.rollbackBuffer.blocks.take pos) = some w'.data ∧
          ∃ done, done <+: (metadataHeights w.rollback (· > point.height)).reverse ∧
            w'.rollback = done.foldl removeHeight w.rollback)) := by
  unfold rollBack at h
  rw [modify_bind, get_bind] at h
  rcases bind_eq_error.mp h with h | ⟨points, w₁, h₁, h₂⟩
  · cases (orPanic_error h).1
  obtain ⟨hpoints, rfl⟩ := orPanic_ok h₁
  obtain ⟨pos, hpos, rfl⟩ := Option.map_eq_some_iff.mp hpoints
  refine ⟨pos, hpos, ?_⟩
  have hle : pos ≤ w.rollbackBuffer.blocks.length :=
    Nat.le_of_lt (List.findIdx?_eq_some_iff_getElem.mp hpos).1
  rcases bind_eq_error.mp h₂ with h | ⟨_, w₂, h₃, h₄⟩
  · obtain ⟨done, p, rest, data, f, hsplit, hundo, rfl⟩ := forM_commit_error h
    refine ⟨rfl, rfl, rfl, Or.inl ⟨done.length, ?_, ?_, rfl⟩⟩
    · have hlen := congrArg List.length hsplit
      rw [List.length_take, List.length_append, Nat.min_eq_left hle] at hlen
      omega
    · have htake : w.rollbackBuffer.blocks.take done.length = done := by
        have hpre : done <+: w.rollbackBuffer.blocks :=
          (List.prefix_append done (p :: rest)).trans (hsplit ▸ List.take_prefix pos _)
        exact (List.prefix_iff_eq_take.mp hpre).symm
      rw [htake]
      exact hundo
  obtain ⟨data, f₁, hundo, rfl⟩ := forM_commit_ok h₃
  rcases bind_eq_error.mp h₄ with h | ⟨_, w₃, h₅, h₆⟩
  · have hrecord : ∃ faults, w' = { w with
        workUnit2pc := some unit, data := data, faults := faults } := by
      unfold whenM at h
      split at h
      · obtain ⟨f, rfl⟩ := recordTimestamp_error h
        exact ⟨f, rfl⟩
      · exact absurd h pure_ne_error
    obtain ⟨f, rfl⟩ := hrecord
    exact ⟨rfl, rfl, rfl, Or.inl ⟨pos, Nat.le_refl _, hundo, rfl⟩⟩
  have hrecord : ∃ registered faults, w₃ = { w with
      workUnit2pc := some unit, data := data, registered := registered, faults := faults } := by
    rcases whenM_ok h₅ with ⟨-, hr⟩ | ⟨-, rfl⟩
    · obtain ⟨registered, f, rfl⟩ := recordTimestamp_ok hr
      exact ⟨registered, f, rfl⟩
    · exact ⟨_, _, rfl⟩
  obtain ⟨registered, f₂, rfl⟩ := hrecord
  rcases bind_eq_error.mp h₆ with h | ⟨_, w₄, h₇, h₈⟩
  · unfold trimPersistentRollbackMetadata at h
    rw [get_bind] at h
    obtain ⟨done, f, hprefix, rfl⟩ := removeHeights_error h
    exact ⟨rfl, rfl, rfl, Or.inr ⟨hundo, done, hprefix, rfl⟩⟩
  · -- past the trimming only a missing point fails, by panicking
    rw [modify_bind, get_bind] at h₈
    rcases bind_eq_error.mp h₈ with h | ⟨_, w₅, -, h₁₀⟩
    · cases (orPanic_error h).1
    · exact absurd h₁₀ modify_ne_error

end Failed

/-! ## Undoing blocks again -/

/-- The inverse actions of a list of blocks, in the order in which they are applied. -/
def undoActions (l : List Buffered) : List StorageAction := l.flatMap (fun b => b.result.reverse)

theorem undoActions_append (l l' : List Buffered) : undoActions (l ++ l') = undoActions l ++ undoActions l' :=
  List.flatMap_append

section Undo

variable {checks : Bool} {l pre : List Buffered} {d d₁ d' : Store}

/-- Undoing blocks is one run of updates. -/
theorem undoBlocks_eq_run (hl : ∀ b ∈ l, Invertible b.result) :
    undoBlocks checks d l = Keyed.run StorageAction.key (StorageAction.effect checks) d (undoActions l) := by
  induction l generalizing d with
  | nil => rfl
  | cons b l ih =>
    have hn : (b.result.reverse.map StorageAction.key).Nodup := by
      rw [List.map_reverse]
      exact List.nodup_reverse.mpr (hl b List.mem_cons_self).nodup
    rw [undoActions, List.flatMap_cons, Keyed.run_append, undoBlocks, List.foldlM_cons,
      applyActions_bulk checks hn, Option.map_map]
    cases Keyed.run StorageAction.key (StorageAction.effect checks) d b.result.reverse with
    | none => rfl
    | some d₁ => exact ih (fun c hc => hl c (List.mem_cons_of_mem _ hc))

theorem undoActions_overwrites (hl : ∀ b ∈ l, Invertible b.result) :
    Keyed.Overwrites (StorageAction.effect checks) (undoActions l) := by
  intro a ha
  obtain ⟨b, hb, hab⟩ := List.mem_flatMap.mp ha
  have hinv := (hl b hb).inverses a (List.mem_reverse.mp hab)
  cases a with
  | set k v => exact ⟨some v, fun _ => rfl⟩
  | delete k => exact ⟨none, fun _ => rfl⟩
  | _ => cases hinv

/-- Blocks with stored inverses can always be undone. -/
theorem exists_undoBlocks (checks : Bool) (hl : ∀ b ∈ l, Invertible b.result) (d : Store) :
    ∃ d', undoBlocks checks d l = some d' := by
  rw [undoBlocks_eq_run hl]
  exact (undoActions_overwrites hl).exists_run d

/-- **Starting over after some of the blocks were undone** ends in the same store. -/
theorem undoBlocks_again (hl : ∀ b ∈ l, Invertible b.result) (hpre : pre <+: l)
    (hfirst : undoBlocks checks d pre = some d₁) (hall : undoBlocks checks d l = some d') :
    undoBlocks checks d₁ l = some d' := by
  rw [undoBlocks_eq_run hl] at hall ⊢
  rw [undoBlocks_eq_run (fun b hb => hl b (hpre.subset hb))] at hfirst
  refine (undoActions_overwrites hl).run_absorb ?_ hfirst hall
  obtain ⟨rest, rfl⟩ := hpre
  intro k hk
  rw [undoActions_append, List.map_append]
  exact List.mem_append_left _ hk

/-- **Undoing the oldest of the undone blocks once more** changes nothing. -/
theorem undoBlocks_tail (hl : ∀ b ∈ l, Invertible b.result) (n : Nat)
    (hall : undoBlocks checks d l = some d') : undoBlocks checks d' (l.drop n) = some d' := by
  have hdrop : ∀ b ∈ l.drop n, Invertible b.result := fun b hb => hl b (List.mem_of_mem_drop hb)
  rw [undoBlocks_eq_run hl, ← List.take_append_drop n l, undoActions_append] at hall
  rw [undoBlocks_eq_run hdrop]
  exact (undoActions_overwrites hdrop).run_repeat hall

theorem isFilled_of_isInverse {a : StorageAction} (h : a.isInverse = true) : a.isFilled = true := by
  cases a with
  | set k v => exact h
  | delete k => rfl
  | _ => cases h

/-- Undoing blocks leaves no empty value. -/
theorem undoBlocks_filled (hl : ∀ b ∈ l, Invertible b.result) (hd : FilledStore d)
    (h : undoBlocks checks d l = some d') : FilledStore d' := by
  rw [undoBlocks_eq_run hl] at h
  refine Keyed.run_forall (P := ReadsOnly (· ≠ [])) (fun a ha o o' ho heff => ?_) h hd
  obtain ⟨b, hb, hab⟩ := List.mem_flatMap.mp ha
  exact effect_filled (isFilled_of_isInverse ((hl b hb).inverses a (List.mem_reverse.mp hab))) ho heff

end Undo

/-! ## A partly trimmed buffer -/

theorem dedup_blockHeights (b : Buffered) (hb : b.result ≠ []) (l : List Nat) (hl : b.point.height ∉ l) :
    (((blockEntries b).map (fun e => e.1.height)) ++ l).dedup = b.point.height :: l.dedup := by
  have hrep : (blockEntries b).map (fun e => e.1.height) = List.replicate b.result.length b.point.height := by
    refine List.eq_replicate_iff.mpr ⟨by simp [blockEntries], ?_⟩
    intro h hh
    obtain ⟨e, he, rfl⟩ := List.mem_map.mp hh
    exact height_of_mem_blockEntries he
  rw [hrep]
  obtain ⟨a, rest, hres⟩ := List.exists_cons_of_ne_nil hb
  rw [hres, List.length_cons]
  induction rest.length with
  | zero => exact List.dedup_cons_of_notMem hl
  | succ n ih =>
    rw [List.replicate_succ, List.cons_append, List.dedup_cons_of_mem (by simp [List.replicate_succ])]
    exact ih

/-- The heights of the stored points, oldest first. -/
theorem metadataHeights_stored {rollback : Table MetadataKey Value} {stack : List Buffered}
    (h : Stored rollback stack) (P : Nat → Bool) :
    metadataHeights rollback P =
      ((stack.filter (fun b => P b.point.height)).map (fun b => b.point.height)).reverse := by
  unfold metadataHeights
  rw [List.filter_map, h.entries]
  have hcomp : (P ∘ fun e : MetadataKey × Value => e.1.height) = fun e => P e.1.height := rfl
  rw [hcomp, flatMap_filter_height, List.filter_reverse, ← List.map_reverse]
  have hasc : (stack.filter (fun b => P b.point.height)).reverse.Pairwise
      (fun a b => a.point.height < b.point.height) :=
    List.pairwise_reverse.mpr (h.descending.sublist List.filter_sublist)
  have hne : ∀ b ∈ (stack.filter (fun b => P b.point.height)).reverse, b.result ≠ [] :=
    fun b hb => (h.invertible b (List.mem_of_mem_filter (List.mem_reverse.mp hb))).nonempty
  generalize (stack.filter (fun b => P b.point.height)).reverse = l at hasc hne
  induction l with
  | nil => rfl
  | cons b l ih =>
    obtain ⟨hb, hasc⟩ := List.pairwise_cons.mp hasc
    rw [List.flatMap_cons, List.map_append, List.map_cons,
      dedup_blockHeights b (hne b List.mem_cons_self), ih hasc (fun c hc => hne c (List.mem_cons_of_mem _ hc))]
    intro hmem
    obtain ⟨e, he, heh⟩ := List.mem_map.mp hmem
    obtain ⟨c, hc, hec⟩ := List.mem_flatMap.mp he
    have hlt := hb c hc
    rw [height_of_mem_blockEntries hec] at heh
    omega

/-- Trimming newest first, a failure leaves the older points. -/
theorem Stored.trimmed {rollback : Table MetadataKey Value} {stack : List Buffered} {afterHeight : Nat}
    {done : List Nat} (h : Stored rollback stack)
    (hdone : done <+: (metadataHeights rollback (· > afterHeight)).reverse) :
    ∃ n, n ≤ (stack.filter (fun b => b.point.height > afterHeight)).length ∧
      Stored (done.foldl removeHeight rollback) (stack.drop n) := by
  rw [metadataHeights_stored h, List.reverse_reverse] at hdone
  have habove : ∃ m, stack.filter (fun b => b.point.height > afterHeight) = stack.take m := by
    have hcut := filter_eq_takeWhile (afterHeight + 1) h.descending
    exact ⟨_, hcut ▸ List.prefix_iff_eq_take.mp (List.takeWhile_prefix _)⟩
  obtain ⟨m, hm⟩ := habove
  have hlen : done.length ≤ (stack.filter (fun b => b.point.height > afterHeight)).length := by
    simpa using hdone.length_le
  refine ⟨done.length, hlen, ?_⟩
  have hheights : done = (stack.take done.length).map (fun b => b.point.height) := by
    have hle : done.length ≤ m := by
      rw [hm, List.length_take] at hlen
      omega
    conv_lhs => rw [List.prefix_iff_eq_take.mp hdone, hm, ← List.map_take, List.take_take,
      Nat.min_eq_left hle]
  have hfilter := h.filter (done.foldl removeHeight rollback) (fun n => n ∉ done) (fun k => by
    rw [get_foldl_removeHeight]
    by_cases hk : k.height ∈ done <;> simp [hk])
  have hsplit : stack.filter (fun b => b.point.height ∉ done) = stack.drop done.length := by
    have hd := h.descending
    rw [← List.take_append_drop done.length stack] at hd
    conv_lhs => rw [← List.take_append_drop done.length stack]
    rw [List.filter_append]
    have hnew : (stack.take done.length).filter (fun b => b.point.height ∉ done) = [] := by
      refine List.filter_eq_nil_iff.mpr (fun b hb => ?_)
      have hin : b.point.height ∈ done := by
        rw [hheights]
        exact List.mem_map.mpr ⟨b, hb, rfl⟩
      simp [hin]
    have hold : (stack.drop done.length).filter (fun b => b.point.height ∉ done) = stack.drop done.length := by
      refine List.filter_eq_self.mpr (fun b hb => ?_)
      have hout : b.point.height ∉ done := by
        rw [hheights]
        intro hin
        obtain ⟨c, hc, hcb⟩ := List.mem_map.mp hin
        have hlt := (List.pairwise_append.mp hd).2.2 c hc b hb
        omega
      simp [hout]
    rw [hnew, hold, List.nil_append]
  rw [hsplit] at hfilter
  exact hfilter

/-! ## Convergence -/

/-- Failed attempts at a unit, each rescheduled to the same worker. -/
inductive Rescheduled (cfg : Config) (unit : StorageActionPayload) (w : Worker) : Worker → Prop
  | first : Rescheduled cfg unit w w
  | again {v v' : Worker} (faults : List Bool) (h : Rescheduled cfg unit w v)
      (hfail : execute cfg unit { v with faults := faults } = .error .restart v') :
      Rescheduled cfg unit w v'

section Converge

variable {cfg : Config} {w v : Worker} {p : Point} {stack : List Buffered} {pos : Nat}
  {data : Store} {mutable : Bool}

/-- A rollback without failing calls. -/
theorem rollBack_completes (mutable : Bool) (hf : v.faults = []) (hpos : v.rollbackBuffer.position p = some pos)
    (hundo : undoBlocks cfg.checks v.data (v.rollbackBuffer.blocks.take pos) = some data) :
    ∃ v', execute cfg (.rollBack p mutable) v = .ok () v' ∧ v'.data = data ∧
      ∀ k, v'.rollback.get k = if k.height > p.height then none else v.rollback.get k := by
  obtain ⟨v', hv'⟩ := rollBack_of_nil (w := { v with mutable := v.mutable || mutable }) hf
    (.rollBack p mutable) hpos hundo
  obtain ⟨pos', hpos', hundo', -, -, -, -, hrb⟩ := rollBack_ok hv'
  have hsame : pos' = pos := Option.some.inj (hpos'.symm.trans hpos)
  subst hsame
  rw [hundo] at hundo'
  refine ⟨v', hv', (Option.some.inj hundo').symm, fun k => ?_⟩
  rw [hrb]
  exact get_trimmed v.rollback p.height k

theorem not_mem_of_trimmed {rollback : Table MetadataKey Value} {done : List Nat} {height h : Nat}
    (hdone : done <+: (metadataHeights rollback (· > height)).reverse) (hh : h ≤ height) : h ∉ done := by
  intro hmem
  have hin := List.mem_reverse.mp (hdone.subset hmem)
  have hgt := (List.mem_filter.mp (List.mem_dedup.mp hin)).2
  simp only [decide_eq_true_eq] at hgt
  omega

/-- A point found in a live buffer, with the stored points that match it. -/
structure Found (size : Nat) (w : Worker) (p : Point) (pos : Nat) (stack : List Buffered) : Prop where
  points : Points size w.rollback w.rollbackBuffer stack
  position : w.rollbackBuffer.position p = some pos

namespace Found

variable {size : Nat}

theorem block (h : Found size w p pos stack) :
    ∃ a, w.rollbackBuffer.blocks[pos]? = some a ∧ a.point = p := by
  obtain ⟨hlen, hpoint, -⟩ := List.findIdx?_eq_some_iff_getElem.mp h.position
  exact ⟨_, List.getElem?_eq_getElem hlen, by simpa using hpoint⟩

theorem take_eq (h : Found size w p pos stack) : w.rollbackBuffer.blocks.take pos = stack.take pos := by
  obtain ⟨hlen, -⟩ := List.findIdx?_eq_some_iff_getElem.mp h.position
  exact h.points.matched.take_eq hlen

/-- The blocks above the point can be undone. -/
theorem invertible (h : Found size w p pos stack) :
    ∀ b ∈ w.rollbackBuffer.blocks.take pos, Invertible b.result := by
  rw [h.take_eq]
  exact fun b hb => h.points.stored.invertible b (List.mem_of_mem_take hb)

/-- Of the stored points from an index on, at most those before the point are above it. -/
theorem length_filter_le (h : Found size w p pos stack) {j : Nat} (hj : j ≤ pos) :
    j + ((stack.drop j).filter (fun b => b.point.height > p.height)).length ≤ pos := by
  obtain ⟨a, ha, hpoint⟩ := h.block
  have hfilter : (stack.drop j).filter (fun b => b.point.height > p.height) =
      ((stack.drop j).take (pos - j)).filter (fun b => b.point.height > p.height) := by
    conv_lhs => rw [← List.take_append_drop (pos - j) (stack.drop j), List.filter_append]
    refine List.append_right_eq_self.mpr (List.filter_eq_nil_iff.mpr (fun b hb => ?_))
    obtain ⟨i, hi⟩ := List.mem_iff_getElem?.mp hb
    rw [List.getElem?_drop, List.getElem?_drop] at hi
    have hle := (h.points.height_le_iff ha hi).mpr (by omega)
    rw [hpoint] at hle
    simp only [decide_eq_true_eq]
    omega
  rw [hfilter]
  have hfirst := List.length_filter_le (fun b : Buffered => decide (b.point.height > p.height))
    ((stack.drop j).take (pos - j))
  have htake := List.length_take_le (pos - j) (stack.drop j)
  omega

end Found

/-- A worker whose attempts have failed so far: undoing the blocks from its store leads where it
would have led at first, and the metadata has lost at most points above the one to return to. -/
structure Underway (cfg : Config) (w v : Worker) (p : Point) (pos : Nat) (stack : List Buffered)
    (data : Store) : Prop where
  buffer : v.rollbackBuffer = w.rollbackBuffer
  batcher : v.syncBatcher = w.syncBatcher
  undo : undoBlocks cfg.checks v.data (v.rollbackBuffer.blocks.take pos) = some data
  metadata : ∀ k : MetadataKey, k.height ≤ p.height → v.rollback.get k = w.rollback.get k
  stored : ∃ j ≤ pos, Stored v.rollback (stack.drop j)
  filled : FilledStore v.data

namespace Underway

variable {size : Nat}

theorem first (hw : Found size w p pos stack) (hfilled : FilledStore w.data)
    (hundo : undoBlocks cfg.checks w.data (w.rollbackBuffer.blocks.take pos) = some data) :
    Underway cfg w w p pos stack data :=
  ⟨rfl, rfl, hundo, fun _ _ => rfl, ⟨0, Nat.zero_le _, hw.points.stored⟩, hfilled⟩

/-- **A failed attempt leaves the rollback under way**, with all blocks undone when it has begun to
trim. -/
theorem fail {v' : Worker} {faults : List Bool} (h : Underway cfg w v p pos stack data)
    (hw : Found size w p pos stack)
    (hfail : execute cfg (.rollBack p mutable) { v with faults := faults } = .error .restart v') :
    Underway cfg w v' p pos stack data ∧ v'.workUnit2pc = some (.rollBack p mutable) ∧
      (v'.rollback = v.rollback ∨ v'.data = data) := by
  rw [execute_back] at hfail
  obtain ⟨pos', hpos', h2pc, hbuf, hbatch, hcases⟩ := rollBack_error hfail
  have hsame : pos' = pos := by
    simp only [h.buffer] at hpos'
    exact Option.some.inj (hpos'.symm.trans hw.position)
  subst hsame
  have hinv := hw.invertible
  have hundo := h.undo
  rw [h.buffer] at hundo
  simp only [h.buffer] at hcases
  rcases hcases with ⟨n, hn, hpart, hrb⟩ | ⟨hall, done, hdone, hrb⟩
  · have hprefix : w.rollbackBuffer.blocks.take n <+: w.rollbackBuffer.blocks.take pos' :=
      List.take_prefix_take_left hn
    refine ⟨⟨hbuf.trans h.buffer, hbatch.trans h.batcher, ?_, ?_, ?_, ?_⟩, h2pc, Or.inl hrb⟩
    · rw [hbuf]
      simp only [h.buffer]
      exact undoBlocks_again hinv hprefix hpart hundo
    · rw [hrb]
      exact h.metadata
    · rw [hrb]
      exact h.stored
    · exact undoBlocks_filled (fun b hb => hinv b (List.IsPrefix.subset hprefix hb)) h.filled hpart
  · have hdata : v'.data = data := Option.some.inj (hall.symm.trans hundo)
    refine ⟨⟨hbuf.trans h.buffer, hbatch.trans h.batcher, ?_, ?_, ?_, ?_⟩, h2pc, Or.inr hdata⟩
    · rw [hbuf]
      simp only [h.buffer]
      exact undoBlocks_again hinv (List.prefix_refl _) hall hundo
    · intro k hk
      rw [hrb, get_foldl_removeHeight, if_neg (not_mem_of_trimmed hdone hk)]
      exact h.metadata k hk
    · obtain ⟨j, hj, hs⟩ := h.stored
      obtain ⟨n, hn, hs'⟩ := hs.trimmed hdone
      rw [List.drop_drop] at hs'
      refine ⟨j + n, ?_, by rw [hrb]; exact hs'⟩
      have := hw.length_filter_le hj
      omega
    · exact undoBlocks_filled hinv h.filled hall

/-- **Executing the unit again** on the same worker. -/
theorem again (h : Underway cfg w v p pos stack data) (hw : Found size w p pos stack) (mutable : Bool) :
    ∃ v', execute cfg (.rollBack p mutable) { v with faults := [] } = .ok () v' ∧ v'.data = data ∧
      ∀ k, v'.rollback.get k = if k.height > p.height then none else v.rollback.get k :=
  rollBack_completes (v := { v with faults := [] }) mutable rfl (by rw [h.buffer]; exact hw.position) h.undo

/-- The points above a stored point in a buffer reloaded after the newest `j` were trimmed. -/
theorem reloaded_position (hw : Found cfg.bufferSize w p pos stack) (hne : p ≠ originPoint) (intersect : Option Point)
    {j : Nat} (hj : j ≤ pos) (hs : Stored v.rollback (stack.drop j)) :
    (restarted cfg v intersect).rollbackBuffer.position p = some (pos - j) ∧
      (restarted cfg v intersect).rollbackBuffer.blocks.take (pos - j) =
        (w.rollbackBuffer.blocks.take pos).drop j := by
  obtain ⟨a, ha, hpoint⟩ := hw.block
  have hlen : pos < w.rollbackBuffer.blocks.length := (List.getElem?_eq_some_iff.mp ha).1
  have hshort := hw.points.short
  have hblocks : (restarted cfg v intersect).rollbackBuffer.blocks = (stack.drop j).take cfg.bufferSize := by
    rw [restarted_buffer cfg intersect hs (fun c hc => hw.points.positive c (List.mem_of_mem_drop hc))]
  have hget : ∀ i, j + i ≤ pos →
      (restarted cfg v intersect).rollbackBuffer.blocks[i]? = stack[j + i]? := by
    intro i hi
    rw [hblocks, List.getElem?_take, if_pos (by omega), List.getElem?_drop]
  rcases hw.points.matched.stored_point ha with ⟨horigin, -⟩ | ⟨b, hb, hbp, -⟩
  · exact absurd (hpoint ▸ horigin) hne
  constructor
  · unfold RollbackBuffer.position
    have hat := hget (pos - j) (by omega)
    rw [show j + (pos - j) = pos by omega, hb] at hat
    obtain ⟨hlt, hatb⟩ := List.getElem?_eq_some_iff.mp hat
    refine List.findIdx?_eq_some_iff_getElem.mpr ⟨hlt, ?_, ?_⟩
    · simp only [hatb, hbp, hpoint, decide_true]
    · -- the points before it are higher
      intro i hi
      have hc := hget i (by omega)
      rw [List.getElem?_eq_getElem (by omega)] at hc
      have hle := hw.points.height_le_iff ha hc.symm
      simp only [decide_eq_true_eq]
      intro heq
      rw [heq, hpoint] at hle
      have := hle.mp (Nat.le_refl _)
      omega
  · rw [hblocks, List.take_take, Nat.min_eq_left (by omega), hw.take_eq, List.drop_take]

/-- **Restarting the process** leads to the same data, from the points that the persistent buffer still
holds: all of them, or the older ones of a store in which every block was undone. -/
theorem restart (h : Underway cfg w v p pos stack data) (hw : Found cfg.bufferSize w p pos stack)
    (hne : p ≠ originPoint) (mutable : Bool) (hstate : v.rollback = w.rollback ∨ v.data = data)
    (intersect : Option Point) :
    ∃ v', execute cfg (.rollBack p mutable) (restarted cfg v intersect) = .ok () v' ∧ v'.data = data ∧
      ∀ k, v'.rollback.get k = if k.height > p.height then none else v.rollback.get k := by
  have hundo := h.undo
  rw [h.buffer] at hundo
  rcases hstate with hrb | hdata
  · have hs : Stored v.rollback (stack.drop 0) := by
      rw [hrb]
      exact hw.points.stored
    obtain ⟨hposition, hblocks⟩ := reloaded_position hw hne intersect (Nat.zero_le _) hs
    refine rollBack_completes mutable rfl hposition ?_
    rw [hblocks, List.drop_zero]
    exact hundo
  · obtain ⟨j, hj, hs⟩ := h.stored
    obtain ⟨hposition, hblocks⟩ := reloaded_position hw hne intersect hj hs
    refine rollBack_completes mutable rfl hposition ?_
    rw [hblocks]
    show undoBlocks cfg.checks v.data _ = _
    rw [← hdata] at hundo ⊢
    exact undoBlocks_tail hw.invertible j hundo

end Underway

end Converge

/-! ## Attempts -/

section Attempts

variable {cfg : Config} {w v v' : Worker} {p : Point} {stack : List Buffered} {pos : Nat} {data : Store}
  {mutable : Bool} {live : Point → Prop}

theorem Rescheduled.underway {size : Nat} (h : Rescheduled cfg (.rollBack p mutable) w v)
    (hw : Found size w p pos stack) (hfirst : Underway cfg w w p pos stack data) :
    Underway cfg w v p pos stack data := by
  induction h with
  | first => exact hfirst
  | again faults _ hfail ih => exact (ih.fail hw hfail).1

/-- A buffered point is found among the stored ones. -/
theorem Kept.found (h : Kept cfg live stack w) (hpos : w.rollbackBuffer.position p = some pos) :
    Found cfg.bufferSize w p pos stack := by
  cases h.held with
  | nothing _ _ hnil =>
    unfold RollbackBuffer.position at hpos
    rw [hnil] at hpos
    cases hpos
  | points _ hp => exact ⟨hp, hpos⟩

/-- Attempts at a rollback to a buffered point, from the first on. -/
theorem Kept.underway (h : Kept cfg live stack w) (hpos : w.rollbackBuffer.position p = some pos)
    (hv : Rescheduled cfg (.rollBack p mutable) w v) : ∃ data, Underway cfg w v p pos stack data := by
  have hw := h.found hpos
  obtain ⟨data, hundo⟩ := exists_undoBlocks cfg.checks hw.invertible w.data
  exact ⟨data, hv.underway hw (Underway.first hw h.sound.filled hundo)⟩

theorem Rescheduled.buffer (h : Rescheduled cfg (.rollBack p mutable) w v) :
    v.rollbackBuffer = w.rollbackBuffer ∧ (v = w ∨ ∃ pos, w.rollbackBuffer.position p = some pos) := by
  induction h with
  | first => exact ⟨rfl, Or.inl rfl⟩
  | @again v v' faults _ hfail ih =>
    rw [execute_back] at hfail
    obtain ⟨pos, hpos, -, hbuf, -⟩ := rollBack_error hfail
    simp only at hpos hbuf
    rw [ih.1] at hpos
    exact ⟨hbuf.trans ih.1, Or.inr ⟨pos, hpos⟩⟩

/-- **A rollback** that completes after any number of attempts keeps the invariant. -/
theorem Kept.back (h : Kept cfg live stack w) (hv : Rescheduled cfg (.rollBack p mutable) w v)
    {faults : List Bool} (hexec : execute cfg (.rollBack p mutable) { v with faults := faults } = .ok () v') :
    ∃ stack', Kept cfg live stack' v' := by
  rw [execute_back] at hexec
  obtain ⟨pos, hpos, hundo, hbuffer, hbatch, -, -, hrb⟩ := rollBack_ok hexec
  simp only [hv.buffer.1] at hpos hundo hbuffer
  have hw := h.found hpos
  obtain ⟨data, hunder⟩ := h.underway hpos hv
  obtain ⟨a, ha, hpoint⟩ := hw.block
  have hlen := (List.getElem?_eq_some_iff.mp ha).1
  have hget : ∀ k, v'.rollback.get k = if k.height > a.point.height then none else w.rollback.get k := by
    intro k
    rw [hrb, get_trimmed, hpoint]
    split
    · rfl
    · exact hunder.metadata k (by omega)
  have hsize : 0 < cfg.bufferSize := Nat.lt_of_lt_of_le (Nat.zero_lt_of_lt hlen) hw.points.short
  refine ⟨stack.drop pos, .points hsize ?_, fun b hb => ?_, fun hnil => ?_, ?_⟩
  · rw [hbuffer]
    exact hw.points.back ha hget
  · rw [hbuffer] at hb
    exact h.blocks b (List.mem_of_mem_drop hb)
  · rw [hbuffer] at hnil
    simp only [List.drop_eq_nil_iff] at hnil
    omega
  · rw [hbatch]
    simp only [hunder.batcher]
    exact ⟨undoBlocks_filled hw.invertible hunder.filled hundo, h.sound.wellKeyed, h.sound.pending⟩

/-- **The process restarts** after any number of attempts. -/
theorem Kept.restartAfter (h : Kept cfg live stack w) (hlive : ∀ q : Point, 1 ≤ q.height → live q)
    (hv : Rescheduled cfg (.rollBack p mutable) w v) {intersect : Option Point}
    (hint : ∀ q, intersect = some q → 1 ≤ q.height) : ∃ stack', Kept cfg live stack' (restarted cfg v intersect) := by
  rcases hv.buffer.2 with rfl | ⟨pos, hpos⟩
  · refine ⟨stack, Kept.restart hlive h.sound.filled (fun hsize => ?_) hint⟩
    cases h.held with
    | nothing hzero _ _ => omega
    | points _ hp => exact ⟨hp.stored, hp.positive⟩
  · have hw := h.found hpos
    obtain ⟨data, hunder⟩ := h.underway hpos hv
    obtain ⟨j, -, hs⟩ := hunder.stored
    exact ⟨stack.drop j, Kept.restart hlive hunder.filled
      (fun _ => ⟨hs, fun b hb => hw.points.positive b (List.mem_of_mem_drop hb)⟩) hint⟩

end Attempts

end DogeIndexer.Polyphony
