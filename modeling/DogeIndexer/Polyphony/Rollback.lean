import DogeIndexer.Polyphony.Worker

/-!
# Rollback restores the store

The inverses recorded for a mutable block undo it, so that undoing the blocks above a point of
the rollback buffer, newest first, gives back the store that the point's block had left.

* `undo_applyActions` — the inverses of a block, in reverse order, restore the store.
* `Linked` — the invariant: the buffer's entries undo the standing applications one by one.
* `rollBack_restores` — over every run of mutable blocks and rollbacks.
-/

set_option autoImplicit false

namespace DogeIndexer.Polyphony

open Effect

/-! ## One block -/

/-- The inverse recorded at a reading leads back to it. -/
theorem inverseAt_restores {checks : Bool} {a : StorageAction} {o o' : Option Value}
    (h : a.effectWithInverse checks o = some o') :
    match a.inverseAt o with
    | some i => i.key = a.key ∧ i.effect checks o' = some o
    | none => o' = o := by
  cases a with
  | set k v =>
    cases h
    cases o with
    | none => exact ⟨rfl, rfl⟩
    | some p =>
      simp only [StorageAction.inverseAt]
      split
      · rename_i heq
        split at heq
        · cases heq
        · cases heq
          exact ⟨rfl, rfl⟩
      · rename_i heq
        split at heq
        · rename_i hpv
          rw [hpv]
        · cases heq
  | delete k =>
    cases h
    cases o with
    | none => rfl
    | some p => exact ⟨rfl, rfl⟩
  | insert k v =>
    cases h
    cases o with
    | none => exact ⟨rfl, rfl⟩
    | some p => rfl
  | incrementU64 k d => cases o <;> exact ⟨rfl, rfl⟩
  | incrementU128 k d => cases o <;> exact ⟨rfl, rfl⟩
  | decrementU64 k d =>
    cases o with
    | none => cases h; rfl
    | some p => exact ⟨rfl, rfl⟩
  | decrementU128 k d =>
    cases o with
    | none => cases h; rfl
    | some p => exact ⟨rfl, rfl⟩
  | decrementU128NoDelete k d =>
    cases o with
    | none => cases h; rfl
    | some p => exact ⟨rfl, rfl⟩

theorem inverseAt_key {a i : StorageAction} {o : Option Value} (h : a.inverseAt o = some i) :
    i.key = a.key := by
  cases a <;> cases o <;> simp only [StorageAction.inverseAt] at h <;>
    first
      | (cases h; done)
      | (cases h; rfl)
      | (split at h <;> first | (cases h; done) | (cases h; rfl))

/-- Inverses of distinct keys have distinct keys. -/
theorem inverses_nodup {l : List StorageAction} {g : StorageAction → Option Value}
    (hn : (l.map StorageAction.key).Nodup) :
    ((l.filterMap (fun a => a.inverseAt (g a))).map StorageAction.key).Nodup := by
  induction l with
  | nil => exact List.nodup_nil
  | cons a l ih =>
    simp only [List.map_cons, List.nodup_cons] at hn
    rw [List.filterMap_cons]
    cases hi : a.inverseAt (g a) with
    | none => exact ih hn.2
    | some i =>
      simp only [List.map_cons, List.nodup_cons]
      refine ⟨?_, ih hn.2⟩
      intro hmem
      obtain ⟨j, hj, hjk⟩ := List.mem_map.mp hmem
      obtain ⟨b, hb, hbj⟩ := List.mem_filterMap.mp hj
      apply hn.1
      rw [← inverseAt_key hi, ← hjk, inverseAt_key hbj]
      exact List.mem_map.mpr ⟨b, hb, rfl⟩

/-- **The inverses of a block, in reverse order, restore the store.** -/
theorem undo_applyActions {checks : Bool} {before after : Store} {l inverses : List StorageAction}
    (hn : (l.map StorageAction.key).Nodup)
    (h : applyActions checks before l true = some (after, some inverses)) :
    applyActions checks after inverses.reverse false = some (before, none) := by
  rw [applyActions_mutable checks hn] at h
  obtain ⟨view, hrun, heq⟩ := Option.map_eq_some_iff.mp h
  cases heq
  have hni := inverses_nodup (g := fun a => before.get a.key) hn
  have hnr : ((l.filterMap (fun a => a.inverseAt (before.get a.key))).reverse.map
      StorageAction.key).Nodup := by
    rw [List.map_reverse]
    exact List.nodup_reverse.mpr hni
  rw [applyActions_bulk checks hnr]
  have hback : Keyed.run StorageAction.key (StorageAction.effect checks) after
      (l.filterMap (fun a => a.inverseAt (before.get a.key))).reverse = some before := by
    refine Keyed.run_eq_some_iff.mpr (fun k => ?_)
    by_cases hk : k ∈ l.map StorageAction.key
    · obtain ⟨a, ha, rfl⟩ := List.mem_map.mp hk
      have hrest := inverseAt_restores (Keyed.run_get_of_mem hn hrun ha)
      cases hi : a.inverseAt (before.get a.key) with
      | some i =>
        rw [hi] at hrest
        have hmem : i ∈ (l.filterMap (fun a => a.inverseAt (before.get a.key))).reverse :=
          List.mem_reverse.mpr (List.mem_filterMap.mpr ⟨a, ha, hi⟩)
        rw [← hrest.1, Keyed.of_eq_singleton hnr hmem, Keyed.at_cons, hrest.1, hrest.2]
        rfl
      | none =>
        rw [hi] at hrest
        -- no other action has this key, so no inverse does
        have hnone : a.key ∉ ((l.filterMap
            (fun a => a.inverseAt (before.get a.key))).reverse).map StorageAction.key := by
          intro hmem
          obtain ⟨j, hj, hjk⟩ := List.mem_map.mp hmem
          obtain ⟨b, hb, hbj⟩ := List.mem_filterMap.mp (List.mem_reverse.mp hj)
          have hab : b = a := List.inj_on_of_nodup_map hn hb ha (by rw [← inverseAt_key hbj, hjk])
          rw [hab, hi] at hbj
          cases hbj
        rw [Keyed.of_eq_nil hnone, hrest]
        rfl
    · have hnone : k ∉ ((l.filterMap
          (fun a => a.inverseAt (before.get a.key))).reverse).map StorageAction.key := by
        intro hmem
        obtain ⟨j, hj, hjk⟩ := List.mem_map.mp hmem
        obtain ⟨b, hb, hbj⟩ := List.mem_filterMap.mp (List.mem_reverse.mp hj)
        apply hk
        rw [← hjk, inverseAt_key hbj]
        exact List.mem_map.mpr ⟨b, hb, rfl⟩
      rw [Keyed.of_eq_nil hnone, Keyed.run_get_of_notMem hrun hk]
      rfl
  rw [hback]
  rfl

theorem BlockCommit.undo {cfg : Config} {initial : Option (Option Point)} {point : Point}
    {storageOps inverseOps : List StorageAction} {before after : Store}
    {rollback rollback' : Table MetadataKey Value}
    (h : BlockCommit cfg initial point storageOps before after rollback rollback' inverseOps) :
    applyActions cfg.checks after inverseOps.reverse false = some (before, none) := by
  obtain ⟨actions, hactions, happ⟩ := h.actions
  exact undo_applyActions (blockActions_nodup hactions) happ

/-! ## The rollback unit -/

/-- Undo of a list of blocks, newest first. -/
def undoBlocks (checks : Bool) (data : Store) (points : List (PointWithResult (List StorageAction))) :
    Option Store :=
  points.foldlM (fun d p => (applyActions checks d p.result.reverse false).map Prod.fst) data

section RollBack

variable {cfg : Config} {w w' : Worker}

/-- **A completed rollback.** -/
theorem rollBack_ok {unit : StorageActionPayload} {point : Point} {u : Unit}
    (h : rollBack cfg unit point w = .ok u w') :
    ∃ pos, w.rollbackBuffer.position point = some pos ∧
      undoBlocks cfg.checks w.data (w.rollbackBuffer.blocks.take pos) = some w'.data ∧
      w'.rollbackBuffer = { w.rollbackBuffer with blocks := w.rollbackBuffer.blocks.drop pos } ∧
      w'.syncBatcher = w.syncBatcher ∧ w'.lastProcessed = some point ∧ w'.mutable = w.mutable ∧
      w'.rollback = (metadataHeights w.rollback (· > point.height)).reverse.foldl
        removeHeight w.rollback := by
  unfold rollBack at h
  rw [modify_bind, get_bind] at h
  obtain ⟨points, w₁, h₁, h₂⟩ := bind_eq_ok.mp h
  obtain ⟨hpoints, rfl⟩ := orPanic_ok h₁
  obtain ⟨pos, hpos, rfl⟩ := Option.map_eq_some_iff.mp hpoints
  obtain ⟨_, w₂, h₃, h₄⟩ := bind_eq_ok.mp h₂
  obtain ⟨data, faults, hdata, rfl⟩ := forM_commit_ok h₃
  obtain ⟨_, w₃, h₅, h₆⟩ := bind_eq_ok.mp h₄
  have hrecord : ∃ registered faults, w₃ = { w with
      workUnit2pc := some unit, data := data, registered := registered, faults := faults } := by
    rcases whenM_ok h₅ with ⟨-, hr⟩ | ⟨-, rfl⟩
    · obtain ⟨registered, f, rfl⟩ := recordTimestamp_ok hr
      exact ⟨registered, f, rfl⟩
    · exact ⟨_, _, rfl⟩
  obtain ⟨registered, f₁, rfl⟩ := hrecord
  obtain ⟨_, w₄, h₇, h₈⟩ := bind_eq_ok.mp h₆
  obtain ⟨f₂, rfl⟩ := trim_ok h₇
  rw [modify_bind, get_bind] at h₈
  obtain ⟨⟨_, buffer⟩, w₅, h₉, h₁₀⟩ := bind_eq_ok.mp h₈
  obtain ⟨hbuf, rfl⟩ := orPanic_ok h₉
  rw [modify_eq_ok.mp h₁₀]
  simp only [RollbackBuffer.rollbackToPoint] at hbuf
  rw [show w.rollbackBuffer.position point = some pos from hpos, Option.map_some] at hbuf
  cases hbuf
  exact ⟨pos, hpos, hdata, rfl, rfl, rfl, rfl, rfl⟩

/-! ### Without failing calls a rollback completes -/

theorem call_of_nil (hf : w.faults = []) : call w = .ok () w := by
  unfold call
  rw [hf]

theorem commitActions_of_nil (hf : w.faults = []) {actions : List StorageAction} {view : Store}
    {r : Option (List StorageAction)}
    (h : applyActions cfg.checks w.data actions false = some (view, r)) :
    commitActions cfg actions w = .ok () { w with data := view } := by
  refine bind_eq_ok.mpr ⟨(), w, call_of_nil hf, ?_⟩
  rw [get_bind]
  refine bind_eq_ok.mpr ⟨(view, r), w, by rw [h]; rfl, ?_⟩
  exact bind_eq_ok.mpr ⟨(), w, call_of_nil hf, rfl⟩

theorem forM_of_nil {α : Type} {f : α → Exec Unit} {P : Worker → Prop}
    (hstep : ∀ a v, P v → ∃ v', f a v = .ok () v' ∧ P v') {l : List α} {v : Worker} (hv : P v) :
    ∃ v', l.forM f v = .ok () v' ∧ P v' := by
  induction l generalizing v with
  | nil => exact ⟨v, rfl, hv⟩
  | cons a l ih =>
    obtain ⟨v₁, h₁, hp₁⟩ := hstep a v hv
    obtain ⟨v₂, h₂, hp₂⟩ := ih hp₁
    exact ⟨v₂, bind_eq_ok.mpr ⟨(), v₁, h₁, h₂⟩, hp₂⟩

/-- Transactions one after another. -/
theorem forM_commit_of_nil {α : Type} {f : α → List StorageAction} {l : List α} {data : Store}
    (hf : w.faults = [])
    (h : l.foldlM (fun d a => (applyActions cfg.checks d (f a) false).map Prod.fst) w.data = some data) :
    l.forM (fun a => commitActions cfg (f a)) w = .ok () { w with data := data } := by
  induction l generalizing w with
  | nil =>
    cases h
    rfl
  | cons a l ih =>
    rw [List.foldlM_cons] at h
    obtain ⟨d, hd, hrest⟩ := Option.bind_eq_some_iff.mp h
    obtain ⟨⟨view, r⟩, happ, rfl⟩ := Option.map_eq_some_iff.mp hd
    exact bind_eq_ok.mpr ⟨(), _, commitActions_of_nil hf happ, ih (w := { w with data := view }) hf hrest⟩

theorem updateRegistryScores_of_nil (cfg : Config) (hf : w.faults = []) :
    updateRegistryScores cfg w = .ok () w := by
  obtain ⟨v, hv, rfl⟩ := forM_of_nil (P := fun v => v = w) (f := fun _ : Nat => call)
    (l := List.range cfg.instanceNames) (fun _ v hv => ⟨v, by rw [hv]; exact call_of_nil hf, hv⟩) rfl
  exact hv

theorem maybeAdvertise_of_nil (cfg : Config) (hf : w.faults = []) :
    ∃ registered, maybeAdvertise cfg w = .ok () { w with registered := registered } := by
  unfold maybeAdvertise
  rw [get_bind]
  split
  · exact ⟨w.registered, updateRegistryScores_of_nil cfg hf⟩
  · split
    · exact ⟨w.registered, rfl⟩
    · exact ⟨true, bind_eq_ok.mpr ⟨(), w, updateRegistryScores_of_nil cfg hf, rfl⟩⟩

theorem recordTimestamp_of_nil (cfg : Config) (hf : w.faults = []) :
    ∃ registered, recordTimestamp cfg w = .ok () { w with registered := registered } := by
  obtain ⟨registered, hr⟩ := maybeAdvertise_of_nil cfg hf
  refine ⟨registered, bind_eq_ok.mpr ⟨(), w, ?_, bind_eq_ok.mpr ⟨(), w, call_of_nil hf,
    bind_eq_ok.mpr ⟨(), w, call_of_nil hf, hr⟩⟩⟩⟩
  unfold whenM
  split
  · exact call_of_nil hf
  · rfl

theorem removeHeights_of_nil (hf : w.faults = []) (heights : List Nat) :
    ∃ rollback, removeHeights heights w = .ok () { w with rollback := rollback } := by
  obtain ⟨v, hv, rollback, rfl⟩ := forM_of_nil (P := fun v => ∃ rollback, v = { w with rollback := rollback })
    (f := fun height => do
      call
      modify fun w => { w with rollback := removeHeight w.rollback height })
    (l := heights) (fun height v => by
      rintro ⟨rollback, rfl⟩
      exact ⟨_, bind_eq_ok.mpr ⟨(), _, call_of_nil hf, rfl⟩, _, rfl⟩) ⟨w.rollback, rfl⟩
  exact ⟨rollback, bind_eq_ok.mpr ⟨(), w, call_of_nil hf, hv⟩⟩

theorem rollBack_of_nil (hf : w.faults = []) (unit : StorageActionPayload) {point : Point} {pos : Nat}
    {data : Store} (hpos : w.rollbackBuffer.position point = some pos)
    (hundo : undoBlocks cfg.checks w.data (w.rollbackBuffer.blocks.take pos) = some data) :
    ∃ w', rollBack cfg unit point w = .ok () w' := by
  unfold rollBack
  rw [modify_bind, get_bind]
  have hloop := forM_commit_of_nil (w := { w with workUnit2pc := some unit }) hf hundo
  obtain ⟨registered, hrec⟩ := recordTimestamp_of_nil cfg
    (w := { w with workUnit2pc := some unit, data := data }) hf
  have hwhen : ∃ registered, whenM (!(w.rollbackBuffer.blocks.take pos).isEmpty) (recordTimestamp cfg)
      { w with workUnit2pc := some unit, data := data } =
        .ok () { w with workUnit2pc := some unit, data := data, registered := registered } := by
    unfold whenM
    split
    · exact ⟨registered, hrec⟩
    · exact ⟨w.registered, rfl⟩
  obtain ⟨registered, hwhen⟩ := hwhen
  obtain ⟨rollback, htrim⟩ := removeHeights_of_nil
    (w := { w with workUnit2pc := some unit, data := data, registered := registered }) hf
    (metadataHeights w.rollback (· > point.height)).reverse
  refine ⟨{ w with
    data := data, registered := registered, rollback := rollback, workUnit2pc := none,
    lastProcessed := some point,
    rollbackBuffer := { w.rollbackBuffer with blocks := w.rollbackBuffer.blocks.drop pos } }, ?_⟩
  refine bind_eq_ok.mpr ⟨_, _, ?_, bind_eq_ok.mpr ⟨(), _, hloop,
    bind_eq_ok.mpr ⟨(), _, hwhen, bind_eq_ok.mpr ⟨(), _, htrim, ?_⟩⟩⟩⟩
  · simp only [RollbackBuffer.pointsSince]
    rw [hpos, Option.map_some]
    rfl
  · rw [modify_bind, get_bind]
    show (orPanic (w.rollbackBuffer.rollbackToPoint point) >>= _) _ = _
    rw [RollbackBuffer.rollbackToPoint, hpos]
    rfl

end RollBack

/-! ## Runs -/

/-- The applications of mutable blocks that no rollback has undone, newest first, each with the
store right after it. -/
abbrev Log := List (Point × Store)

/-- The store right after the block of `p` was last applied. -/
def lastApplied (log : Log) (p : Point) : Option Store :=
  (log.find? (fun e => e.1 = p)).map Prod.snd

/-- Mutable blocks and rollbacks to applied points that are still in the buffer. -/
inductive Run (cfg : Config) (w₀ : Worker) : Worker → Log → Prop
  | start : Run cfg w₀ w₀ []
  | forward {w w' : Worker} {log : Log} {p : Point} {ops : List StorageAction}
      {mutable mempool : Bool} (hrun : Run cfg w₀ w log) (hmut : (w.mutable || mutable) = true)
      (hexec : execute cfg (.rollForward p ops mutable mempool) w = .ok () w') :
      Run cfg w₀ w' ((p, w'.data) :: log)
  | back {w w' : Worker} {log : Log} {p : Point} {mutable : Bool} (hrun : Run cfg w₀ w log)
      (hlog : p ∈ log.map Prod.fst) (hbuf : (w.rollbackBuffer.position p).isSome)
      (hexec : execute cfg (.rollBack p mutable) w = .ok () w') :
      Run cfg w₀ w' (log.dropWhile (fun e => e.1 ≠ p))

/-- The buffer's newest entries are the newest applications, and each undoes its own: from the
store it left to the store the one before it left. -/
def Linked (checks : Bool) : Store → List (PointWithResult (List StorageAction)) → Log → Prop
  | _, [], _ => True
  | _, _ :: _, [] => True
  | d, b :: bs, (p, s) :: log => b.point = p ∧ s = d ∧
      ∃ d', (applyActions checks d b.result.reverse false).map Prod.fst = some d' ∧
        Linked checks d' bs log

theorem Linked.take {checks : Bool} {d : Store} {bs : List (PointWithResult (List StorageAction))}
    {log : Log} (h : Linked checks d bs log) (n : Nat) : Linked checks d (bs.take n) log := by
  induction bs generalizing d log n with
  | nil => rw [List.take_nil]; exact trivial
  | cons b bs ih =>
    cases n with
    | zero => exact trivial
    | succ n =>
      cases log with
      | nil => exact trivial
      | cons e log =>
        obtain ⟨hp, hs, d', happ, hrest⟩ := h
        exact ⟨hp, hs, d', happ, ih hrest n⟩

/-- An applied point found in the buffer is found among the linked entries. -/
theorem Linked.mem_take {checks : Bool} {d : Store} {bs : List (PointWithResult (List StorageAction))}
    {log : Log} {p : Point} (h : Linked checks d bs log) (hlog : p ∈ log.map Prod.fst)
    (hbuf : (bs.findIdx? (fun b => b.point = p)).isSome) :
    p ∈ (log.take bs.length).map Prod.fst := by
  induction bs generalizing d log with
  | nil => cases hbuf
  | cons b bs ih =>
    cases log with
    | nil => cases hlog
    | cons e log =>
      obtain ⟨hp, -, d', -, hrest⟩ := h
      simp only [List.length_cons, List.take_succ_cons, List.map_cons, List.mem_cons] at hlog ⊢
      rcases hlog with rfl | hlog
      · exact Or.inl rfl
      · by_cases hbp : b.point = p
        · exact Or.inl (hbp ▸ hp)
        · refine Or.inr (ih hrest hlog ?_)
          rw [List.findIdx?_cons, if_neg (by simpa using hbp)] at hbuf
          simpa using hbuf

/-- **Undoing down to a linked point** reaches the store that its block had left. -/
theorem Linked.rollBack {checks : Bool} {d : Store} {bs : List (PointWithResult (List StorageAction))}
    {log : Log} {p : Point} (h : Linked checks d bs log)
    (hp : p ∈ (log.take bs.length).map Prod.fst) :
    ∃ pos d' log', bs.findIdx? (fun b => b.point = p) = some pos ∧
      undoBlocks checks d (bs.take pos) = some d' ∧
      (bs.drop pos).head?.map PointWithResult.point = some p ∧
      log.dropWhile (fun e => e.1 ≠ p) = (p, d') :: log' ∧ log.drop pos = (p, d') :: log' ∧
      lastApplied log p = some d' ∧ Linked checks d' (bs.drop pos) ((p, d') :: log') := by
  induction bs generalizing d log with
  | nil => simp at hp
  | cons b bs ih =>
    cases log with
    | nil => simp at hp
    | cons e log =>
      obtain ⟨q, s⟩ := e
      obtain ⟨hbq, rfl, d₁, happ, hrest⟩ := h
      by_cases hqp : q = p
      · subst hqp
        refine ⟨0, s, log, ?_, rfl, by simp [hbq], by simp, rfl, by simp [lastApplied],
          ⟨hbq, rfl, d₁, happ, hrest⟩⟩
        rw [List.findIdx?_cons, if_pos (by simpa using hbq)]
      · have hp' : p ∈ (log.take bs.length).map Prod.fst := by
          simp only [List.length_cons, List.take_succ_cons, List.map_cons, List.mem_cons] at hp
          exact hp.resolve_left (Ne.symm hqp)
        obtain ⟨pos, d', log', hpos, hundo, hhead, hdrop, hskip, hlast, hlinked⟩ := ih hrest hp'
        refine ⟨pos + 1, d', log', ?_, ?_, hhead, ?_, hskip, ?_, hlinked⟩
        · rw [List.findIdx?_cons, if_neg (by rw [hbq]; simpa using hqp), hpos]
          rfl
        · simp only [List.take_succ_cons, undoBlocks, List.foldlM_cons, happ]
          exact hundo
        · simpa [List.dropWhile_cons, hqp] using hdrop
        · simpa [lastApplied, List.find?_cons, hqp] using hlast

/-- What holds along a run. -/
structure Linkage (cfg : Config) (w : Worker) (log : Log) : Prop where
  linked : Linked cfg.checks w.data w.rollbackBuffer.blocks log
  batcher : log ≠ [] → w.syncBatcher.isEmpty = true
  buffer : log ≠ [] → w.rollbackBuffer.blocks = [] → w.rollbackBuffer.size = 0

section Steps

variable {cfg : Config} {w w' : Worker} {log : Log} {p : Point}

/-- **A mutable block extends the linkage.** -/
theorem Linkage.forward (h : Linkage cfg w log) {unit : StorageActionPayload}
    {ops : List StorageAction} (hexec : rollForwardMutable cfg unit p ops w = .ok () w') :
    Linkage cfg w' ((p, w'.data) :: log) := by
  obtain ⟨before, rollback, inverseOps, hcommit, -, hbuf, hbatch, hbefore, -⟩ :=
    rollForwardMutable_ok hexec
  have hundo := hcommit.undo
  -- below the new entry stands the old buffer, with the initial point when it was empty
  have hbelow : ∀ bs, bs = w.rollbackBuffer.blocks ∨ w.rollbackBuffer.blocks = [] ∧
      (log = [] ∨ bs = []) → Linked cfg.checks before bs log := by
    intro bs hbs
    cases log with
    | nil => cases bs <;> exact trivial
    | cons e log =>
      rcases hbs with rfl | ⟨-, hbs⟩
      · rw [hbefore (h.batcher (by simp))]
        exact h.linked
      · rw [hbs.resolve_left (by simp)]
        exact trivial
  refine ⟨?_, fun _ => hbatch, ?_⟩
  · rw [hbuf]
    unfold bufferAfter
    refine Linked.take ?_ _
    refine ⟨rfl, rfl, before, by rw [hundo]; rfl, ?_⟩
    split
    · rename_i hempty
      have hnil : w.rollbackBuffer.blocks = [] := by
        simpa [RollbackBuffer.isEmpty] using hempty
      refine hbelow _ (Or.inr ⟨hnil, ?_⟩)
      by_cases hlog : log = []
      · exact Or.inl hlog
      · refine Or.inr ?_
        simp only [RollbackBuffer.addBlock, h.buffer hlog hnil, List.take_zero]
    · exact hbelow _ (Or.inl rfl)
  · intro _ hnil
    have hsize : w'.rollbackBuffer.size = w.rollbackBuffer.size := by
      rw [hbuf]
      unfold bufferAfter
      split <;> rfl
    rw [hsize]
    rw [hbuf] at hnil
    unfold bufferAfter at hnil
    simp only [RollbackBuffer.addBlock, List.take_eq_nil_iff, reduceCtorEq, or_false] at hnil
    split at hnil <;> exact hnil

/-- **A rollback keeps the linkage**, restores the store and brings the point to the front. -/
theorem Linkage.back (h : Linkage cfg w log) {unit : StorageActionPayload}
    (hlog : p ∈ log.map Prod.fst) (hbuf : (w.rollbackBuffer.position p).isSome)
    (hexec : rollBack cfg unit p w = .ok () w') :
    Linkage cfg w' (log.dropWhile (fun e => e.1 ≠ p)) ∧
      (log.dropWhile (fun e => e.1 ≠ p)).head? = some (p, w'.data) ∧
      (∀ pos, w.rollbackBuffer.position p = some pos →
        log.drop pos = log.dropWhile (fun e => e.1 ≠ p)) ∧
      lastApplied log p = some w'.data ∧
      w'.rollbackBuffer.latest.map PointWithResult.point = some p := by
  obtain ⟨pos, hpos, hundo, hbuffer, hbatch, -⟩ := rollBack_ok hexec
  obtain ⟨pos', d', log', hpos', hundo', hhead, hdrop, hskip, hlast, hlinked⟩ :=
    h.linked.rollBack (h.linked.mem_take hlog hbuf)
  have hsame : pos' = pos := by
    rw [RollbackBuffer.position] at hpos
    rw [hpos] at hpos'
    exact (Option.some.inj hpos').symm
  subst hsame
  rw [hundo'] at hundo
  cases hundo
  have hne : log ≠ [] := by
    rintro rfl
    cases hlog
  refine ⟨⟨?_, fun _ => ?_, fun _ hnil => ?_⟩, by rw [hdrop]; rfl, ?_, hlast, ?_⟩
  · rw [hbuffer, hdrop]
    exact hlinked
  · rw [hbatch]
    exact h.batcher hne
  · rw [hbuffer] at hnil
    simp only at hnil
    rw [hnil] at hhead
    cases hhead
  · intro n hn
    rw [hpos] at hn
    cases hn
    rw [hskip, hdrop]
  · rw [RollbackBuffer.latest, hbuffer]
    exact hhead

/-- Setting the sticky flag changes nothing that the linkage speaks of. -/
theorem Linkage.setMutable (h : Linkage cfg w log) (b : Bool) :
    Linkage cfg { w with mutable := b } log :=
  ⟨h.linked, h.batcher, h.buffer⟩

theorem execute_forward_mutable {ops : List StorageAction} {mutable mempool : Bool}
    (hmut : (w.mutable || mutable) = true) :
    execute cfg (.rollForward p ops mutable mempool) w =
      rollForwardMutable cfg (.rollForward p ops mutable mempool) p ops
        { w with mutable := w.mutable || mutable } := by
  unfold execute
  simp only
  rw [modify_bind, get_bind]
  simp only [hmut, Bool.not_true, Bool.false_eq_true, if_false]

theorem execute_back {mutable : Bool} :
    execute cfg (.rollBack p mutable) w =
      rollBack cfg (.rollBack p mutable) p { w with mutable := w.mutable || mutable } := rfl

theorem Run.linkage {w₀ : Worker} (h : Run cfg w₀ w log) : Linkage cfg w log := by
  induction h with
  | start =>
    refine ⟨?_, fun hne => absurd rfl hne, fun hne => absurd rfl hne⟩
    cases w₀.rollbackBuffer.blocks <;> exact trivial
  | forward _ hmut hexec ih =>
    rw [execute_forward_mutable hmut] at hexec
    exact (ih.setMutable _).forward hexec
  | @back w w' log p mutable _ hlog hbuf hexec ih =>
    rw [execute_back] at hexec
    exact ((ih.setMutable (w.mutable || mutable)).back hlog hbuf hexec).1

end Steps

/-- **Rollback restores the store exactly.**  After any run of mutable blocks and rollbacks, a
rollback to an applied point still in the buffer completes (unless a call to the databases
fails), and then the data keys read as right after the point was last applied and the point
is at the front of the buffer. -/
theorem rollBack_restores (cfg : Config) (w₀ w : Worker) (log : Log) (hrun : Run cfg w₀ w log)
    (p : Point) (mutable : Bool) (hlog : p ∈ log.map Prod.fst)
    (hbuf : (w.rollbackBuffer.position p).isSome) :
    (∀ w', execute cfg (.rollBack p mutable) w = .ok () w' →
      lastApplied log p = some w'.data ∧
        w'.rollbackBuffer.latest.map PointWithResult.point = some p) ∧
    (w.faults = [] → ∃ w', execute cfg (.rollBack p mutable) w = .ok () w') := by
  have hlink := hrun.linkage.setMutable (w.mutable || mutable)
  constructor
  · intro w' hexec
    rw [execute_back] at hexec
    exact (hlink.back hlog hbuf hexec).2.2.2
  · intro hf
    obtain ⟨pos, d', log', hpos, hundo, -⟩ := hlink.linked.rollBack (hlink.linked.mem_take hlog hbuf)
    rw [execute_back]
    exact rollBack_of_nil (w := { w with mutable := w.mutable || mutable }) hf _ hpos hundo

/-- A configuration for small runs. -/
def sampleConfig : Config where
  checks := false
  order := .listed
  cursorKey := [0]
  syncBatchSize := 2
  tikvRaftEntryMaxSize := 100
  bufferSize := 3
  cleanupLocks := true
  advertiseImmediately := false
  instanceNames := 1

/-- The worker a unit leads to, whether it completes or not. -/
def workerAfter (cfg : Config) (unit : StorageActionPayload) (w : Worker) : Worker :=
  match execute cfg unit w with
  | .ok _ w' => w'
  | .error _ w' => w'

/-- The unit completes. -/
def completes (cfg : Config) (unit : StorageActionPayload) (w : Worker) : Bool :=
  match execute cfg unit w with
  | .ok _ _ => true
  | .error _ _ => false

theorem execute_of_completes {cfg : Config} {unit : StorageActionPayload} {w : Worker}
    (h : completes cfg unit w = true) : execute cfg unit w = .ok () (workerAfter cfg unit w) := by
  unfold completes at h
  unfold workerAfter
  cases hr : execute cfg unit w with
  | ok u w' => rfl
  | error e w' => rw [hr] at h; cases h

/-- The unit fails with a restart error. -/
def fails (cfg : Config) (unit : StorageActionPayload) (w : Worker) : Bool :=
  match execute cfg unit w with
  | .ok _ _ => false
  | .error e _ => e = .restart

theorem execute_of_fails {cfg : Config} {unit : StorageActionPayload} {w : Worker}
    (h : fails cfg unit w = true) : execute cfg unit w = .error .restart (workerAfter cfg unit w) := by
  unfold fails at h
  unfold workerAfter
  cases hr : execute cfg unit w with
  | ok u w' => rw [hr] at h; cases h
  | error e w' =>
    rw [hr] at h
    simp only [decide_eq_true_eq] at h
    rw [h]

/-- Two mutable blocks on an empty store. -/
def sampleWorker₁ : Worker :=
  workerAfter sampleConfig (.rollForward ⟨1, 11⟩ [.set [7] [1], .incrementU64 [8] 5] true false)
    (Worker.spawn sampleConfig Table.empty Table.empty none [])

def sampleWorker₂ : Worker :=
  workerAfter sampleConfig (.rollForward ⟨2, 12⟩ [.delete [7], .decrementU64 [8] 5] true false)
    sampleWorker₁

/-- The second of two blocks is rolled back: a deleted key and a counter come back. -/
theorem rollBack_restores_sample :
    Run sampleConfig (Worker.spawn sampleConfig Table.empty Table.empty none []) sampleWorker₂
        [(⟨2, 12⟩, sampleWorker₂.data), (⟨1, 11⟩, sampleWorker₁.data)] ∧
      sampleWorker₂.data ≠ sampleWorker₁.data ∧
      ∃ w', execute sampleConfig (.rollBack ⟨1, 11⟩ true) sampleWorker₂ = .ok () w' ∧
        w'.data = sampleWorker₁.data := by
  have h₁ : execute sampleConfig
      (.rollForward ⟨1, 11⟩ [.set [7] [1], .incrementU64 [8] 5] true false)
      (Worker.spawn sampleConfig Table.empty Table.empty none []) = .ok () sampleWorker₁ :=
    execute_of_completes (by decide +kernel)
  have h₂ : execute sampleConfig (.rollForward ⟨2, 12⟩ [.delete [7], .decrementU64 [8] 5] true false)
      sampleWorker₁ = .ok () sampleWorker₂ := execute_of_completes (by decide +kernel)
  have hrun := Run.forward (Run.forward Run.start rfl h₁) rfl h₂
  obtain ⟨hback, hdone⟩ := rollBack_restores sampleConfig _ _ _ hrun ⟨1, 11⟩ true (by decide) (by decide)
  obtain ⟨w', hw'⟩ := hdone rfl
  refine ⟨hrun, by decide, w', hw', ?_⟩
  exact (Option.some.inj (hback w' hw').1).symm

end DogeIndexer.Polyphony
