import DogeIndexer.Polyphony.Cursor

/-!
# Source restarts

On a restart the source resumes from the persistent rollback buffer, sending a rollback to its
newest point first, or, when there is none, from the committed cursor, sending nothing first.
The first way of resuming is safe whatever is in flight; the second is safe only when nothing
is.

* `BulkPhase`, `MutablePhase` — the storage worker before and after its first mutable block.
* `Leads` — the queued messages lead from the last applied block to the source's position.
* `applied_once` — in every run whose restarts meet `RestartSafe`, the applied blocks are a
  segment of the chain: each block once, in height order.
-/

set_option autoImplicit false

namespace DogeIndexer.Polyphony

open Effect

/-! ## The storage worker, phase by phase -/

section Phases

variable {ch : Chain} {cfg : Config} {infoKey : Key} {w w' : Worker} {x a : Nat}

/-- Points of the heights from `lo + 1` on, `n` of them. -/
def segment (ch : Chain) (lo n : Nat) : List Point := (List.range' (lo + 1) n).map ch.point

theorem segment_succ (ch : Chain) (lo n : Nat) :
    segment ch lo (n + 1) = segment ch lo n ++ [ch.point (lo + n + 1)] := by
  unfold segment
  rw [List.range'_1_concat, List.map_append, List.map_singleton, Nat.add_right_comm]

theorem segment_take (ch : Chain) (lo n m : Nat) (h : m ≤ n) :
    (segment ch lo n).take m = segment ch lo m := by
  unfold segment
  rw [← List.map_take, List.take_range'_of_length_ge h]

/-- All blocks so far were bulk blocks, the last one of height `a`. -/
structure BulkPhase (cfg : Config) (w : Worker) (a : Nat) : Prop where
  mutable : w.mutable = false
  buffer : w.rollbackBuffer = ⟨[], cfg.bufferSize⟩
  rollback : w.rollback = Table.empty
  lastProcessed : ∀ p, w.lastProcessed = some p → p.height ≤ a
  wellKeyed : WellKeyed w.syncBatcher.batchActions
  held : ∀ action, w.syncBatcher.batchActions.get cfg.cursorKey = some action →
    ∃ v, action = .set cfg.cursorKey v ∧ cursorHeight v ≤ a
  cursor : ReadsOnly (cursorHeight · ≤ a) (w.data.get cfg.cursorKey)

/-- The mutable blocks that stand have the heights `x` to `a`. -/
structure MutablePhase (ch : Chain) (cfg : Config) (w : Worker) (x a : Nat) : Prop where
  mutable : w.mutable = true
  le : x ≤ a
  lastProcessed : w.lastProcessed = some (ch.point a)
  size : w.rollbackBuffer.size = cfg.bufferSize
  length : w.rollbackBuffer.blocks.length ≤ cfg.bufferSize
  heights : ∀ b ∈ w.rollbackBuffer.blocks, b.point.height ≤ a
  descending : w.rollbackBuffer.blocks.Pairwise (fun b c => c.point.height ≤ b.point.height)
  /-- The standing applications, each with the cursor its store holds. -/
  linkage : ∃ log : Log, Linkage cfg w log ∧
    log.map Prod.fst = ((List.range' x (a + 1 - x)).map ch.point).reverse ∧
    log.head?.map Prod.snd = some w.data ∧
    ∀ e ∈ log, ∃ v, e.2.get cfg.cursorKey = some v ∧ cursorHeight v = e.1.height
  keys : ∀ k v, w.rollback.get k = some v →
    k.height ≤ a ∧ (x ≤ k.height → k.hash = ch.hash k.height)
  /-- Every height that is still in the buffer has metadata. -/
  present : ∀ r, x ≤ r → r ≤ a → a - r < w.rollbackBuffer.blocks.length ∨ r = a →
    ∃ k v, w.rollback.get k = some v ∧ k.height = r

/-- A unit that carries the block of a height. -/
structure IsBlock (ch : Chain) (cfg : Config) (infoKey : Key) (height : Nat) (p : Point)
    (ops : List StorageAction) : Prop where
  point : p = ch.point height
  ops : ∃ rest, ops = blockOps ch cfg.cursorKey infoKey height rest

theorem IsBlock.cursor {height : Nat} {p : Point} {ops : List StorageAction}
    (h : IsBlock ch cfg infoKey height p ops) (hap : CursorApart ch cfg infoKey)
    (hh : height < 2 ^ 64) : ∃ v, cursorHeight v = height ∧
      Keyed.of StorageAction.key ops cfg.cursorKey = [.set cfg.cursorKey v] := by
  obtain ⟨rest, rfl⟩ := h.ops
  exact ⟨_, cursorHeight_cursorValue (p := ch.point height) hh rest, of_blockOps hap height rest⟩

/-- **A bulk block** stays in the bulk phase and is in the batcher. -/
theorem BulkPhase.forward {p : Point} {ops : List StorageAction} {mempool : Bool}
    (h : BulkPhase cfg w a) (hap : CursorApart ch cfg infoKey) (ha : a + 1 < 2 ^ 64)
    (hblock : IsBlock ch cfg infoKey (a + 1) p ops)
    (hexec : execute cfg (.rollForward p ops false mempool) w = .ok () w') :
    BulkPhase cfg w' (a + 1) ∧ w'.syncBatcher.isEmpty = false := by
  rw [show StorageActionPayload.rollForward p ops false mempool = (BulkBlock.mk p ops mempool).unit
    from rfl, execute_bulk h.mutable] at hexec
  obtain ⟨hbatch, hlast, hrb, hbuf, hmut, hdata⟩ := rollForwardBulk_ok hexec
  obtain ⟨v, hv, hof⟩ := hblock.cursor hap ha
  unfold batcherStep at hbatch
  rw [SyncBatcher.pushActions_eq_run] at hbatch
  obtain ⟨held, hheld, hbatcher⟩ := Option.map_eq_some_iff.mp hbatch
  have hwell : WellKeyed held := by
    refine mergeAll_wellKeyed ?_ hheld
    split
    · exact wellKeyed_empty
    · exact h.wellKeyed
  have hset : held.get cfg.cursorKey = some (.set cfg.cursorKey v) := mergeAll_set hof hheld
  have hheld' : w'.syncBatcher.batchActions = held := by rw [← hbatcher]
  refine ⟨⟨by rw [hmut, h.mutable], by rw [hbuf, h.buffer], by rw [hrb, h.rollback], ?_, ?_, ?_, ?_⟩, ?_⟩
  · intro q hq
    rw [hlast] at hq
    split at hq
    · cases hq
      rw [hblock.point]
      exact Nat.le_refl _
    · exact Nat.le_succ_of_le (h.lastProcessed q hq)
  · rw [hheld']
    exact hwell
  · intro action haction
    rw [hheld', hset] at haction
    cases haction
    exact ⟨v, rfl, by omega⟩
  · have hreads : ReadsOnly (cursorHeight · ≤ a) (w'.data.get cfg.cursorKey) := by
      rcases hdata with hsame | ⟨u, u', hflush, hu, hu'⟩
      · rw [hsame]
        exact h.cursor
      · rw [← hu']
        refine flushBatch_reads (values_nodup h.wellKeyed)
          (setsOnly_values h.wellKeyed h.held cfg.order).keepsReads ?_ hflush
        rw [hu]
        exact h.cursor
    intro v' hv'
    exact Nat.le_succ_of_le (hreads v' hv')
  · rw [SyncBatcher.isEmpty, hheld', List.isEmpty_eq_false_iff]
    exact List.ne_nil_of_mem (Table.mem_entries.mpr hset)

/-- The metadata after a mutable block of height `a + 1`: `rollback₁` stands before it. -/
theorem metadata_extend {rollback₁ rollback₂ rollback' : Table MetadataKey Value}
    {inverseOps : List StorageAction} {n : Nat}
    (hkeys : ∀ k v, rollback₁.get k = some v →
      k.height ≤ a ∧ (x ≤ k.height → k.hash = ch.hash k.height))
    (hpresent : ∀ r, x ≤ r → r ≤ a → a + 1 - r < n → ∃ k v, rollback₁.get k = some v ∧ k.height = r)
    (hmeta : applyStorageRbActions rollback₁ inverseOps (a + 1) (ch.hash (a + 1)) = some rollback₂)
    (hne : inverseOps ≠ []) (hn : n ≤ cfg.bufferSize)
    (hcollected : rollback' = collected cfg rollback₂ (a + 1)) :
    (∀ k v, rollback'.get k = some v →
      k.height ≤ a + 1 ∧ (x ≤ k.height → k.hash = ch.hash k.height)) ∧
    (∀ r, x ≤ r → r ≤ a + 1 → a + 1 - r < n ∨ r = a + 1 →
      ∃ k v, rollback'.get k = some v ∧ k.height = r) := by
  subst hcollected
  constructor
  · intro k v hk
    rw [get_collected] at hk
    split at hk
    · cases hk
    · rcases applyStorageRbActions_cases hmeta hk with ⟨hheight, hhash⟩ | hold
      · rw [hheight]
        exact ⟨Nat.le_refl _, fun _ => hhash⟩
      · obtain ⟨hle, hhash⟩ := hkeys k v hold
        exact ⟨by omega, hhash⟩
  · intro r hxr hra hr
    by_cases htop : r = a + 1
    · obtain ⟨k, v, hk, hheight⟩ := exists_applyStorageRbActions hne hmeta
      refine ⟨k, v, ?_, by omega⟩
      rw [get_collected, if_neg (by omega)]
      exact hk
    · have hlt : a + 1 - r < n := hr.resolve_right htop
      obtain ⟨k, v, hk, hheight⟩ := hpresent r hxr (by omega) hlt
      refine ⟨k, v, ?_, hheight⟩
      rw [get_collected, if_neg (by omega), get_applyStorageRbActions hmeta k (by omega)]
      exact hk

/-- A mutable block over a store whose cursor is behind moves the cursor and has inverses. -/
theorem commit_moves_cursor {initial : Option (Option Point)} {before after : Store}
    {rollback rollback' : Table MetadataKey Value} {inverseOps ops : List StorageAction} {p : Point}
    (hap : CursorApart ch cfg infoKey) (ha : a + 1 < 2 ^ 64)
    (hblock : IsBlock ch cfg infoKey (a + 1) p ops)
    (h : BlockCommit cfg initial p ops before after rollback rollback' inverseOps)
    (hbefore : ReadsOnly (cursorHeight · ≤ a) (before.get cfg.cursorKey)) :
    (∃ v, after.get cfg.cursorKey = some v ∧ cursorHeight v = a + 1) ∧ inverseOps ≠ [] := by
  obtain ⟨rest, rfl⟩ := hblock.ops
  have hheight := cursorHeight_cursorValue (p := ch.point (a + 1)) ha rest
  obtain ⟨hafter, hne⟩ := h.setsKey (of_blockOps hap _ rest) (fun hsame => by
    have hle : cursorHeight (cursorValue (ch.point (a + 1)) rest) ≤ a := hbefore _ hsame
    rw [hheight] at hle
    exact Nat.not_succ_le_self a hle)
  exact ⟨⟨_, hafter, hheight⟩, hne⟩

theorem bufferAfter_size (w : Worker) (p : Point) (inverseOps : List StorageAction) :
    (bufferAfter w p inverseOps).size = w.rollbackBuffer.size := by
  unfold bufferAfter
  split <;> rfl

theorem bufferAfter_length_le (w : Worker) (p : Point) (inverseOps : List StorageAction) :
    (bufferAfter w p inverseOps).blocks.length ≤ w.rollbackBuffer.size := by
  rw [← bufferAfter_size w p inverseOps]
  unfold bufferAfter RollbackBuffer.addBlock
  exact List.length_take_le _ _

/-- Above an occupied buffer a block adds one entry. -/
theorem bufferAfter_length_succ {w : Worker} {p : Point} {inverseOps : List StorageAction}
    (h : w.rollbackBuffer.blocks ≠ []) :
    (bufferAfter w p inverseOps).blocks.length ≤ w.rollbackBuffer.blocks.length + 1 := by
  unfold bufferAfter
  rw [if_neg (by simpa [RollbackBuffer.isEmpty] using h)]
  exact List.length_take_le' _ _

theorem mem_bufferAfter {w : Worker} {p : Point} {inverseOps : List StorageAction}
    {b : PointWithResult (List StorageAction)} (h : b ∈ (bufferAfter w p inverseOps).blocks) :
    b.point = p ∨ b.point = w.lastProcessed.getD originPoint ∨ b ∈ w.rollbackBuffer.blocks := by
  unfold bufferAfter RollbackBuffer.addBlock at h
  rcases List.mem_cons.mp (List.mem_of_mem_take h) with rfl | hb
  · exact Or.inl rfl
  · split at hb
    · rcases List.mem_cons.mp (List.mem_of_mem_take hb) with rfl | hb
      · exact Or.inr (Or.inl rfl)
      · exact Or.inr (Or.inr hb)
    · exact Or.inr (Or.inr hb)

/-- A block above all points of the buffer keeps it ordered. -/
theorem bufferAfter_descending {w : Worker} {p : Point} {inverseOps : List StorageAction}
    (h : w.rollbackBuffer.blocks.Pairwise (fun b c => c.point.height ≤ b.point.height))
    (hp : ∀ b ∈ w.rollbackBuffer.blocks, b.point.height ≤ p.height)
    (hlast : (w.lastProcessed.getD originPoint).height ≤ p.height) :
    (bufferAfter w p inverseOps).blocks.Pairwise (fun b c => c.point.height ≤ b.point.height) := by
  unfold bufferAfter RollbackBuffer.addBlock
  refine List.Pairwise.sublist (List.take_sublist _ _) (List.pairwise_cons.mpr ?_)
  split
  · rename_i hempty
    have hnil : w.rollbackBuffer.blocks = [] := by simpa [RollbackBuffer.isEmpty] using hempty
    rw [hnil]
    constructor
    · intro b hb
      rw [List.mem_singleton.mp (List.mem_of_mem_take hb)]
      exact hlast
    · exact List.Pairwise.sublist (List.take_sublist _ _) (List.pairwise_singleton _ _)
  · exact ⟨hp, h⟩

/-- The heights from `x` to `a + 1`, newest first. -/
theorem descending_succ (ch : Chain) (h : x ≤ a + 1) :
    ((List.range' x (a + 1 + 1 - x)).map ch.point).reverse =
      ch.point (a + 1) :: ((List.range' x (a + 1 - x)).map ch.point).reverse := by
  have hlen : a + 1 + 1 - x = (a + 1 - x) + 1 := by omega
  rw [hlen, List.range'_1_concat, List.map_append, List.reverse_append]
  simp only [List.map_cons, List.map_nil, List.reverse_cons, List.reverse_nil, List.nil_append,
    List.singleton_append]
  rw [show x + (a + 1 - x) = a + 1 by omega]

/-- **The first mutable block.** -/
theorem BulkPhase.first {p : Point} {ops : List StorageAction} {mempool : Bool}
    (h : BulkPhase cfg w a) (hap : CursorApart ch cfg infoKey) (ha : a + 1 < 2 ^ 64)
    (hblock : IsBlock ch cfg infoKey (a + 1) p ops)
    (hexec : execute cfg (.rollForward p ops true mempool) w = .ok () w') :
    MutablePhase ch cfg w' (a + 1) (a + 1) := by
  rw [execute_forward_mutable (by simp)] at hexec
  have hlink : Linkage cfg { w with mutable := w.mutable || true } [] := by
    refine ⟨?_, fun hne => absurd rfl hne, fun hne => absurd rfl hne⟩
    rw [h.buffer]
    exact trivial
  have hlinkage := hlink.forward hexec
  obtain ⟨before, rollback, inverseOps, hcommit, hrb, hbuf, -, -, hlast, hmut, v, hflush, hv⟩ :=
    rollForwardMutable_ok hexec
  obtain ⟨rollback₁, hinit, hmeta⟩ := hcommit.metadata
  have hbefore : ReadsOnly (cursorHeight · ≤ a) (before.get cfg.cursorKey) := by
    rw [← hv]
    exact flushRemaining_reads (w := { w with mutable := w.mutable || true, workUnit2pc := some _ })
      h.wellKeyed (setsOnly_values h.wellKeyed h.held cfg.order).keepsReads h.cursor hflush
  obtain ⟨hcursor, hne⟩ := commit_moves_cursor hap ha hblock hcommit hbefore
  -- the initial point is at or below the last bulk block
  have hkeys : ∀ k v, rollback₁.get k = some v → k.height ≤ a := by
    intro k v hk
    simp only [h.buffer, RollbackBuffer.isEmpty, List.isEmpty_nil, if_true, h.rollback] at hinit
    cases hlp : w.lastProcessed with
    | none =>
      rw [hlp] at hinit
      cases hinit
      cases hk
    | some q =>
      rw [hlp] at hinit
      rcases applyStorageRbActions_cases hinit hk with ⟨hheight, -⟩ | hold
      · rw [hheight]
        exact h.lastProcessed q hlp
      · cases hold
  have hlen : w'.rollbackBuffer.blocks.length ≤ cfg.bufferSize := by
    rw [hbuf]
    refine Nat.le_trans (bufferAfter_length_le _ _ _) ?_
    rw [h.buffer]
  rw [hblock.point] at hmeta hrb
  obtain ⟨hkeys', hpresent'⟩ := metadata_extend (x := a + 1)
    (fun k v hk => ⟨hkeys k v hk, fun hx => absurd (hkeys k v hk) (by omega)⟩)
    (fun r hxr hra => absurd hra (by omega)) hmeta hne hlen hrb
  have hinitial : (w.lastProcessed.getD originPoint).height ≤ a + 1 := by
    cases hlp : w.lastProcessed with
    | none => exact Nat.zero_le _
    | some q => exact Nat.le_succ_of_le (h.lastProcessed q hlp)
  refine ⟨by rw [hmut]; simp, Nat.le_refl _, by rw [hlast, hblock.point], ?_, hlen, ?_, ?_, ?_, hkeys',
    hpresent'⟩
  · rw [hbuf, bufferAfter_size, h.buffer]
  · intro b hb
    rw [hbuf] at hb
    rcases mem_bufferAfter hb with heq | heq | hold
    · rw [heq, hblock.point]
      exact Nat.le_refl _
    · rw [heq]
      exact hinitial
    · rw [h.buffer] at hold
      cases hold
  · rw [hbuf, hblock.point]
    refine bufferAfter_descending ?_ ?_ hinitial
    · rw [h.buffer]
      exact List.Pairwise.nil
    · rw [h.buffer]
      intro b hb
      cases hb
  · refine ⟨_, hlinkage, ?_, rfl, ?_⟩
    · rw [descending_succ ch (Nat.le_refl _), Nat.sub_self, hblock.point]
      rfl
    · intro e he
      rw [List.mem_singleton.mp he, hblock.point]
      exact hcursor

/-- **A mutable block in the mutable phase.** -/
theorem MutablePhase.forward {p : Point} {ops : List StorageAction} {mutable mempool : Bool}
    (h : MutablePhase ch cfg w x a) (hap : CursorApart ch cfg infoKey) (ha : a + 1 < 2 ^ 64)
    (hblock : IsBlock ch cfg infoKey (a + 1) p ops)
    (hexec : execute cfg (.rollForward p ops mutable mempool) w = .ok () w') :
    MutablePhase ch cfg w' x (a + 1) := by
  have hle := h.le
  rw [execute_forward_mutable (by rw [h.mutable]; rfl)] at hexec
  obtain ⟨log, hlink, hpoints, hhead, hcursors⟩ := h.linkage
  have hlinkage := (hlink.setMutable (w.mutable || mutable)).forward hexec
  obtain ⟨before, rollback, inverseOps, hcommit, hrb, hbuf, -, hsame, hlast, hmut, -⟩ :=
    rollForwardMutable_ok hexec
  obtain ⟨rollback₁, hinit, hmeta⟩ := hcommit.metadata
  have hlogne : log ≠ [] := by
    rintro rfl
    cases hhead
  have hbefore : ReadsOnly (cursorHeight · ≤ a) (before.get cfg.cursorKey) := by
    rw [hsame (hlink.batcher hlogne)]
    obtain ⟨e, log', rfl⟩ := List.exists_cons_of_ne_nil hlogne
    obtain ⟨v, hv, hheight⟩ := hcursors e List.mem_cons_self
    have hdata : e.2 = w.data := Option.some.inj hhead
    -- the newest application is the block of height `a`
    have htop : e.1.height = a := by
      have hlen : a + 1 - x = (a - x) + 1 := by omega
      rw [hlen, List.range'_1_concat, List.map_append, List.reverse_append] at hpoints
      have he : e.1 = ch.point (x + (a - x)) := (List.cons.inj hpoints).1
      rw [he]
      show x + (a - x) = a
      omega
    intro v' hv'
    rw [hdata] at hv
    have heq : v' = v := Option.some.inj (hv'.symm.trans hv)
    show cursorHeight v' ≤ a
    rw [heq, hheight, htop]
  obtain ⟨hcursor, hne⟩ := commit_moves_cursor hap ha hblock hcommit hbefore
  -- with a buffer of size 0 the last point is recorded again at every block
  have hinit' : rollback₁ = w.rollback ∨ w.rollbackBuffer.blocks = [] ∧
      applyStorageRbActions w.rollback [.delete []] a (ch.hash a) = some rollback₁ := by
    by_cases hempty : w.rollbackBuffer.isEmpty = true
    · refine Or.inr ⟨by simpa [RollbackBuffer.isEmpty] using hempty, ?_⟩
      simp only [hempty, if_true, h.lastProcessed] at hinit
      exact hinit
    · simp only [hempty] at hinit
      exact Or.inl (Option.some.inj hinit).symm
  have hkeys : ∀ k v, rollback₁.get k = some v →
      k.height ≤ a ∧ (x ≤ k.height → k.hash = ch.hash k.height) := by
    intro k v hk
    rcases hinit' with rfl | ⟨-, happ⟩
    · exact h.keys k v hk
    · rcases applyStorageRbActions_cases happ hk with ⟨hheight, hhash⟩ | hold
      · rw [hheight]
        exact ⟨Nat.le_refl _, fun _ => hhash⟩
      · exact h.keys k v hold
  have hlen : w'.rollbackBuffer.blocks.length ≤ cfg.bufferSize := by
    rw [hbuf]
    refine Nat.le_trans (bufferAfter_length_le _ _ _) ?_
    exact Nat.le_of_eq h.size
  have hpresent : ∀ r, x ≤ r → r ≤ a → a + 1 - r < w'.rollbackBuffer.blocks.length →
      ∃ k v, rollback₁.get k = some v ∧ k.height = r := by
    intro r hxr hra hr
    rcases hinit' with rfl | ⟨hnil, -⟩
    · refine h.present r hxr hra ?_
      by_cases hblocks : w.rollbackBuffer.blocks = []
      · have hz := hlink.buffer hlogne hblocks
        rw [h.size] at hz
        omega
      · have hsucc : w'.rollbackBuffer.blocks.length ≤ w.rollbackBuffer.blocks.length + 1 := by
          rw [hbuf]
          exact bufferAfter_length_succ (w := { w with mutable := w.mutable || mutable }) hblocks
        omega
    · have hz := hlink.buffer hlogne hnil
      rw [h.size] at hz
      omega
  rw [hblock.point] at hmeta hrb
  obtain ⟨hkeys', hpresent'⟩ := metadata_extend hkeys hpresent hmeta hne hlen hrb
  have hinitial : (w.lastProcessed.getD originPoint).height ≤ a + 1 := by
    rw [h.lastProcessed]
    exact Nat.le_succ a
  refine ⟨by rw [hmut, h.mutable]; rfl, by omega, by rw [hlast, hblock.point], ?_, hlen, ?_, ?_, ?_,
    hkeys', hpresent'⟩
  · rw [hbuf, bufferAfter_size]
    exact h.size
  · intro b hb
    rw [hbuf] at hb
    rcases mem_bufferAfter hb with heq | heq | hold
    · rw [heq, hblock.point]
      exact Nat.le_refl _
    · rw [heq]
      exact hinitial
    · exact Nat.le_succ_of_le (h.heights b hold)
  · rw [hbuf, hblock.point]
    exact bufferAfter_descending h.descending (fun b hb => Nat.le_succ_of_le (h.heights b hb)) hinitial
  · refine ⟨_, hlinkage, ?_, rfl, ?_⟩
    · rw [List.map_cons, hpoints, descending_succ ch (by omega), hblock.point]
    · intro e he
      rcases List.mem_cons.mp he with rfl | he
      · rw [hblock.point]
        exact hcursor
      · exact hcursors e he

/-- **A rollback in the mutable phase** to a point from `x` on undoes the blocks above it. -/
theorem MutablePhase.back {r : Nat} {mutable : Bool} (h : MutablePhase ch cfg w x a) (hxr : x ≤ r)
    (hexec : execute cfg (.rollBack (ch.point r) mutable) w = .ok () w') :
    r ≤ a ∧ undone w (ch.point r) = a - r ∧ MutablePhase ch cfg w' x r := by
  have hle := h.le
  rw [execute_back] at hexec
  obtain ⟨log, hlink, hpoints, -, hcursors⟩ := h.linkage
  obtain ⟨pos, hpos, -, hbuf, -, hlast, hmut, hrb⟩ := rollBack_ok hexec
  have hpos' : w.rollbackBuffer.position (ch.point r) = some pos := hpos
  have hra : r ≤ a := by
    unfold RollbackBuffer.position at hpos'
    obtain ⟨hlt, hp, -⟩ := List.findIdx?_eq_some_iff_getElem.mp hpos'
    have hheight := h.heights _ (List.getElem_mem hlt)
    rw [of_decide_eq_true hp] at hheight
    exact hheight
  have hmem : ch.point r ∈ log.map Prod.fst := by
    rw [hpoints, List.mem_reverse]
    exact List.mem_map.mpr ⟨r, List.mem_range'_1.mpr (by omega), rfl⟩
  obtain ⟨hlinkage, hhead, hskip, -⟩ := (hlink.setMutable (w.mutable || mutable)).back hmem
    (by rw [show _ = some pos from hpos]; rfl) hexec
  have hdrop := hskip pos hpos
  -- position and height count the same blocks
  have hdropped : (log.drop pos).map Prod.fst = ((List.range' x (a + 1 - x - pos)).map ch.point).reverse := by
    rw [List.map_drop, hpoints, List.drop_reverse, List.length_map, List.length_range', ← List.map_take,
      List.take_range'_of_length_ge (Nat.sub_le _ _)]
  have hcount : a - pos = r ∧ pos ≤ a - x := by
    have hfirst : ((log.drop pos).map Prod.fst).head? = some (ch.point r) := by
      rw [List.head?_map, hdrop, hhead]
      rfl
    rw [hdropped] at hfirst
    cases hn : a + 1 - x - pos with
    | zero => rw [hn] at hfirst; cases hfirst
    | succ n =>
      rw [hn, List.range'_1_concat, List.map_append, List.reverse_append] at hfirst
      have hpoint : ch.point (x + n) = ch.point r := Option.some.inj hfirst
      have hheight : x + n = r := congrArg Point.height hpoint
      omega
  have hblocks : w'.rollbackBuffer.blocks = w.rollbackBuffer.blocks.drop pos := by rw [hbuf]
  refine ⟨hra, ?_, ?_⟩
  · unfold undone
    rw [hpos']
    show pos = a - r
    omega
  have hdesc := h.descending.sublist (List.drop_sublist pos w.rollbackBuffer.blocks)
  refine ⟨by rw [hmut, h.mutable]; rfl, hxr, hlast, by rw [hbuf]; exact h.size, ?_, ?_, ?_, ?_, ?_, ?_⟩
  · rw [hblocks, List.length_drop]
    have := h.length
    omega
  · intro b hb
    rw [hblocks] at hb
    obtain ⟨hlt, hp, -⟩ := List.findIdx?_eq_some_iff_getElem.mp hpos'
    -- the target comes first in what is left
    rw [List.drop_eq_getElem_cons hlt] at hb hdesc
    have htarget : (w.rollbackBuffer.blocks[pos]).point.height = r := by
      rw [of_decide_eq_true hp]
      rfl
    rcases List.mem_cons.mp hb with rfl | hb
    · exact Nat.le_of_eq htarget
    · rw [← htarget]
      exact (List.pairwise_cons.mp hdesc).1 b hb
  · rw [hblocks]
    exact hdesc
  · refine ⟨_, hlinkage, ?_, ?_, ?_⟩
    · rw [← hdrop, hdropped]
      congr 3
      omega
    · rw [hhead]
      rfl
    · intro e he
      rw [← hdrop] at he
      exact hcursors e (List.mem_of_mem_drop he)
  · intro k v hk
    rw [hrb, get_trimmed] at hk
    split at hk
    · cases hk
    · rename_i hgt
      have hheight : k.height ≤ r := Nat.le_of_not_gt hgt
      exact ⟨hheight, (h.keys k v hk).2⟩
  · intro q hxq hqr hq
    rw [hblocks, List.length_drop] at hq
    have hblen : pos < w.rollbackBuffer.blocks.length :=
      (List.findIdx?_eq_some_iff_getElem.mp hpos').1
    obtain ⟨k, v, hk, hheight⟩ := h.present q hxq (by omega) (by omega)
    refine ⟨k, v, ?_, hheight⟩
    rw [hrb, get_trimmed, if_neg (by show ¬ k.height > r; omega)]
    exact hk

end Phases

/-! ## The queue -/

section Queue

variable {ch : Chain} {cfg : Config} {src : Source} {tip tip' : Nat} {ok ok' : Nat → Prop}

/-- The queued messages lead from height `v` to height `e`: blocks follow one another, and a
rollback, if its point was applied, restarts from there. -/
def Leads (ch : Chain) (cfg : Config) (src : Source) (tip : Nat) (ok : Nat → Prop) :
    Nat → List StorageActionPayload → Nat → Prop
  | v, [], e => v = e
  | v, .rollForward p ops _ _ :: q, e => v + 1 ≤ tip ∧ IsBlock ch cfg src.infoKey (v + 1) p ops ∧
      Leads ch cfg src tip ok (v + 1) q e
  | v, .rollBack p _ :: q, e => ∃ r, p = ch.point r ∧ ok r ∧ (r ≤ v → Leads ch cfg src tip ok r q e)

theorem Leads.mono (htip : tip ≤ tip') (hok : ∀ r, ok r → ok' r) {v e : Nat}
    {q : List StorageActionPayload} (h : Leads ch cfg src tip ok v q e) :
    Leads ch cfg src tip' ok' v q e := by
  induction q generalizing v with
  | nil => exact h
  | cons m q ih =>
    cases m with
    | rollForward p ops mutable mempool =>
      obtain ⟨hle, hblock, hrest⟩ := h
      exact ⟨Nat.le_trans hle htip, hblock, ih hrest⟩
    | rollBack p mutable =>
      obtain ⟨r, hp, hr, hrest⟩ := h
      exact ⟨r, hp, hok r hr, fun hle => ih (hrest hle)⟩

theorem Leads.append {v e e' : Nat} {q q' : List StorageActionPayload}
    (h : Leads ch cfg src tip ok v q e) (h' : Leads ch cfg src tip ok e q' e') :
    Leads ch cfg src tip ok v (q ++ q') e' := by
  induction q generalizing v with
  | nil =>
    cases h
    exact h'
  | cons m q ih =>
    cases m with
    | rollForward p ops mutable mempool =>
      obtain ⟨hle, hblock, hrest⟩ := h
      exact ⟨hle, hblock, ih hrest⟩
    | rollBack p mutable =>
      obtain ⟨r, hp, hr, hrest⟩ := h
      exact ⟨r, hp, hr, fun hle => ih (hrest hle)⟩

/-- The messages of consecutive blocks lead up the chain. -/
theorem leads_applyMessages (mutable : Bool) (rest : Nat → List Byte) {v n : Nat}
    (h : v + n ≤ tip) :
    Leads ch cfg src tip ok v (applyMessages ch cfg src (List.range' (v + 1) n) mutable rest) (v + n) := by
  induction n generalizing v with
  | zero => exact rfl
  | succ n ih =>
    refine ⟨by omega, ⟨rfl, rest (v + 1), rfl⟩, ?_⟩
    have hrest := ih (v := v + 1) (by omega)
    rw [show v + 1 + n = v + (n + 1) by omega] at hrest
    exact hrest

end Queue

/-! ## Runs -/

section Runs

variable {ch : Chain} {cfg : Config} {src : Source}

/-- The source's position: the height of the last block it has sent. -/
def Mode.At : Mode → Nat → Prop
  | .init, pos => pos = 0
  | .dumping cursor, pos => cursorPosition cursor = pos
  | .streaming height, pos => height = pos

/-- A restart is safe when there is a persistent rollback buffer to resume from, when no block
that was sent is waiting in the queue or in the batcher, or when a source that starts at the tip
without a cursor has sent every block up to the tip. -/
def RestartSafe (cfg : Config) (src : Source) (s : Pipeline) : Prop :=
  fetchPersistentBuffer s.worker.rollback ≠ none ∨
  (s.queue = [] ∧ s.worker.syncBatcher.isEmpty = true) ∨
  (lastPoint cfg s.worker.data = none ∧ src.intersect = .tip ∧ s.mode.At s.tip)

/-- Runs from a fresh database, every bootstrap of the source in a state with `allowed`. -/
inductive PipelineRun (ch : Chain) (cfg : Config) (src : Source) (allowed : Pipeline → Prop) :
    Pipeline → Prop
  | start (tip : Nat) (h : tip < 2 ^ 64) : PipelineRun ch cfg src allowed (start cfg tip)
  | step {s s' : Pipeline} {e : Event} (hrun : PipelineRun ch cfg src allowed s)
      (hstep : Step ch cfg src e s s') (hallowed : e = .bootstrap → allowed s) :
      PipelineRun ch cfg src allowed s'

/-- The phase of the storage worker, with the points a queued rollback may name. -/
inductive Phase (ch : Chain) (cfg : Config) (s : Pipeline) (lo a : Nat) : (Nat → Prop) → Prop
  | bulk (h : BulkPhase cfg s.worker a)
      (hempty : s.worker.syncBatcher.isEmpty = true →
        a = lo ∧ s.worker.data = Table.empty ∧ s.worker.lastProcessed = none) :
      Phase ch cfg s lo a (fun _ => False)
  | mutable {x : Nat} (h : MutablePhase ch cfg s.worker x a) (hlo : lo < x) :
      Phase ch cfg s lo a (fun r => x ≤ r)

/-- What holds along a safe run: blocks `lo + 1` to `a` are applied, the queue leads from `a`
to the source's position. -/
structure Progress (ch : Chain) (cfg : Config) (src : Source) (s : Pipeline) (lo a pos : Nat)
    (ok : Nat → Prop) : Prop where
  le : lo ≤ a
  tip : a ≤ s.tip
  bound : s.tip < 2 ^ 64
  log : s.log = segment ch lo (a - lo)
  queue : Leads ch cfg src s.tip ok a s.queue pos
  mode : s.mode.At pos
  phase : Phase ch cfg s lo a ok

def Inv (ch : Chain) (cfg : Config) (src : Source) (s : Pipeline) : Prop :=
  ∃ lo a pos ok, Progress ch cfg src s lo a pos ok

theorem inv_start {tip : Nat} (h : tip < 2 ^ 64) : Inv ch cfg src (start cfg tip) := by
  refine ⟨0, 0, 0, _, Nat.le_refl _, Nat.zero_le _, h, rfl, rfl, rfl, .bulk ?_ (fun _ => ⟨rfl, rfl, rfl⟩)⟩
  refine ⟨rfl, rfl, rfl, ?_, wellKeyed_empty, ?_, ?_⟩
  · intro p hp
    cases hp
  · intro action haction
    cases haction
  · intro v hv
    cases hv

theorem MutablePhase.newest {w : Worker} {x a : Nat} (h : MutablePhase ch cfg w x a) (hx : 1 ≤ x) :
    ∃ buf actions, fetchPersistentBuffer w.rollback = some (buf ++ [⟨ch.point a, actions⟩]) := by
  have hle := h.le
  refine fetchPersistentBuffer_newest (by omega) (fun k v hk => (h.keys k v hk).1) ?_
    (h.present a hle (Nat.le_refl _) (Or.inr rfl))
  intro k v hk hheight
  rw [(h.keys k v hk).2 (by omega), hheight]

theorem cursorPosition_chainTip (ch : Chain) (tip : Nat) :
    cursorPosition ((chainTip tip).map ch.point) = tip := by
  unfold chainTip
  split
  · rename_i hz
    rw [hz]
    rfl
  · rfl

theorem height_le_of_found {tip : Nat} {p : Point} (h : ch.found tip p = true) : p.height ≤ tip := by
  unfold Chain.found at h
  simp only [Bool.and_eq_true, decide_eq_true_eq] at h
  exact h.1.2

/-- Without a cursor the source resumes at or below the tip. -/
theorem intersect_le {tip : Nat} {intersect : Option Point}
    (h : tryIntersectWithLastPointOrConfig ch cfg src tip Table.empty = some intersect) :
    cursorPosition intersect ≤ tip := by
  unfold tryIntersectWithLastPointOrConfig at h
  rw [show lastPoint cfg Table.empty = none from rfl] at h
  simp only at h
  split at h
  · cases h
    exact Nat.zero_le _
  · cases h
    exact Nat.le_of_eq (cursorPosition_chainTip ch tip)
  · split at h
    · rename_i hfound
      cases h
      exact height_le_of_found hfound
    · cases h

/-- Nothing was applied or is pending: the source may resume anywhere. -/
theorem inv_bootstrap_idle {s : Pipeline} {intersect : Option Point} {lo a pos : Nat} {ok : Nat → Prop}
    (hp : Progress ch cfg src s lo a pos ok) (hbulk : BulkPhase cfg s.worker a)
    (hqueue : s.queue = []) (hbatch : s.worker.syncBatcher.isEmpty = true) (halo : a = lo)
    (hdata : s.worker.data = Table.empty) (hlast : s.worker.lastProcessed = none)
    (hint : tryIntersectWithLastPointOrConfig ch cfg src s.tip s.worker.data = some intersect) :
    Inv ch cfg src { s with mode := .dumping intersect, upstreamHeight := chainTip s.tip } := by
  rw [hdata] at hint
  have hle := intersect_le hint
  refine ⟨cursorPosition intersect, cursorPosition intersect, cursorPosition intersect, _,
    Nat.le_refl _, hle, hp.bound, ?_, ?_, rfl, .bulk ?_ (fun _ => ⟨rfl, hdata, hlast⟩)⟩
  · have hlog := hp.log
    rw [halo, Nat.sub_self] at hlog
    rw [Nat.sub_self]
    exact hlog
  · show Leads ch cfg src s.tip _ _ s.queue _
    rw [hqueue]
    exact rfl
  · refine ⟨hbulk.mutable, hbulk.buffer, hbulk.rollback, ?_, hbulk.wellKeyed, ?_, ?_⟩
    · intro p hp'
      rw [hlast] at hp'
      cases hp'
    · intro action haction
      have hmem := Table.mem_entries.mpr haction
      rw [SyncBatcher.isEmpty, List.isEmpty_iff] at hbatch
      rw [hbatch] at hmem
      cases hmem
    · intro v hv
      rw [hdata] at hv
      cases hv

theorem Mode.At.unique {m : Mode} {pos pos' : Nat} (h : m.At pos) (h' : m.At pos') : pos = pos' := by
  cases m <;> simp only [Mode.At] at h h' <;> omega

/-- **Bootstrap and restart.** -/
theorem inv_bootstrap {s s' : Pipeline} (h : Inv ch cfg src s) (hsafe : RestartSafe cfg src s)
    (hstep : bootstrap ch cfg src s = some s') : Inv ch cfg src s' := by
  obtain ⟨lo, a, pos, ok, hp⟩ := h
  cases hp.phase with
  | bulk hbulk hempty =>
    -- nothing is in the persistent buffer
    have hnone : fetchPersistentBuffer s.worker.rollback = none := by
      rw [hbulk.rollback]
      rfl
    unfold bootstrap at hstep
    rw [hnone] at hstep
    obtain ⟨intersect, hint, rfl⟩ := Option.map_eq_some_iff.mp hstep
    rcases hsafe with hbuf | ⟨hqueue, hbatch⟩ | ⟨hcursor, htip, hat⟩
    · exact absurd hnone hbuf
    · obtain ⟨halo, hdata, hlast⟩ := hempty hbatch
      exact inv_bootstrap_idle hp hbulk hqueue hbatch halo hdata hlast hint
    · have hpos : pos = s.tip := hp.mode.unique hat
      unfold tryIntersectWithLastPointOrConfig at hint
      rw [hcursor, htip] at hint
      cases hint
      refine ⟨lo, a, pos, _, hp.le, hp.tip, hp.bound, hp.log, hp.queue, ?_, .bulk hbulk hempty⟩
      rw [hpos]
      exact cursorPosition_chainTip ch s.tip
  | @mutable x hmut hlo =>
    have hle := hmut.le
    obtain ⟨buf, actions, hbuf⟩ := hmut.newest (by omega)
    have hfound : ch.found s.tip (ch.point a) = true := by
      have htip := hp.tip
      unfold Chain.found
      simp only [Bool.and_eq_true, decide_eq_true_eq]
      refine ⟨⟨?_, htip⟩, rfl⟩
      show 1 ≤ a
      omega
    unfold bootstrap at hstep
    rw [hbuf] at hstep
    simp only [List.map_append, List.map_cons, List.map_nil, List.reverse_append, List.reverse_cons,
      List.reverse_nil, List.nil_append, List.singleton_append, List.find?_cons, hfound,
      Option.map_some, Option.some.injEq] at hstep
    subst hstep
    refine ⟨lo, a, a, _, hp.le, hp.tip, hp.bound, hp.log, ?_, rfl, .mutable hmut hlo⟩
    refine hp.queue.append ?_
    exact ⟨a, rfl, hle, fun _ => rfl⟩

/-- **A page of blocks is sent.** -/
theorem inv_dump {s s' : Pipeline} {cursor : Option Point} {rest : Nat → List Byte}
    (h : Inv ch cfg src s) (hmode : s.mode = .dumping cursor)
    (hstep : dump ch cfg src s cursor rest = some s') : Inv ch cfg src s' := by
  obtain ⟨lo, a, pos, ok, hp⟩ := h
  have hpos : cursorPosition cursor = pos := by
    have := hp.mode
    rw [hmode] at this
    exact this
  unfold dump at hstep
  split at hstep
  · cases hstep
    have hheights : pageHeights s.tip cursor src.maxItemsPerPage =
        List.range' (pos + 1) (min src.maxItemsPerPage (s.tip - pos)) := by
      unfold pageHeights
      rw [hpos]
    generalize hn : min src.maxItemsPerPage (s.tip - pos) = n at hheights
    refine ⟨lo, a, pos + n, ok, hp.le, hp.tip, hp.bound, hp.log, ?_, ?_, ?_⟩
    · by_cases hz : n = 0
      · show Leads ch cfg src s.tip ok a (s.queue ++ _) _
        rw [hheights, hz, Nat.add_zero]
        exact hp.queue.append rfl
      · refine hp.queue.append ?_
        show Leads ch cfg src s.tip ok pos (applyMessages ch cfg src _ false rest) (pos + n)
        rw [hheights]
        exact leads_applyMessages false rest (by omega)
    · simp only [hheights]
      cases n with
      | zero => exact hpos
      | succ n =>
        rw [List.range'_1_concat, List.getLast?_append]
        show pos + 1 + n = pos + (n + 1)
        omega
    · cases hp.phase with
      | bulk hbulk hempty => exact .bulk hbulk hempty
      | mutable hmut hlo => exact .mutable hmut hlo
  · cases hstep

/-- **The next block of the stream is sent.** -/
theorem inv_next {s : Pipeline} {height : Nat} (rest : Nat → List Byte) (h : Inv ch cfg src s)
    (hmode : s.mode = .streaming height) (htip : height + 1 ≤ s.tip) :
    Inv ch cfg src { s with
      mode := .streaming (height + 1)
      queue := s.queue ++ applyMessages ch cfg src [height + 1] true rest } := by
  obtain ⟨lo, a, pos, ok, hp⟩ := h
  have hpos : height = pos := by
    have := hp.mode
    rw [hmode] at this
    exact this
  subst hpos
  refine ⟨lo, a, height + 1, ok, hp.le, hp.tip, hp.bound, hp.log, ?_, rfl, ?_⟩
  · exact hp.queue.append (leads_applyMessages (n := 1) true rest htip)
  · cases hp.phase with
    | bulk hbulk hempty => exact .bulk hbulk hempty
    | mutable hmut hlo => exact .mutable hmut hlo

/-- **Storage applies a block.** -/
theorem inv_forward {s : Pipeline} {p : Point} {ops : List StorageAction} {mutable mempool : Bool}
    {queue : List StorageActionPayload} {w' : Worker} (hap : CursorApart ch cfg src.infoKey)
    (h : Inv ch cfg src s) (hqueue : s.queue = .rollForward p ops mutable mempool :: queue)
    (hexec : execute cfg (.rollForward p ops mutable mempool) s.worker = .ok () w') :
    Inv ch cfg src { s with queue := queue, worker := w', log := s.log ++ [p] } := by
  obtain ⟨lo, a, pos, ok, hp⟩ := h
  have hle := hp.le
  have hlead := hp.queue
  rw [hqueue] at hlead
  obtain ⟨htip, hblock, hrest⟩ := hlead
  have hbound := hp.bound
  have hlog : s.log ++ [p] = segment ch lo (a + 1 - lo) := by
    rw [show a + 1 - lo = (a - lo) + 1 by omega, segment_succ, ← hp.log, hblock.point,
      show lo + (a - lo) + 1 = a + 1 by omega]
  cases hp.phase with
  | bulk hbulk hempty =>
    cases mutable with
    | false =>
      obtain ⟨hbulk', hne⟩ := hbulk.forward hap (by omega) hblock hexec
      refine ⟨lo, a + 1, pos, _, by omega, htip, hp.bound, hlog, hrest, hp.mode, .bulk hbulk' ?_⟩
      intro hcontra
      rw [hne] at hcontra
      cases hcontra
    | true =>
      have hmut := hbulk.first hap (by omega) hblock hexec
      refine ⟨lo, a + 1, pos, _, by omega, htip, hp.bound, hlog, ?_, hp.mode, .mutable hmut (by omega)⟩
      exact hrest.mono (Nat.le_refl _) (fun r hr => hr.elim)
  | @mutable x hmut hlo =>
    have hmut' := hmut.forward hap (by omega) hblock hexec
    exact ⟨lo, a + 1, pos, _, by omega, htip, hp.bound, hlog, hrest, hp.mode, .mutable hmut' hlo⟩

/-- **Storage undoes blocks.** -/
theorem inv_back {s : Pipeline} {p : Point} {mutable : Bool} {queue : List StorageActionPayload}
    {w' : Worker} (h : Inv ch cfg src s) (hqueue : s.queue = .rollBack p mutable :: queue)
    (hexec : execute cfg (.rollBack p mutable) s.worker = .ok () w') :
    Inv ch cfg src { s with
      queue := queue, worker := w', log := s.log.take (s.log.length - undone s.worker p) } := by
  obtain ⟨lo, a, pos, ok, hp⟩ := h
  have hlead := hp.queue
  rw [hqueue] at hlead
  obtain ⟨r, rfl, hok, hrest⟩ := hlead
  cases hp.phase with
  | bulk hbulk hempty => exact hok.elim
  | @mutable x hmut hlo =>
    have hxr : x ≤ r := hok
    obtain ⟨hra, hundone, hmut'⟩ := hmut.back hxr hexec
    have htip := hp.tip
    refine ⟨lo, r, pos, _, by omega, by show r ≤ s.tip; omega, hp.bound, ?_, hrest hra, hp.mode,
      .mutable hmut' hlo⟩
    show s.log.take _ = _
    rw [hundone, hp.log]
    have hlen : (segment ch lo (a - lo)).length = a - lo := by simp [segment]
    rw [hlen, show a - lo - (a - r) = r - lo by omega]
    exact segment_take ch lo (a - lo) (r - lo) (by omega)

theorem inv_step {s s' : Pipeline} {e : Event} (hap : CursorApart ch cfg src.infoKey)
    (h : Inv ch cfg src s) (hsafe : e = .bootstrap → RestartSafe cfg src s)
    (hstep : Step ch cfg src e s s') : Inv ch cfg src s' := by
  cases hstep with
  | grow _ htip =>
    obtain ⟨lo, a, pos, ok, hp⟩ := h
    refine ⟨lo, a, pos, ok, hp.le, Nat.le_succ_of_le hp.tip, htip, hp.log,
      hp.queue.mono (Nat.le_succ _) (fun _ hr => hr), hp.mode, ?_⟩
    cases hp.phase with
    | bulk hbulk hempty => exact .bulk hbulk hempty
    | mutable hmut hlo => exact .mutable hmut hlo
  | bootstrap hboot => exact inv_bootstrap h (hsafe rfl) hboot
  | dump rest hmode hdump => exact inv_dump h hmode hdump
  | @stream _ cursor _ hmode hup hzone hfound =>
    obtain ⟨lo, a, pos, ok, hp⟩ := h
    have hpos := hp.mode
    rw [hmode] at hpos
    refine ⟨lo, a, pos, ok, hp.le, hp.tip, hp.bound, hp.log, hp.queue, hpos, ?_⟩
    cases hp.phase with
    | bulk hbulk hempty => exact .bulk hbulk hempty
    | mutable hmut hlo => exact .mutable hmut hlo
  | next rest hmode htip => exact inv_next rest h hmode htip
  | @storage _ unit queue w' hqueue hexec =>
    cases unit with
    | rollForward p ops mutable mempool => exact inv_forward hap h hqueue hexec
    | rollBack p mutable => exact inv_back h hqueue hexec

theorem PipelineRun.inv {s : Pipeline} (hap : CursorApart ch cfg src.infoKey)
    (h : PipelineRun ch cfg src (RestartSafe cfg src) s) : Inv ch cfg src s := by
  induction h with
  | start tip htip => exact inv_start htip
  | step _ hstep hsafe ih => exact inv_step hap ih hsafe hstep

/-- The applied blocks are a segment of the chain: each block once, in height order. -/
def AppliedOnce (ch : Chain) (log : List Point) : Prop :=
  ∃ lo, log = (List.range' (lo + 1) log.length).map ch.point

/-- **Each block is applied once, in height order**, in every interleaving of the source's and
the storage stage's steps whose restarts are safe. -/
theorem applied_once (ch : Chain) (cfg : Config) (src : Source)
    (hap : CursorApart ch cfg src.infoKey) (s : Pipeline)
    (hrun : PipelineRun ch cfg src (RestartSafe cfg src) s) : AppliedOnce ch s.log := by
  obtain ⟨lo, a, pos, ok, hp⟩ := hrun.inv hap
  refine ⟨lo, ?_⟩
  rw [hp.log]
  simp [segment]

end Runs

/-! ## Sample runs -/

section Samples

variable {ch : Chain} {cfg : Config} {src : Source} {allowed : Pipeline → Prop}

/-- One scheduler: a page while there are blocks on it, the stream afterwards. -/
def advance (ch : Chain) (cfg : Config) (src : Source) (s : Pipeline) : Event → Option Pipeline
  | .grow => if s.tip + 1 < 2 ^ 64 then some { s with tip := s.tip + 1 } else none
  | .bootstrap => bootstrap ch cfg src s
  | .schedule =>
    match s.mode with
    | .init => none
    | .dumping cursor =>
      if (pageHeights s.tip cursor src.maxItemsPerPage).isEmpty then
        match cursor, s.upstreamHeight with
        | some cursor, some height =>
          if cursor.height + IMMUTABLE_AFTER_BLOCKS ≥ height ∧ ch.found s.tip cursor = true then
            some { s with mode := .streaming cursor.height } else none
        | _, _ => none
      else dump ch cfg src s cursor (fun _ => [])
    | .streaming height =>
      if height + 1 ≤ s.tip then
        some { s with
          mode := .streaming (height + 1)
          queue := s.queue ++ applyMessages ch cfg src [height + 1] true (fun _ => []) }
      else none
  | .storage =>
    match s.queue with
    | [] => none
    | unit :: queue =>
      match execute cfg unit s.worker with
      | .ok _ w' => some { s with queue := queue, worker := w', log := logAfter s.worker s.log unit }
      | .error _ _ => none

theorem advance_step {s s' : Pipeline} {e : Event} (h : advance ch cfg src s e = some s') :
    Step ch cfg src e s s' := by
  cases e with
  | grow =>
    simp only [advance] at h
    split at h
    · rename_i htip
      cases h
      exact Step.grow s htip
    · cases h
  | bootstrap => exact Step.bootstrap h
  | schedule =>
    simp only [advance] at h
    split at h
    · cases h
    · rename_i cursor hmode
      split at h
      · split at h
        · rename_i cursor height hup _
          split at h
          · rename_i hzone
            cases h
            exact Step.stream hmode hup hzone.1 hzone.2
          · cases h
        · cases h
      · exact Step.dump _ hmode h
    · rename_i height hmode
      split at h
      · rename_i htip
        cases h
        exact Step.next _ hmode htip
      · cases h
  | storage =>
    simp only [advance] at h
    split at h
    · cases h
    · rename_i unit queue hqueue
      split at h
      · rename_i w' hexec
        cases h
        exact Step.storage hqueue hexec
      · cases h

/-- The scheduler over a list of events, with a test before each bootstrap. -/
def advanceAll (ch : Chain) (cfg : Config) (src : Source) (test : Pipeline → Bool) (s : Pipeline) :
    List Event → Option Pipeline
  | [] => some s
  | e :: es => if e = .bootstrap ∧ test s = false then none else
      (advance ch cfg src s e).bind fun s' => advanceAll ch cfg src test s' es

theorem advanceAll_run {test : Pipeline → Bool} (htest : ∀ s, test s = true → allowed s)
    {es : List Event} {s s' : Pipeline} (hrun : PipelineRun ch cfg src allowed s)
    (h : advanceAll ch cfg src test s es = some s') : PipelineRun ch cfg src allowed s' := by
  induction es generalizing s with
  | nil =>
    cases h
    exact hrun
  | cons e es ih =>
    unfold advanceAll at h
    split at h
    · cases h
    · rename_i hok
      obtain ⟨s₁, hs₁, hrest⟩ := Option.bind_eq_some_iff.mp h
      refine ih (hrun.step (advance_step hs₁) ?_) hrest
      intro he
      refine htest s ?_
      by_contra hfalse
      exact hok ⟨he, by simpa using hfalse⟩

def sampleChain : Chain := ⟨fun h => Fin.ofNat (2 ^ 256) h, fun _ => [.incrementU64 [5] 1]⟩

def sampleSource : Source := ⟨.origin, 2, [1]⟩

theorem sampleChain_cursorApart : CursorApart sampleChain sampleConfig sampleSource.infoKey := by
  refine ⟨?_, by decide⟩
  intro height a ha
  rw [List.mem_singleton.mp ha]
  decide

/-- The first two cases of `RestartSafe`. -/
def restartTest (s : Pipeline) : Bool :=
  (fetchPersistentBuffer s.worker.rollback).isSome ||
    (s.queue.isEmpty && s.worker.syncBatcher.isEmpty)

theorem restartSafe_of_test {s : Pipeline} (h : restartTest s = true) : RestartSafe cfg src s := by
  unfold restartTest at h
  rw [Bool.or_eq_true, Bool.and_eq_true, List.isEmpty_iff] at h
  rcases h with hbuf | hidle
  · exact Or.inl (Option.isSome_iff_ne_none.mp hbuf)
  · exact Or.inr (Or.inl hidle)

/-- Three bulk blocks and a mutable one; a restart while a fifth is queued, which is then applied,
rolled back and applied again. -/
def restartEvents : List Event :=
  [.bootstrap, .schedule, .schedule, .storage, .storage, .storage, .schedule, .grow, .schedule, .storage,
    .grow, .schedule, .bootstrap, .storage, .storage, .schedule, .storage]

/-- Five units are applied, each of them once. -/
theorem applied_once_rolled_back :
    ∃ s, PipelineRun sampleChain sampleConfig sampleSource (RestartSafe sampleConfig sampleSource) s ∧
      s.log.length = 5 ∧ AppliedOnce sampleChain s.log := by
  have hlen : (advanceAll sampleChain sampleConfig sampleSource restartTest
      (start sampleConfig 3) restartEvents).map (fun s => s.log.length) = some 5 := by decide +kernel
  obtain ⟨s, hs, hfive⟩ := Option.map_eq_some_iff.mp hlen
  have hrun : PipelineRun sampleChain sampleConfig sampleSource
      (RestartSafe sampleConfig sampleSource) s :=
    advanceAll_run (fun _ => restartSafe_of_test) (PipelineRun.start 3 (by decide)) hs
  exact ⟨s, hrun, hfive, applied_once _ _ _ sampleChain_cursorApart s hrun⟩

/-- A restart while block 2 is in the batcher: the committed cursor is at block 1, and block 2 is
sent and applied again. -/
theorem restart_applies_twice :
    ¬ ∀ (ch : Chain) (cfg : Config) (src : Source), CursorApart ch cfg src.infoKey →
      ∀ s, PipelineRun ch cfg src (fun _ => True) s → AppliedOnce ch s.log := by
  intro hall
  have hlog : (advanceAll sampleChain sampleConfig sampleSource (fun _ => true) (start sampleConfig 2)
      [.bootstrap, .schedule, .storage, .storage, .bootstrap, .schedule, .storage]).map Pipeline.log =
        some [⟨1, 1⟩, ⟨2, 2⟩, ⟨2, 2⟩] := by decide +kernel
  obtain ⟨s, hs, hthree⟩ := Option.map_eq_some_iff.mp hlog
  have hrun : PipelineRun sampleChain sampleConfig sampleSource (fun _ => True) s :=
    advanceAll_run (fun _ _ => trivial) (PipelineRun.start 2 (by decide)) hs
  obtain ⟨lo, hlo⟩ := hall _ _ _ sampleChain_cursorApart s hrun
  rw [hthree] at hlo
  have hheights : [1, 2, 2] = List.range' (lo + 1) 3 := by
    have := congrArg (List.map Point.height) hlo
    rw [List.map_map] at this
    simpa [Function.comp_def, Chain.point] using this
  simp [List.range'_succ] at hheights

end Samples

end DogeIndexer.Polyphony
