import DogeIndexer.Polyphony.Filled

/-!
# Live and stored points

The points of recent mutable blocks are held twice: in the worker's rollback buffer, which keeps a number of
points, and as metadata keys, which are kept for a range of heights.

* `Matches` — what the live buffer and the stored points have in common.
* `Points` — the buffer, the metadata table and the list that both stand for.
* `Retains` — when a mutable block leaves stored the points that stay live.
* `Kept` — the invariant of a worker, with its steps for blocks, rollbacks and restarts.
-/

set_option autoImplicit false

namespace DogeIndexer.Polyphony

open Effect

/-! ## Live and stored points -/

/-- The live points are the newest stored points, with the same inverses.  Only the oldest live
point may differ: the initial point stands live with no inverses, and the origin placeholder
is not stored at all. -/
def Matches : List Buffered → List Buffered → Prop
  | [], _ => True
  | a :: l, [] => a.point = originPoint ∧ a.result = [] ∧ l = []
  | a :: l, b :: s => a.point = b.point ∧
      (a.result = b.result ∨ a.result = [] ∧ b.result = [.delete []] ∧ l = [] ∧ s = []) ∧ Matches l s

namespace Matches

variable {l s : List Buffered}

theorem nil_left (s : List Buffered) : Matches [] s := by
  cases s <;> exact trivial

theorem refl : ∀ l : List Buffered, Matches l l
  | [] => trivial
  | _ :: l => ⟨rfl, Or.inl rfl, refl l⟩

theorem cons (h : Matches l s) (b : Buffered) : Matches (b :: l) (b :: s) := ⟨rfl, Or.inl rfl, h⟩

theorem take (h : Matches l s) (n : Nat) : Matches (l.take n) s := by
  induction l generalizing s n with
  | nil => rw [List.take_nil]; exact nil_left s
  | cons a l ih =>
    cases n with
    | zero => exact nil_left s
    | succ n =>
      cases s with
      | nil =>
        obtain ⟨ha, hr, rfl⟩ := h
        exact ⟨ha, hr, List.take_nil⟩
      | cons b s =>
        obtain ⟨hp, hr, hrest⟩ := h
        refine ⟨hp, ?_, ih hrest n⟩
        rcases hr with hr | ⟨hr, hb, rfl, hs⟩
        · exact Or.inl hr
        · exact Or.inr ⟨hr, hb, List.take_nil, hs⟩

theorem drop (h : Matches l s) (n : Nat) : Matches (l.drop n) (s.drop n) := by
  induction n generalizing l s with
  | zero => exact h
  | succ n ih =>
    cases l with
    | nil => rw [List.drop_nil]; exact nil_left _
    | cons a l =>
      cases s with
      | nil =>
        obtain ⟨-, -, rfl⟩ := h
        rw [List.drop_succ_cons, List.drop_nil]
        exact nil_left _
      | cons b s => exact ih h.2.2

/-- Stored points may be dropped as long as the live ones stay. -/
theorem filter (h : Matches l s) {P : Point → Bool} (hs : ∀ b ∈ s, b.point ≠ originPoint)
    (hl : ∀ a ∈ l, a.point ≠ originPoint → P a.point = true) :
    Matches l (s.filter (fun b => P b.point)) := by
  induction l generalizing s with
  | nil => exact nil_left _
  | cons a l ih =>
    cases s with
    | nil => exact h
    | cons b s =>
      obtain ⟨hp, hr, hrest⟩ := h
      have hb : P b.point = true := hp ▸ hl a List.mem_cons_self (hp ▸ hs b List.mem_cons_self)
      rw [List.filter_cons, if_pos hb]
      refine ⟨hp, ?_, ih hrest (fun c hc => hs c (List.mem_cons_of_mem _ hc))
        (fun c hc => hl c (List.mem_cons_of_mem _ hc))⟩
      rcases hr with hr | ⟨hr, hres, hnil, rfl⟩
      · exact Or.inl hr
      · exact Or.inr ⟨hr, hres, hnil, rfl⟩

/-- Above a live point the live and the stored points are the same. -/
theorem take_eq (h : Matches l s) {n : Nat} (hn : n < l.length) : l.take n = s.take n := by
  induction n generalizing l s with
  | zero => rfl
  | succ n ih =>
    cases l with
    | nil => cases hn
    | cons a l =>
      have hlen : n < l.length := by simpa using hn
      cases s with
      | nil =>
        obtain ⟨-, -, rfl⟩ := h
        cases hlen
      | cons b s =>
        obtain ⟨hp, hr, hrest⟩ := h
        have hab : a = b := by
          rcases hr with hr | ⟨-, -, rfl, -⟩
          · obtain ⟨pa, ra⟩ := a
            obtain ⟨pb, rb⟩ := b
            simp only at hp hr
            rw [hp, hr]
          · cases hlen
        rw [List.take_succ_cons, List.take_succ_cons, ih hrest hlen, hab]

/-- A live point is the origin placeholder, below everything stored, or is stored at its place. -/
theorem stored_point (h : Matches l s) {n : Nat} {a : Buffered} (ha : l[n]? = some a) :
    a.point = originPoint ∧ s.length ≤ n ∨
      ∃ b, s[n]? = some b ∧ b.point = a.point ∧
        (b.result = a.result ∨ a.result = [] ∧ b.result = [.delete []] ∧ n + 1 = l.length) := by
  induction l generalizing s n with
  | nil => cases ha
  | cons c l ih =>
    cases s with
    | nil =>
      obtain ⟨hc, -, rfl⟩ := h
      cases n with
      | zero =>
        cases ha
        exact Or.inl ⟨hc, Nat.le_refl _⟩
      | succ n => cases ha
    | cons b s =>
      obtain ⟨hp, hr, hrest⟩ := h
      cases n with
      | zero =>
        cases ha
        refine Or.inr ⟨b, rfl, hp.symm, ?_⟩
        rcases hr with hr | ⟨hr, hb, rfl, -⟩
        · exact Or.inl hr.symm
        · exact Or.inr ⟨hr, hb, rfl⟩
      | succ n =>
        rcases ih hrest (by simpa using ha) with ⟨horigin, hlen⟩ | ⟨b', hb', hpoint, hres⟩
        · exact Or.inl ⟨horigin, by simpa using hlen⟩
        · refine Or.inr ⟨b', by simpa using hb', hpoint, ?_⟩
          rcases hres with hres | ⟨hres, hdel, hlen⟩
          · exact Or.inl hres
          · exact Or.inr ⟨hres, hdel, by simp [hlen]⟩

end Matches

/-! ## The two stores of points -/

/-- With descending heights, the points down to a height are the first ones. -/
theorem filter_eq_takeWhile {l : List Buffered} (bound : Nat)
    (hd : l.Pairwise (fun a b => b.point.height < a.point.height)) :
    l.filter (fun b => bound ≤ b.point.height) = l.takeWhile (fun b => bound ≤ b.point.height) := by
  induction l with
  | nil => rfl
  | cons a l ih =>
    obtain ⟨ha, hd⟩ := List.pairwise_cons.mp hd
    by_cases hb : bound ≤ a.point.height
    · rw [List.filter_cons, List.takeWhile_cons]
      simp only [hb, decide_true, if_true]
      rw [ih hd]
    · rw [List.filter_cons, List.takeWhile_cons]
      simp only [hb, decide_false, Bool.false_eq_true, if_false]
      refine List.filter_eq_nil_iff.mpr (fun c hc => ?_)
      have := ha c hc
      simp only [decide_eq_true_eq]
      omega

/-- A filter that keeps the elements from an index on. -/
theorem filter_eq_drop {α : Type} {l : List α} {P : α → Bool} {n : Nat}
    (h : ∀ i a, l[i]? = some a → (P a = true ↔ n ≤ i)) : l.filter P = l.drop n := by
  conv_lhs => rw [← List.take_append_drop n l]
  rw [List.filter_append]
  have hfirst : (l.take n).filter P = [] := by
    refine List.filter_eq_nil_iff.mpr (fun a ha => ?_)
    obtain ⟨i, hi⟩ := List.mem_iff_getElem?.mp ha
    rw [List.getElem?_take] at hi
    split at hi
    · rw [h i a hi]
      omega
    · cases hi
  have hrest : (l.drop n).filter P = l.drop n := by
    refine List.filter_eq_self.mpr (fun a ha => ?_)
    obtain ⟨i, hi⟩ := List.mem_iff_getElem?.mp ha
    rw [List.getElem?_drop] at hi
    exact (h (n + i) a hi).mpr (by omega)
  rw [hfirst, hrest, List.nil_append]

/-- The table holds `stack`, of which the buffer has the newest points. -/
structure Points (size : Nat) (rollback : Table MetadataKey Value)
    (buffer : RollbackBuffer (List StorageAction)) (stack : List Buffered) : Prop where
  stored : Stored rollback stack
  positive : ∀ b ∈ stack, 1 ≤ b.point.height
  matched : Matches buffer.blocks stack
  room : buffer.size = size
  short : buffer.blocks.length ≤ size
  empty : buffer.blocks = [] → stack = []

namespace Points

variable {size : Nat} {rollback rollback' : Table MetadataKey Value} {stack : List Buffered}
  {buffer : RollbackBuffer (List StorageAction)}

theorem ne_originPoint {p : Point} (h : 1 ≤ p.height) : p ≠ originPoint := by
  rintro rfl
  cases h

/-- Nothing stored is above the newest live point. -/
theorem height_lt (h : Points size rollback buffer stack) {height : Nat}
    (hlive : ∀ a ∈ buffer.blocks, a.point.height < height) : ∀ b ∈ stack, b.point.height < height := by
  intro b hb
  cases hblocks : buffer.blocks with
  | nil =>
    rw [h.empty hblocks] at hb
    cases hb
  | cons a l =>
    have hm := h.matched
    have hd := h.stored.descending
    rw [hblocks] at hm hlive
    cases stack with
    | nil => cases hb
    | cons c s =>
      have hc : c.point.height < height := hm.1 ▸ hlive a List.mem_cons_self
      rcases List.mem_cons.mp hb with rfl | hb
      · exact hc
      · exact Nat.lt_trans ((List.pairwise_cons.mp hd).1 b hb) hc

/-- **A block is added on top.** -/
theorem push (h : Points size rollback buffer stack) (hsize : 0 < size) {b : Buffered} (hinv : Invertible b.result)
    (hpos : 1 ≤ b.point.height) (habove : ∀ a ∈ buffer.blocks, a.point.height < b.point.height)
    (hrb : applyStorageRbActions rollback b.result b.point.height b.point.hash = some rollback') :
    Points size rollback' (buffer.addBlock b.point b.result) (b :: stack) where
  stored := h.stored.push hinv (h.height_lt habove) hrb
  positive := by
    intro c hc
    rcases List.mem_cons.mp hc with rfl | hc
    · exact hpos
    · exact h.positive c hc
  matched := (h.matched.cons b).take _
  room := h.room
  short := by
    simp only [RollbackBuffer.addBlock, List.length_take, h.room]
    omega
  empty := by
    intro hnil
    simp only [RollbackBuffer.addBlock, List.take_eq_nil_iff, reduceCtorEq, or_false, h.room] at hnil
    omega

/-- **The initial point** goes into both, with the placeholder delete; the origin into the buffer
only. -/
theorem initial (h : Points size rollback buffer stack) (hsize : 0 < size) (hnil : buffer.blocks = [])
    {lastProcessed : Option Point} (hpos : ∀ q, lastProcessed = some q → 1 ≤ q.height)
    (hinit : initRollback lastProcessed rollback = some rollback') :
    ∃ base, Points size rollback' (buffer.addBlock (lastProcessed.getD originPoint) []) base := by
  obtain rfl := h.empty hnil
  have hblocks : (buffer.addBlock (lastProcessed.getD originPoint) []).blocks =
      [⟨lastProcessed.getD originPoint, []⟩] := by
    simp only [RollbackBuffer.addBlock, hnil, h.room]
    exact List.take_of_length_le hsize
  have hne : (buffer.addBlock (lastProcessed.getD originPoint) []).blocks ≠ [] := by
    rw [hblocks]
    simp
  have hshort : (buffer.addBlock (lastProcessed.getD originPoint) []).blocks.length ≤ size := by
    rw [hblocks]
    exact hsize
  cases lastProcessed with
  | none =>
    cases hinit
    exact ⟨[], h.stored, h.positive, by rw [hblocks]; exact ⟨rfl, rfl, rfl⟩, h.room, hshort,
      fun hnil' => absurd hnil' hne⟩
  | some q =>
    have hstored : Stored rollback' [⟨q, [.delete []]⟩] :=
      h.stored.push ⟨by simp, by simp [StorageAction.isInverse], by simp⟩ (by simp) hinit
    refine ⟨_, hstored, ?_, ?_, h.room, hshort, fun hnil' => absurd hnil' hne⟩
    · intro b hb
      rw [List.mem_singleton.mp hb]
      exact hpos q rfl
    · rw [hblocks]
      exact ⟨rfl, Or.inr ⟨rfl, rfl, rfl, rfl⟩, trivial⟩

/-- **Removing heights at which nothing is live.** -/
theorem removed (h : Points size rollback buffer stack) {done : List Nat}
    (hdone : ∀ a ∈ buffer.blocks, a.point ≠ originPoint → a.point.height ∉ done) :
    Points size (done.foldl removeHeight rollback) buffer (stack.filter (fun b => b.point.height ∉ done)) where
  stored := h.stored.filter _ (fun n => n ∉ done) (fun k => by
    rw [get_foldl_removeHeight]
    by_cases hk : k.height ∈ done <;> simp [hk])
  positive := fun b hb => h.positive b (List.mem_of_mem_filter hb)
  matched := h.matched.filter (P := fun p => p.height ∉ done) (fun b hb => ne_originPoint (h.positive b hb))
    (fun a ha hne => by simpa using hdone a ha hne)
  room := h.room
  short := h.short
  empty := fun hnil => by rw [h.empty hnil]; rfl

/-- What is stored at or below a live point. -/
theorem height_le_iff (h : Points size rollback buffer stack) {pos i : Nat} {a b : Buffered}
    (ha : buffer.blocks[pos]? = some a) (hb : stack[i]? = some b) : b.point.height ≤ a.point.height ↔ pos ≤ i := by
  have hlt := List.getElem?_eq_some_iff.mp hb
  rcases h.matched.stored_point ha with ⟨horigin, hlen⟩ | ⟨c, hc, hpoint, -⟩
  · have hpos := h.positive b (List.mem_of_getElem? hb)
    have hi := hlt.1
    rw [horigin]
    show b.point.height ≤ 0 ↔ pos ≤ i
    omega
  · have hd : ∀ {i j : Nat} {x y : Buffered}, stack[i]? = some x → stack[j]? = some y → i < j →
        y.point.height < x.point.height := by
      intro i j x y hx hy hij
      obtain ⟨hi, rfl⟩ := List.getElem?_eq_some_iff.mp hx
      obtain ⟨hj, rfl⟩ := List.getElem?_eq_some_iff.mp hy
      exact List.pairwise_iff_getElem.mp h.stored.descending i j hi hj hij
    rw [← hpoint]
    rcases Nat.lt_trichotomy pos i with hlt | rfl | hgt
    · have := hd hc hb hlt
      omega
    · rw [hb] at hc
      cases hc
      simp
    · have := hd hb hc hgt
      omega

/-- The points above a live point are the first ones. -/
theorem filter_eq (h : Points size rollback buffer stack) {pos : Nat} {a : Buffered}
    (ha : buffer.blocks[pos]? = some a) :
    stack.filter (fun b => b.point.height ≤ a.point.height) = stack.drop pos :=
  filter_eq_drop (fun i b hb => by
    rw [decide_eq_true_eq]
    exact h.height_le_iff ha hb)

/-- **A rollback drops the points above its point.** -/
theorem back (h : Points size rollback buffer stack) {pos : Nat} {a : Buffered}
    (ha : buffer.blocks[pos]? = some a)
    (hget : ∀ k, rollback'.get k = if k.height > a.point.height then none else rollback.get k) :
    Points size rollback' { buffer with blocks := buffer.blocks.drop pos } (stack.drop pos) where
  stored := by
    have hfilter := h.stored.filter rollback' (fun n => n ≤ a.point.height) (fun k => by
      rw [hget]
      by_cases hk : k.height > a.point.height
      · rw [if_pos hk, if_neg (by simpa using hk)]
      · rw [if_neg hk, if_pos (by simpa using hk)])
    rw [h.filter_eq ha] at hfilter
    exact hfilter
  positive := fun b hb => h.positive b (List.mem_of_mem_drop hb)
  matched := h.matched.drop pos
  room := h.room
  short := by
    have := h.short
    simp only [List.length_drop]
    omega
  empty := by
    intro hnil
    have hlen := (List.getElem?_eq_some_iff.mp ha).1
    simp only [List.drop_eq_nil_iff] at hnil
    omega

end Points

/-! ## The invariant -/

/-- What a mutable block is pushed onto: the live points, or the initial point. -/
def under (w : Worker) : List Buffered :=
  if w.rollbackBuffer.isEmpty then [⟨w.lastProcessed.getD originPoint, []⟩] else w.rollbackBuffer.blocks

/-- The mutable block leaves its point, and the points that stay live, stored: it stands above
them, garbage collection reaches none of them, and it changes a stored value. -/
structure Retains (cfg : Config) (w : Worker) (p : Point) (ops : List StorageAction) : Prop where
  above : ∀ b ∈ under w, b.point.height < p.height
  within : ∀ b ∈ (under w).take (cfg.bufferSize - 1), b.point ≠ originPoint →
    p.height ≤ b.point.height + cfg.bufferSize
  changes : ∀ actions ∈ blockActions cfg ops, ∃ a ∈ actions, a.isRedundant (flushedReading cfg w a.key) = false

instance (cfg : Config) (w : Worker) (p : Point) (ops : List StorageAction) : Decidable (Retains cfg w p ops) :=
  decidable_of_iff ((∀ b ∈ under w, b.point.height < p.height) ∧
    (∀ b ∈ (under w).take (cfg.bufferSize - 1), b.point ≠ originPoint →
      p.height ≤ b.point.height + cfg.bufferSize) ∧
    ∀ actions ∈ blockActions cfg ops, ∃ a ∈ actions, a.isRedundant (flushedReading cfg w a.key) = false)
    ⟨fun h => ⟨h.1, h.2.1, h.2.2⟩, fun h => ⟨h.above, h.within, h.changes⟩⟩

/-- The buffer and the table hold the same points; a buffer without room holds none. -/
inductive Held (size : Nat) (rollback : Table MetadataKey Value) (buffer : RollbackBuffer (List StorageAction))
    (stack : List Buffered) : Prop
  | nothing (hsize : size = 0) (hroom : buffer.size = 0) (hnil : buffer.blocks = [])
  | points (hsize : 0 < size) (h : Points size rollback buffer stack)

/-- What holds along a run: no empty value is stored, the live points are `live`, and they are stored. -/
structure Kept (cfg : Config) (live : Point → Prop) (stack : List Buffered) (w : Worker) : Prop where
  held : Held cfg.bufferSize w.rollback w.rollbackBuffer stack
  blocks : ∀ a ∈ w.rollbackBuffer.blocks, live a.point
  initial : w.rollbackBuffer.blocks = [] → ∀ q, w.lastProcessed = some q → 1 ≤ q.height
  sound : Sound w.data w.syncBatcher

theorem bufferAfter_blocks (w : Worker) (p : Point) (inverseOps : List StorageAction) :
    (bufferAfter w p inverseOps).blocks = ((⟨p, inverseOps⟩ : Buffered) :: under w).take w.rollbackBuffer.size := by
  unfold bufferAfter under
  split
  · rename_i hempty
    have hnil : w.rollbackBuffer.blocks = [] := by simpa [RollbackBuffer.isEmpty] using hempty
    simp only [RollbackBuffer.addBlock, hnil]
    cases w.rollbackBuffer.size <;> simp
  · rfl

namespace Held

variable {size : Nat} {rollback rollback' : Table MetadataKey Value} {stack : List Buffered}
  {buffer : RollbackBuffer (List StorageAction)}

theorem room (h : Held size rollback buffer stack) : buffer.size = size := by
  cases h with
  | nothing hsize hroom _ => rw [hroom, hsize]
  | points _ h => exact h.room

/-- **A mutable block is added on top** of the live points, or of the initial point. -/
theorem push {cfg : Config} {w : Worker} (h : Held cfg.bufferSize w.rollback w.rollbackBuffer stack)
    (hinitial : w.rollbackBuffer.blocks = [] → ∀ q, w.lastProcessed = some q → 1 ≤ q.height) {p : Point}
    (hp : 1 ≤ p.height) (habove : ∀ b ∈ under w, b.point.height < p.height) {inverseOps : List StorageAction}
    (hinv : Invertible inverseOps) {ops : List StorageAction} {before after : Store}
    (hcommit : BlockCommit cfg (if w.rollbackBuffer.isEmpty then some w.lastProcessed else none) p ops before after
      w.rollback rollback' inverseOps) :
    ∃ stack', Held cfg.bufferSize rollback' (bufferAfter w p inverseOps) stack' := by
  cases h with
  | nothing hsize hroom hnil =>
    refine ⟨stack, .nothing hsize ?_ ?_⟩
    · unfold bufferAfter
      split <;> exact hroom
    · rw [bufferAfter_blocks, hroom, List.take_zero]
  | points hsize h =>
    obtain ⟨rollback₁, hinit, hrb⟩ := hcommit.metadata
    unfold bufferAfter
    cases hempty : w.rollbackBuffer.isEmpty with
    | true =>
      have hnil : w.rollbackBuffer.blocks = [] := by simpa [RollbackBuffer.isEmpty] using hempty
      simp only [hempty, if_true] at hinit ⊢
      obtain ⟨base, hbase⟩ := h.initial hsize hnil (hinitial hnil) hinit
      refine ⟨_, .points hsize (hbase.push (b := ⟨p, inverseOps⟩) hsize hinv hp ?_ hrb)⟩
      intro a ha
      refine habove a ?_
      unfold under
      rw [if_pos hempty]
      simp only [RollbackBuffer.addBlock, hnil] at ha
      exact List.mem_of_mem_take ha
    | false =>
      simp only [hempty, Bool.false_eq_true, if_false] at hinit ⊢
      cases hinit
      refine ⟨_, .points hsize (h.push (b := ⟨p, inverseOps⟩) hsize hinv hp ?_ hrb)⟩
      intro a ha
      refine habove a ?_
      unfold under
      rw [if_neg (by simp [hempty])]
      exact ha

theorem removed (h : Held size rollback buffer stack) {done : List Nat}
    (hdone : ∀ a ∈ buffer.blocks, a.point ≠ originPoint → a.point.height ∉ done) :
    ∃ stack', Held size (done.foldl removeHeight rollback) buffer stack' := by
  cases h with
  | nothing hsize hroom hnil => exact ⟨stack, .nothing hsize hroom hnil⟩
  | points hsize h => exact ⟨_, .points hsize (h.removed hdone)⟩

end Held

section Steps

variable {cfg : Config} {w w' : Worker} {stack : List Buffered} {p : Point} {ops : List StorageAction}
  {unit : StorageActionPayload} {live : Point → Prop}

theorem Kept.indifferent : Indifferent (Kept cfg live stack) where
  faults := fun _ _ h => ⟨h.held, h.blocks, h.initial, h.sound⟩
  filled := fun _ h => h.sound.filled
  data := fun _ _ h hview => ⟨h.held, h.blocks, h.initial, hview, h.sound.wellKeyed, h.sound.pending⟩

theorem Kept.registered (w : Worker) (b : Bool) (h : Kept cfg live stack w) :
    Kept cfg live stack { w with registered := b } := ⟨h.held, h.blocks, h.initial, h.sound⟩

theorem Kept.pushBlock (hops : ∀ a ∈ ops, a.isFilled = true) :
    Keeps (Kept cfg live stack) (pushBlock cfg ops) := by
  refine Keeps.get_bind fun w hw => endState_bind (fun e s h => ?_) (fun b s h => ?_)
  · rw [(orPanic_error h).2]
    exact hw
  · obtain ⟨hpush, rfl⟩ := orPanic_ok h
    exact ⟨hw.held, hw.blocks, hw.initial, hw.sound.push hops hpush⟩

/-- **A bulk block** leaves the points as they are. -/
theorem Kept.bulk (hops : ∀ a ∈ ops, a.isFilled = true) (hp : 1 ≤ p.height) :
    Keeps (Kept cfg live stack) (rollForwardBulk cfg unit p ops) := by
  refine Keeps.get_bind fun w hw => ?_
  split
  · obtain ⟨hn, hfilled⟩ := hw.sound.batch cfg.order
    refine Keeps.bind (Keeps.modify fun v hv => ⟨hv.held, hv.blocks, hv.initial, hv.sound⟩) (fun _ => ?_) w hw
    refine Keeps.bind (flushBatch_keeps Kept.indifferent hn hfilled) (fun _ => ?_)
    refine Keeps.bind (Keeps.modify fun v hv => ⟨hv.held, hv.blocks, ?_, hv.sound⟩) (fun _ => ?_)
    · rintro - q ⟨rfl⟩
      exact hp
    refine Keeps.bind (maybeAdvertise_keeps Kept.indifferent.faults Kept.registered) (fun _ => ?_)
    refine Keeps.bind (Keeps.modify fun v hv => ⟨hv.held, hv.blocks, hv.initial, hv.sound.wipe⟩) (fun _ => ?_)
    exact Kept.pushBlock hops
  · exact Kept.pushBlock hops w hw

theorem Kept.flushRemaining : Keeps (Kept cfg live stack) (flushRemaining cfg) := by
  refine Keeps.get_bind fun w hw => ?_
  obtain ⟨hn, hfilled⟩ := hw.sound.batch cfg.order
  refine whenM_keeps (Keeps.bind (applyStaggeredActions_keeps Kept.indifferent hn hfilled) fun _ => ?_) w hw
  exact Keeps.modify fun v hv => ⟨hv.held, hv.blocks, hv.initial, hv.sound.wipe⟩

/-- A transaction that is not committed changes nothing. -/
theorem commitMutable_error {firstMutable : Bool} {e : Error}
    (h : commitMutable cfg firstMutable p ops w = .error e w') : ∃ faults, w' = { w with faults := faults } := by
  rcases bind_eq_error.mp h with h | ⟨_, w₁, h₁, h₂⟩
  · exact (call_error h).2
  obtain ⟨f₁, rfl⟩ := call_ok h₁
  -- the panics leave what the call before them left
  rcases bind_eq_error.mp h₂ with h | ⟨merger, w₂, h₃, h₄⟩
  · exact ⟨f₁, (orPanic_error h).2⟩
  obtain ⟨-, rfl⟩ := orPanic_ok h₃
  rw [get_bind] at h₄
  rcases bind_eq_error.mp h₄ with h | ⟨⟨view, inverses⟩, w₃, h₅, h₆⟩
  · exact ⟨f₁, (orPanic_error h).2⟩
  obtain ⟨-, rfl⟩ := orPanic_ok h₅
  rcases bind_eq_error.mp h₆ with h | ⟨inverseOps, w₄, h₇, h₈⟩
  · exact ⟨f₁, (orPanic_error h).2⟩
  obtain ⟨-, rfl⟩ := orPanic_ok h₇
  rcases bind_eq_error.mp h₈ with h | ⟨rollback, w₅, h₉, h₁₀⟩
  · exact ⟨f₁, (orPanic_error h).2⟩
  obtain ⟨-, rfl⟩ := orPanic_ok h₉
  rcases bind_eq_error.mp h₁₀ with h | ⟨rollback', w₆, h₁₁, h₁₂⟩
  · exact ⟨f₁, (orPanic_error h).2⟩
  obtain ⟨-, rfl⟩ := orPanic_ok h₁₁
  rcases bind_eq_error.mp h₁₂ with h | ⟨_, w₇, -, h₁₄⟩
  · obtain ⟨-, f₂, rfl⟩ := call_error h
    exact ⟨f₂, rfl⟩
  rw [modify_bind] at h₁₄
  exact absurd h₁₄ pure_ne_error

/-- Garbage collection removes some of the heights that the bound leaves out. -/
theorem garbageCollect_end (cfg : Config) (w : Worker) (bHeight : Nat) :
    ∃ (done : List Nat) (faults : List Bool), (∀ height ∈ done, height + cfg.bufferSize < bHeight) ∧
      endState (garbageCollectRollbackMetadata cfg bHeight w) =
        { w with rollback := done.foldl removeHeight w.rollback, faults := faults } := by
  have hheights : ∀ height ∈ metadataHeights w.rollback (· < bHeight - cfg.bufferSize),
      height + cfg.bufferSize < bHeight := by
    intro height hheight
    have hlt := (List.mem_filter.mp (List.mem_dedup.mp hheight)).2
    simp only [decide_eq_true_eq] at hlt
    omega
  unfold garbageCollectRollbackMetadata whenM
  split
  · rw [get_bind]
    cases hrun : removeHeights (metadataHeights w.rollback (· < bHeight - cfg.bufferSize)) w with
    | ok u w' =>
      obtain ⟨faults, rfl⟩ := removeHeights_ok hrun
      exact ⟨_, faults, hheights, rfl⟩
    | error e w' =>
      obtain ⟨done, faults, hdone, rfl⟩ := removeHeights_error hrun
      exact ⟨done, faults, fun height hheight => hheights height (hdone.subset hheight), rfl⟩
  · exact ⟨[], w.faults, fun height hheight => absurd hheight List.not_mem_nil, rfl⟩

/-- The inverses of a block on a filled store can be stored. -/
theorem BlockCommit.invertible {initial : Option (Option Point)} {before after : Store}
    {rollback rollback' : Table MetadataKey Value} {inverseOps : List StorageAction}
    (h : BlockCommit cfg initial p ops before after rollback rollback' inverseOps)
    (hops : ∀ a ∈ ops, a.isFilled = true) (hbefore : FilledStore before)
    (hchanges : ∀ actions ∈ blockActions cfg ops, ∃ a ∈ actions, a.isRedundant (before.get a.key) = false) :
    FilledStore after ∧ Invertible inverseOps := by
  obtain ⟨actions, hactions, happ⟩ := h.actions
  have hn := blockActions_nodup hactions
  have hfilled : ∀ a ∈ actions, a.isFilled = true := by
    obtain ⟨merger, hpush, rfl⟩ := Option.map_eq_some_iff.mp hactions
    rw [SyncBatcher.pushActions_eq_run] at hpush
    obtain ⟨held, hheld, rfl⟩ := Option.map_eq_some_iff.mp hpush
    intro a ha
    obtain ⟨k, hk⟩ := mem_values.mp ha
    exact mergeAll_isFilled hheld (fun k a hk => by cases hk) hops k a hk
  obtain ⟨a, ha, hchange⟩ := hchanges actions hactions
  rw [applyActions_mutable cfg.checks hn] at happ
  obtain ⟨view, hrun, heq⟩ := Option.map_eq_some_iff.mp happ
  cases heq
  refine ⟨?_, ?_, ?_, inverses_nodup hn⟩
  · exact Keyed.run_forall (P := ReadsOnly (· ≠ []))
      (fun a ha o o' ho heff => effectWithInverse_filled (hfilled a ha) ho heff) hrun hbefore
  · cases hi : a.inverseAt (before.get a.key) with
    | none =>
      rw [inverseAt_eq_none_iff.mp hi] at hchange
      cases hchange
    | some i => exact List.ne_nil_of_mem (List.mem_filterMap.mpr ⟨a, ha, hi⟩)
  · intro i hi
    obtain ⟨b, -, hb⟩ := List.mem_filterMap.mp hi
    exact inverseAt_isInverse (hbefore b.key) hb

/-- **A mutable block**, wherever it fails, keeps the live points stored. -/
theorem Kept.forward (h : Kept cfg live stack w) (hlive : ∀ q : Point, 1 ≤ q.height → live q)
    (hunder : ∀ b ∈ (under w).take (cfg.bufferSize - 1), live b.point) (hops : ∀ a ∈ ops, a.isFilled = true)
    (hp : 1 ≤ p.height) (hret : Retains cfg w p ops) :
    ∃ stack', Kept cfg live stack' (endState (rollForwardMutable cfg unit p ops w)) := by
  have h₀ : Kept cfg live stack { w with workUnit2pc := some unit } := ⟨h.held, h.blocks, h.initial, h.sound⟩
  unfold rollForwardMutable
  rw [get_bind, modify_bind]
  refine endState_bind (Q := fun v => ∃ stack', Kept cfg live stack' v) (fun e s hs => ⟨stack, ?_⟩)
    (fun _ v hv => ?_)
  · have hkeeps := Kept.flushRemaining _ h₀
    rw [hs] at hkeeps
    exact hkeeps
  have hflushed : Kept cfg live stack v := by
    have hkeeps := Kept.flushRemaining _ h₀
    rw [hv] at hkeeps
    exact hkeeps
  have hread : ∀ k, v.data.get k = flushedReading cfg w k := fun k =>
    flushRemaining_get (w := { w with workUnit2pc := some unit }) h.sound.wellKeyed hv k
  obtain ⟨before, batcher, f₁, rfl, -, -⟩ := flushRemaining_ok hv
  refine endState_bind (Q := fun v => ∃ stack', Kept cfg live stack' v) (fun e s hs => ⟨stack, ?_⟩)
    (fun inverseOps v hs => ?_)
  · obtain ⟨f₂, rfl⟩ := commitMutable_error hs
    exact ⟨hflushed.held, hflushed.blocks, hflushed.initial, hflushed.sound⟩
  obtain ⟨after, rollback, f₂, hcommit, rfl⟩ := commitMutable_ok hs
  obtain ⟨hafter, hinv⟩ := hcommit.invertible hops hflushed.sound.filled (fun actions hactions => by
    obtain ⟨a, ha, hchange⟩ := hret.changes actions hactions
    exact ⟨a, ha, by rw [hread]; exact hchange⟩)
  obtain ⟨stack', hheld⟩ := h.held.push h.initial hp hret.above hinv hcommit
  have hwhen : whenM w.rollbackBuffer.isEmpty (modify fun w => { w with
      rollbackBuffer := w.rollbackBuffer.addBlock (w.lastProcessed.getD originPoint) [] })
      { w with workUnit2pc := none, data := after, rollback := rollback, syncBatcher := batcher, faults := f₂ } =
        .ok () { w with
          workUnit2pc := none, data := after, rollback := rollback, syncBatcher := batcher, faults := f₂,
          rollbackBuffer := if w.rollbackBuffer.isEmpty then
            w.rollbackBuffer.addBlock (w.lastProcessed.getD originPoint) [] else w.rollbackBuffer } := by
    unfold whenM
    split
    · rfl
    · rfl
  rw [modify_bind, bind_of_ok hwhen, modify_bind]
  have hblocks := bufferAfter_blocks w p inverseOps
  have hmem : ∀ a ∈ (bufferAfter w p inverseOps).blocks,
      a.point = p ∨ a ∈ (under w).take (cfg.bufferSize - 1) := by
    intro a ha
    rw [hblocks, h.held.room] at ha
    cases hsize : cfg.bufferSize with
    | zero =>
      rw [hsize] at ha
      cases ha
    | succ n =>
      rw [hsize, List.take_succ_cons] at ha
      rcases List.mem_cons.mp ha with rfl | ha
      · exact Or.inl rfl
      · exact Or.inr ha
  have hkept : ∀ registered faults, Kept cfg live stack' { w with
      workUnit2pc := none, data := after, rollback := rollback, syncBatcher := batcher, lastProcessed := some p,
      rollbackBuffer := bufferAfter w p inverseOps, registered := registered, faults := faults } := by
    intro registered faults
    refine ⟨hheld, fun a ha => ?_, ?_, hafter, hflushed.sound.wellKeyed, hflushed.sound.pending⟩
    · rcases hmem a ha with hpoint | ha
      · rw [hpoint]
        exact hlive p hp
      · exact hunder a ha
    · rintro - q ⟨rfl⟩
      exact hp
  refine endState_bind (Q := fun v => ∃ stack', Kept cfg live stack' v) (fun e s hs => ⟨stack', ?_⟩)
    (fun _ v hs => ?_)
  · obtain ⟨f₃, rfl⟩ := recordTimestamp_error hs
    exact hkept _ _
  obtain ⟨registered, f₃, rfl⟩ := recordTimestamp_ok hs
  obtain ⟨done, f₄, hdone, hend⟩ := garbageCollect_end cfg { w with
      workUnit2pc := none, data := after, rollback := rollback, syncBatcher := batcher, lastProcessed := some p,
      rollbackBuffer := bufferAfter w p inverseOps, registered := registered, faults := f₃ } p.height
  obtain ⟨stack₁, hremoved⟩ : ∃ stack₁, Held cfg.bufferSize (done.foldl removeHeight rollback) (bufferAfter w p inverseOps)
      stack₁ := by
    refine hheld.removed fun a ha hne hin => ?_
    have hbound := hdone _ hin
    rcases hmem a ha with hpoint | ha
    · rw [hpoint] at hbound
      omega
    · have := hret.within a ha hne
      omega
  have hk := hkept registered f₄
  refine ⟨stack₁, ?_⟩
  have hfinal : Kept cfg live stack₁ { w with
      workUnit2pc := none, data := after, rollback := done.foldl removeHeight rollback, syncBatcher := batcher,
      lastProcessed := some p, rollbackBuffer := bufferAfter w p inverseOps, registered := registered,
      faults := f₄ } := ⟨hremoved, hk.blocks, hk.initial, hk.sound⟩
  rw [← hend] at hfinal
  exact hfinal

/-- **A block is delivered**: whatever calls fail, the invariant is kept. -/
theorem Kept.deliver (h : Kept cfg live stack w) (hlive : ∀ q : Point, 1 ≤ q.height → live q)
    (hops : ∀ a ∈ ops, a.isFilled = true) (hp : 1 ≤ p.height) {mutable mempool : Bool} (faults : List Bool)
    (hmutable : (w.mutable || mutable) = true →
      Retains cfg w p ops ∧ ∀ b ∈ (under w).take (cfg.bufferSize - 1), live b.point) :
    ∃ stack', Kept cfg live stack'
      (endState (execute cfg (.rollForward p ops mutable mempool) { w with faults := faults })) := by
  have h₀ : Kept cfg live stack { w with faults := faults, mutable := w.mutable || mutable } :=
    ⟨h.held, h.blocks, h.initial, h.sound⟩
  cases hmut : w.mutable || mutable with
  | true =>
    obtain ⟨hret, hunder⟩ := hmutable hmut
    rw [execute_forward_mutable (w := { w with faults := faults }) hmut]
    exact h₀.forward hlive hunder hops hp ⟨hret.above, hret.within, hret.changes⟩
  | false =>
    refine ⟨stack, ?_⟩
    unfold execute
    simp only
    rw [modify_bind, get_bind]
    simp only [hmut, Bool.not_false, if_true]
    rw [hmut] at h₀
    exact Kept.bulk hops hp _ h₀

end Steps

/-! ## Restarts -/

/-- The worker that a restart of the process spawns over the stored data. -/
def restarted (cfg : Config) (w : Worker) (intersect : Option Point) : Worker :=
  Worker.spawn cfg w.data w.rollback intersect ((fetchPersistentBuffer w.rollback).getD [])

section Restart

variable {cfg : Config} {w : Worker} {stack : List Buffered} {live : Point → Prop}

/-- Adding points to a buffer, oldest first. -/
theorem foldl_addBlock (l : List Buffered) (b : RollbackBuffer (List StorageAction))
    (hb : b.blocks.length ≤ b.size) :
    l.foldl (fun b e => b.addBlock e.point e.result) b =
      { b with blocks := (l.reverse ++ b.blocks).take b.size } := by
  induction l generalizing b with
  | nil => rw [List.foldl_nil, List.reverse_nil, List.nil_append, List.take_of_length_le hb]
  | cons e l ih =>
    rw [List.foldl_cons, ih _ (by simp only [RollbackBuffer.addBlock, List.length_take]; omega)]
    simp only [RollbackBuffer.addBlock, List.reverse_cons, List.append_assoc, List.singleton_append,
      RollbackBuffer.mk.injEq, and_true]
    -- cutting the tail first makes no difference
    rw [List.take_append, List.take_append, List.take_take, Nat.min_eq_left (Nat.sub_le _ _)]

/-- A restarted worker holds the newest stored points. -/
theorem restarted_buffer (cfg : Config) (intersect : Option Point) (hs : Stored w.rollback stack)
    (hpos : ∀ b ∈ stack, 1 ≤ b.point.height) :
    (restarted cfg w intersect).rollbackBuffer = ⟨stack.take cfg.bufferSize, cfg.bufferSize⟩ := by
  unfold restarted Worker.spawn
  simp only
  rw [fetchPersistentBuffer_of_stored hs hpos, foldl_addBlock _ _ (Nat.zero_le _)]
  simp [RollbackBuffer.new]

/-- **A restart** loads the newest of the stored points. -/
theorem Kept.restart (hlive : ∀ q : Point, 1 ≤ q.height → live q) (hdata : FilledStore w.data)
    (hs : 0 < cfg.bufferSize → Stored w.rollback stack ∧ ∀ b ∈ stack, 1 ≤ b.point.height)
    {intersect : Option Point} (hpos : ∀ q, intersect = some q → 1 ≤ q.height) :
    Kept cfg live stack (restarted cfg w intersect) := by
  have hsound : Sound (restarted cfg w intersect).data (restarted cfg w intersect).syncBatcher :=
    ⟨hdata, wellKeyed_empty, fun k a hk => by cases hk⟩
  rcases Nat.eq_zero_or_pos cfg.bufferSize with hsize | hsize
  · have hbuf : (restarted cfg w intersect).rollbackBuffer = ⟨[], cfg.bufferSize⟩ := by
      unfold restarted Worker.spawn
      simp only
      rw [foldl_addBlock _ _ (Nat.zero_le _)]
      simp [RollbackBuffer.new, hsize]
    refine ⟨.nothing hsize (by rw [hbuf, hsize]) (by rw [hbuf]), ?_, fun _ => hpos, hsound⟩
    rw [hbuf]
    exact fun a ha => absurd ha List.not_mem_nil
  · obtain ⟨hstored, hstack⟩ := hs hsize
    have hbuf := restarted_buffer cfg intersect hstored hstack
    refine ⟨.points hsize ?_, ?_, fun _ => hpos, hsound⟩
    · rw [hbuf]
      refine ⟨hstored, hstack, (Matches.refl stack).take _, rfl, ?_, ?_⟩
      · simp only [List.length_take]
        exact Nat.min_le_left _ _
      · intro hnil
        simp only [List.take_eq_nil_iff] at hnil
        exact hnil.resolve_left (by omega)
    · rw [hbuf]
      exact fun a ha => hlive _ (hstack a (List.mem_of_mem_take ha))

/-- **Every live point comes back** at its place after a restart. -/
theorem Kept.reloaded (h : Kept cfg live stack w) (intersect : Option Point) {n : Nat} {a : Buffered}
    (ha : w.rollbackBuffer.blocks[n]? = some a) (hne : a.point ≠ originPoint) :
    ∃ b, (restarted cfg w intersect).rollbackBuffer.blocks[n]? = some b ∧ b.point = a.point ∧
      (b.result = a.result ∨
        a.result = [] ∧ b.result = [.delete []] ∧ n + 1 = w.rollbackBuffer.blocks.length) := by
  cases h.held with
  | nothing _ _ hnil =>
    rw [hnil] at ha
    cases ha
  | points hsize hp =>
    rw [restarted_buffer cfg intersect hp.stored hp.positive]
    rcases hp.matched.stored_point ha with ⟨horigin, -⟩ | ⟨b, hb, hpoint, hres⟩
    · exact absurd horigin hne
    · refine ⟨b, ?_, hpoint, hres⟩
      have hlen : n < w.rollbackBuffer.blocks.length := (List.getElem?_eq_some_iff.mp ha).1
      have hshort := hp.short
      simp only
      rw [List.getElem?_take, if_pos (by omega)]
      exact hb

end Restart

end DogeIndexer.Polyphony
