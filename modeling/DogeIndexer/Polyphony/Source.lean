import DogeIndexer.Polyphony.InitialPoint

/-!
# The source stage and the pipeline

Model of the polyphony source worker (`sources/compressor/compressor.rs`, `sources/utils.rs`,
`Cursor::fetch_persistent_buffer`) and of its composition with the storage worker: the source
sends blocks through a queue, storage executes them in order.  The upstream chain has no
reorgs and may grow.

A source stage that returns a restart error is bootstrapped again while the queue and the
storage stage carry on: `bootstrap` may happen between any two steps.
-/

set_option autoImplicit false

namespace DogeIndexer.Polyphony

/-! ## The upstream chain -/

/-- Blocks by height, from height 1 on: hash and the storage actions of the reducers. -/
structure Chain where
  hash : Nat → BlockHash
  storageOps : Nat → List StorageAction

namespace Chain

def point (ch : Chain) (height : Nat) : Point := ⟨height, ch.hash height⟩

/-- A cursor on the chain whose tip is `tip`: the other points are "not found". -/
def found (ch : Chain) (tip : Nat) (p : Point) : Bool :=
  1 ≤ p.height && p.height ≤ tip && p = ch.point p.height

end Chain

/-- `CursorValue::encode`: height, hash, and the rest (mempool flag, timestamp). -/
def cursorValue (p : Point) (rest : List Byte) : Value :=
  Machine.toBE 8 p.height ++ Machine.toBE 32 p.hash.val ++ rest

/-- The storage actions of a block: those of the reducers, then the cursor. -/
def blockOps (ch : Chain) (cursorKey infoKey : Key) (height : Nat) (rest : List Byte) :
    List StorageAction :=
  ch.storageOps height ++ [.set cursorKey (cursorValue (ch.point height) rest),
    .set infoKey (cursorValue (ch.point height) rest)]

/-! ## Cursor -/

/-- Height of an encoded cursor. -/
def cursorHeight (v : Value) : Nat := Machine.ofBE (v.take 8)

/-- `Cursor::last_point`. -/
def lastPoint (cfg : Config) (data : Store) : Option Point :=
  (data.get cfg.cursorKey).map fun v =>
    ⟨cursorHeight v, Fin.ofNat (2 ^ 256) (Machine.ofBE ((v.drop 8).take 32))⟩

/-- The loop state of `fetch_persistent_buffer`. -/
structure FetchState where
  persistentBuf : List (PointWithResult (List StorageAction))
  currentPoint : Point
  actions : List StorageAction

/-- One metadata entry. -/
def fetchStep (s : FetchState) (entry : MetadataKey × Value) : FetchState :=
  let (k, v) := entry
  let s := if k.height ≠ s.currentPoint.height then
    { persistentBuf := if s.currentPoint.height ≠ 0 then
        s.persistentBuf ++ [⟨s.currentPoint, s.actions⟩] else s.persistentBuf
      currentPoint := ⟨k.height, k.hash⟩
      actions := [] } else s
  { s with actions := s.actions ++ [if v.isEmpty then .delete k.modifiedKey else .set k.modifiedKey v] }

/-- `Cursor::fetch_persistent_buffer`: the buffered points, oldest first. -/
def fetchPersistentBuffer (rollback : Table MetadataKey Value) :
    Option (List (PointWithResult (List StorageAction))) :=
  let s := rollback.entries.foldl fetchStep ⟨[], originPoint, []⟩
  let buf := if s.currentPoint.height ≠ 0 then
    s.persistentBuf ++ [⟨s.currentPoint, s.actions⟩] else s.persistentBuf
  if buf.isEmpty then none else some buf

/-! ## The source worker -/

inductive IntersectConfig where
  | origin
  | tip
  | point (p : Point)

inductive Mode where
  | init
  | dumping (cursor : Option Point)
  /-- The stream's next entry is the block above `height`. -/
  | streaming (height : Nat)

structure Source where
  intersect : IntersectConfig
  maxItemsPerPage : Nat
  infoKey : Key

/-- The pipeline: upstream tip, source worker, queue, storage worker. -/
structure Pipeline where
  tip : Nat
  mode : Mode
  upstreamHeight : Option Nat
  queue : List StorageActionPayload
  worker : Worker
  /-- Blocks whose actions are in the committed store or the pending batch, in the order in
  which they were applied. -/
  log : List Point

/-- `chain_tip.map(|x| x.height)`. -/
def chainTip (tip : Nat) : Option Nat := if tip = 0 then none else some tip

def IMMUTABLE_AFTER_BLOCKS : Nat := 1000

section

variable (ch : Chain) (cfg : Config) (src : Source)

/-- `try_intersect_with_last_point_or_config`; a panic is `none`. -/
def tryIntersectWithLastPointOrConfig (tip : Nat) (data : Store) : Option (Option Point) :=
  match lastPoint cfg data with
  | some point => if ch.found tip point then some (some point) else none
  | none =>
    match src.intersect with
    | .origin => some none
    | .tip => some ((chainTip tip).map ch.point)
    | .point p => if ch.found tip p then some (some p) else none

/-- `Worker::bootstrap` of the source: with a persistent buffer a rollback message to the newest
point found upstream goes first. -/
def bootstrap (s : Pipeline) : Option Pipeline :=
  match fetchPersistentBuffer s.worker.rollback with
  | some buf =>
    ((buf.map PointWithResult.point).reverse.find? (ch.found s.tip)).map fun point =>
      { s with
        queue := s.queue ++ [.rollBack point true]
        mode := .dumping (some point)
        upstreamHeight := chainTip s.tip }
  | none =>
    (tryIntersectWithLastPointOrConfig ch cfg src s.tip s.worker.data).map fun intersect =>
      { s with mode := .dumping intersect, upstreamHeight := chainTip s.tip }

/-- Height of a cursor, with 0 before the first block. -/
def cursorPosition : Option Point → Nat
  | some p => p.height
  | none => 0

/-- Heights of a page. -/
def pageHeights (tip : Nat) (cursor : Option Point) (maxItems : Nat) : List Nat :=
  List.range' (cursorPosition cursor + 1) (min maxItems (tip - cursorPosition cursor))

/-- The messages for a list of blocks; `rest` is what the cursor holds besides the point. -/
def applyMessages (heights : List Nat) (mutable : Bool) (rest : Nat → List Byte) :
    List StorageActionPayload :=
  heights.map fun h =>
    .rollForward (ch.point h) (blockOps ch cfg.cursorKey src.infoKey h (rest h)) mutable false

/-- A page is fetched and all its blocks are sent. -/
def dump (s : Pipeline) (cursor : Option Point) (rest : Nat → List Byte) : Option Pipeline :=
  -- a cursor that is not on the chain is an error (a restart, not this step)
  if cursor.all (ch.found s.tip) then
    let heights := pageHeights s.tip cursor src.maxItemsPerPage
    some { s with
      mode := match heights.getLast? with
        | some last => .dumping (some (ch.point last))
        | none => .dumping cursor
      upstreamHeight := chainTip s.tip
      queue := s.queue ++ applyMessages ch cfg src heights false rest }
  else none

/-- The number of blocks a storage unit undoes. -/
def undone (w : Worker) (p : Point) : Nat := (w.rollbackBuffer.position p).getD 0

/-- The blocks applied, after a unit that completed on worker `w`. -/
def logAfter (w : Worker) (log : List Point) : StorageActionPayload → List Point
  | .rollForward p _ _ _ => log ++ [p]
  | .rollBack p _ => log.take (log.length - undone w p)

inductive Event where
  | grow
  | bootstrap
  | schedule
  | storage
  deriving DecidableEq

/-- One step of one stage. -/
inductive Step : Event → Pipeline → Pipeline → Prop
  /-- The upstream chain grows. -/
  | grow (s : Pipeline) (h : s.tip + 1 < 2 ^ 64) : Step .grow s { s with tip := s.tip + 1 }
  /-- First bootstrap, or a restart of the source. -/
  | bootstrap {s s' : Pipeline} (h : bootstrap ch cfg src s = some s') :
      Step .bootstrap s s'
  | dump {s s' : Pipeline} {cursor : Option Point} (rest : Nat → List Byte)
      (hmode : s.mode = .dumping cursor) (h : dump ch cfg src s cursor rest = some s') :
      Step .schedule s s'
  /-- Within the mutable zone the stream intersects at the cursor. -/
  | stream {s : Pipeline} {cursor : Point} {upstreamHeight : Nat}
      (hmode : s.mode = .dumping (some cursor)) (hup : s.upstreamHeight = some upstreamHeight)
      (hzone : cursor.height + IMMUTABLE_AFTER_BLOCKS ≥ upstreamHeight)
      (hfound : ch.found s.tip cursor = true) :
      Step .schedule s { s with mode := .streaming cursor.height }
  /-- The next block of the stream is sent. -/
  | next {s : Pipeline} {height : Nat} (rest : Nat → List Byte)
      (hmode : s.mode = .streaming height) (htip : height + 1 ≤ s.tip) :
      Step .schedule s { s with
        mode := .streaming (height + 1)
        queue := s.queue ++ applyMessages ch cfg src [height + 1] true rest }
  /-- Storage executes the next message. -/
  | storage {s : Pipeline} {unit : StorageActionPayload} {queue : List StorageActionPayload}
      {w' : Worker} (hqueue : s.queue = unit :: queue)
      (hexec : execute cfg unit s.worker = .ok () w') :
      Step .storage s { s with queue := queue, worker := w', log := logAfter s.worker s.log unit }

/-- A fresh database and a source that is not yet bootstrapped. -/
def start (tip : Nat) : Pipeline where
  tip := tip
  mode := .init
  upstreamHeight := none
  queue := []
  worker := Worker.spawn cfg Table.empty Table.empty none []
  log := []

end

end DogeIndexer.Polyphony
