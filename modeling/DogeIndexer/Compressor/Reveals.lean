import DogeIndexer.Compressor.Applied

/-!
# Records of new inscriptions

The numbers and the ids of the records that a run of applied blocks stores.

A record takes its number from the counter when the inscription is parsed; the counter moves
when the inscription is located.  A transaction whose outputs are all of value 0 leaves its new
inscription to the coinbase, the last transaction of the block, and until then the counter does
not move.

An inscription in several transactions has the id of the first one.  A partial inscription stays
in the tables after it is continued, so nothing stops a second transaction from continuing it.

* `numbers_consecutive` — numbers are consecutive when nothing is revealed while a new
  inscription waits for the coinbase.
* `ids_nodup` — ids are distinct when no partial inscription is continued twice.
-/

set_option autoImplicit false

namespace DogeIndexer.Compressor

section

variable (deps : Deps) (cfg : Config)

/-- What a transaction parses to in the state before it. -/
def outcomeOf (height : Nat) (step : Transaction × BlockState) : Option (List Txid × ParsedInscription) :=
  if cfg.firstInscriptionHeight ≤ height then
    parsed deps cfg.checks step.2.resolver height step.1 step.2.inscriptions.partials
  else none

/-- The transaction reveals an inscription. -/
def reveals (height : Nat) (step : Transaction × BlockState) : Bool :=
  match outcomeOf deps cfg height step with
  | some (_, .complete _) => true
  | _ => false

/-- The transaction reveals an inscription and has no satoshi to put it on. -/
def strands (height : Nat) (step : Transaction × BlockState) : Bool :=
  reveals deps cfg height step && step.1.output.all fun output => output.value = 0

/-- The partial transaction that the transaction continues. -/
def continued (height : Nat) (step : Transaction × BlockState) : Option Txid :=
  match outcomeOf deps cfg height step with
  | some (_ :: _, .partial_) => step.1.input.head?.map fun first => first.previousOutput.txid
  | some (_ :: _, .complete _) => step.1.input.head?.map fun first => first.previousOutput.txid
  | _ => none

end

variable {deps : Deps} {cfg : Config}

/-! ## Numbers -/

/-- `base` records before the block, and the records of the block so far. -/
structure Numbered (deps : Deps) (cfg : Config) (height base : Nat) (done : List (Transaction × BlockState))
    (i : InscriptionState) : Prop where
  next : (i.counters.nextSequenceNum.val + newCount i.cbInscriptions) % 2 ^ 64 =
    (base + i.newInscriptions.length) % 2 ^ 64
  count : i.newInscriptions.length = done.countP (reveals deps cfg height)
  numbers : i.newInscriptions.map (fun info => info.number.val) = List.range' base i.newInscriptions.length

theorem countP_snoc {α : Type} (p : α → Bool) (l : List α) (a : α) :
    (l ++ [a]).countP p = l.countP p + if p a then 1 else 0 := by
  rw [List.countP_append, List.countP_singleton]

/-- A step adds at most one record, whose number is the counter. -/
theorem reveals_ok {height : Nat} {tx : Transaction} {s : BlockState} {r : IndexInscriptionsResult}
    {i : InscriptionState} (hheight : cfg.firstInscriptionHeight ≤ height)
    (run : Indexed deps cfg s.resolver tx tx.txid height s.inscriptions r i) :
    (reveals deps cfg height (tx, s) = false ∧ i.newInscriptions = s.inscriptions.newInscriptions ∧
      newCount run.revealed = 0) ∨
    (reveals deps cfg height (tx, s) = true ∧ newCount run.revealed = 1 ∧
      ∃ info : NewInscriptionInfo, info.number = s.inscriptions.counters.nextSequenceNum ∧
        i.newInscriptions = s.inscriptions.newInscriptions ++ [info]) := by
  obtain ⟨hrecords, -⟩ := run.records_eq
  have hout := run.outcome
  rw [hrecords]
  generalize run.revealed = revealed at hout
  generalize run.messages = messages at hout
  generalize run.after = after at hout
  have hreveals : reveals deps cfg height (tx, s) =
      match parsed deps cfg.checks s.resolver height tx s.inscriptions.partials with
      | some (_, .complete _) => true
      | _ => false := by
    unfold reveals outcomeOf
    rw [if_pos hheight]
  cases hout with
  | none hparsed =>
    left
    refine ⟨?_, rfl, rfl⟩
    rw [hreveals]
    cases hp : parsed deps cfg.checks s.resolver height tx s.inscriptions.partials with
    | none => rfl
    | some e =>
      have hnone := hparsed e hp
      obtain ⟨chain, outcome⟩ := e
      simp only at hnone
      rw [hnone]
  | partial_ _ _ hparsed =>
    left
    refine ⟨?_, rfl, rfl⟩
    rw [hreveals, hparsed]
  | complete info _ _ hparsed _ hnumber _ =>
    right
    refine ⟨?_, rfl, info, hnumber, rfl⟩
    rw [hreveals, hparsed]

theorem Numbered.step {height base : Nat} {done : List (Transaction × BlockState)} {tx : Transaction}
    {s : BlockState} {placed : List (List (U64 × InscriptionId))}
    {transfers : Table InscriptionId (Ticker × U128)} {messages : List (InscriptionId × BRC20Message)}
    {i : InscriptionState} (h : Numbered deps cfg height base done s.inscriptions)
    (hstep : InscriptionsStep deps cfg height tx s.resolver s.inscriptions placed transfers messages i)
    (hpending : reveals deps cfg height (tx, s) = true → newCount s.inscriptions.cbInscriptions = 0)
    (hbound : base + (done ++ [(tx, s)]).countP (reveals deps cfg height) ≤ 2 ^ 64) :
    Numbered deps cfg height base (done ++ [(tx, s)]) i := by
  rw [countP_snoc] at hbound
  cases hstep with
  | skipped hheight =>
    have hnot : reveals deps cfg height (tx, s) = false := by
      unfold reveals outcomeOf
      rw [if_neg (by omega)]
    refine ⟨h.next, ?_, h.numbers⟩
    rw [countP_snoc, hnot, h.count]
    rfl
  | indexed hheight hindex =>
    obtain ⟨run⟩ := indexInscriptions_ok hindex
    have hcounted := run.counted
    rcases reveals_ok hheight run with ⟨hnot, hrecords, hnew⟩ | ⟨hreveals, hnew, info, hnumber, hrecords⟩
    · refine ⟨?_, ?_, ?_⟩
      · rw [hcounted, hnew, Nat.add_zero, hrecords, h.next]
      · rw [countP_snoc, hnot, hrecords, h.count]
        rfl
      · rw [hrecords, h.numbers]
    · have hzero := hpending hreveals
      have hnext := h.next
      have hlt := s.inscriptions.counters.nextSequenceNum.isLt
      rw [hreveals] at hbound
      simp only [if_true] at hbound
      rw [hzero, Nat.add_zero, Nat.mod_eq_of_lt hlt, h.count,
        Nat.mod_eq_of_lt (show base + _ < 2 ^ 64 by omega)] at hnext
      refine ⟨?_, ?_, ?_⟩
      · rw [hcounted, hnew, hrecords, hzero, List.length_append, hnext, h.count]
        rfl
      · rw [countP_snoc, hreveals, hrecords, List.length_append, h.count]
        rfl
      · rw [hrecords, List.map_append, List.length_append, h.numbers, List.range'_append_1.symm]
        congr 1
        simp [hnumber, hnext, h.count]

/-- Between the transactions of a block nothing is pending that no transaction has stranded. -/
theorem pending_step {height : Nat} {tx : Transaction} {s : BlockState}
    {placed : List (List (U64 × InscriptionId))} {transfers : Table InscriptionId (Ticker × U128)}
    {messages : List (InscriptionId × BRC20Message)} {i : InscriptionState}
    (hstep : InscriptionsStep deps cfg height tx s.resolver s.inscriptions placed transfers messages i)
    (hcoin : isCoinbase tx = false) (hstrands : strands deps cfg height (tx, s) = false)
    (h : newCount s.inscriptions.cbInscriptions = 0) : newCount i.cbInscriptions = 0 := by
  cases hstep with
  | skipped => exact h
  | indexed hheight hindex =>
    obtain ⟨run⟩ := indexInscriptions_ok hindex
    rw [run.pending hcoin, h]
    rcases reveals_ok hheight run with ⟨-, -, hnew⟩ | ⟨hreveals, -, -⟩
    · exact Or.inl hnew
    · right
      unfold strands at hstrands
      rw [hreveals, Bool.true_and, List.all_eq_false] at hstrands
      obtain ⟨o, ho, hvalue⟩ := hstrands
      exact ⟨o, ho, by simpa using hvalue⟩

/-- After the coinbase nothing is pending. -/
theorem coinbase_empties {height : Nat} {tx : Transaction} {s : BlockState}
    {placed : List (List (U64 × InscriptionId))} {transfers : Table InscriptionId (Ticker × U128)}
    {messages : List (InscriptionId × BRC20Message)} {i : InscriptionState}
    (hstep : InscriptionsStep deps cfg height tx s.resolver s.inscriptions placed transfers messages i)
    (hcoin : isCoinbase tx = true)
    (h : height < cfg.firstInscriptionHeight → newCount s.inscriptions.cbInscriptions = 0) :
    newCount i.cbInscriptions = 0 := by
  cases hstep with
  | skipped hheight => exact h hheight
  | indexed hheight hindex =>
    obtain ⟨run⟩ := indexInscriptions_ok hindex
    rcases run.rest_cases with ⟨-, hcb, -⟩ | ⟨hfalse, -⟩
    · rw [hcb]
      rfl
    · rw [hcoin] at hfalse
      cases hfalse

/-- No transaction of the block reveals an inscription after one that stranded its own. -/
def Orderly (deps : Deps) (cfg : Config) (n : Node) (height : Nat) (block : Block) : Prop :=
  (blockSteps deps cfg n height block).Pairwise fun earlier later =>
    strands deps cfg height earlier = true → reveals deps cfg height later = false

instance (deps : Deps) (cfg : Config) (n : Node) (height : Nat) (block : Block) :
    Decidable (Orderly deps cfg n height block) := inferInstanceAs (Decidable (List.Pairwise _ _))

/-- **The records of a block** continue the numbers, and the counter ends behind them. -/
theorem Applied.recordsNumbered {n n' : Node} {height : Nat} {block : Block} {mutable : Bool} {base : Nat}
    (run : Applied deps cfg n height block mutable n') (hcb : CoinbaseFirst block)
    (horderly : Orderly deps cfg n height block)
    (hbase : (n.db.tables.counters.getD Counters.default).nextSequenceNum.val = base % 2 ^ 64)
    (hbound : base + (blockSteps deps cfg n height block).countP (reveals deps cfg height) ≤ 2 ^ 64) :
    run.final.inscriptions.newInscriptions.length =
        (blockSteps deps cfg n height block).countP (reveals deps cfg height) ∧
      run.final.inscriptions.newInscriptions.map (fun info => info.number.val) =
        List.range' base run.final.inscriptions.newInscriptions.length ∧
      run.final.inscriptions.counters.nextSequenceNum.val =
        (base + run.final.inscriptions.newInscriptions.length) % 2 ^ 64 := by
  unfold Orderly at horderly
  rw [run.steps] at horderly hbound ⊢
  obtain ⟨hcoin, hothers⟩ := hcb.isCoinbase run.processed.txdata
  -- the invariant of the transactions before the coinbase
  have hclosed : Numbered deps cfg height base run.processed.steps run.processed.closed.inscriptions ∧
      ((∀ e ∈ run.processed.steps, strands deps cfg height e = false) →
        newCount run.processed.closed.inscriptions.cbInscriptions = 0) := by
    refine ProcessedTxs.induct (P := fun done _ s =>
      Numbered deps cfg height base done s.inscriptions ∧
        ((∀ e ∈ done, strands deps cfg height e = false) → newCount s.inscriptions.cbInscriptions = 0))
      run.processed.processes [] ?_ ?_
    · rintro done tx idx rest later s s₁ hsuffix hpre ptx - ⟨hnum, hpend⟩
      have hpre : done ++ [(tx, s)] <+: run.processed.steps := hpre
      have hbound' : base + (done ++ [(tx, s)]).countP (reveals deps cfg height) ≤ 2 ^ 64 := by
        have hle := (hpre.sublist.trans (List.sublist_append_left _ [(run.processed.coinbase,
          run.processed.closed)])).countP_le (p := reveals deps cfg height)
        omega
      have hpair := List.Pairwise.sublist
        (hpre.sublist.trans (List.sublist_append_left _ [(run.processed.coinbase, run.processed.closed)]))
        horderly
      rw [List.pairwise_append] at hpair
      have hcoin' : isCoinbase tx = false := hothers tx (List.fst_mem_of_mem_zipIdx (hsuffix.subset List.mem_cons_self))
      rw [ptx.inscriptions_eq]
      refine ⟨hnum.step ptx.inscriptions ?_ hbound', ?_⟩
      · intro hreveals
        refine hpend (fun e he => ?_)
        cases hs : strands deps cfg height e with
        | false => rfl
        | true =>
          have := hpair.2.2 e he (tx, s) (by simp) hs
          rw [hreveals] at this
          cases this
      · intro hall
        refine pending_step ptx.inscriptions hcoin' (hall (tx, s) (by simp)) (hpend (fun e he => ?_))
        exact hall e (List.mem_append_left _ he)
    · rw [run.processed.started_inscriptions.1]
      refine ⟨⟨?_, rfl, rfl⟩, fun _ => rfl⟩
      change ((n.db.tables.counters.getD Counters.default).nextSequenceNum.val + 0) % 2 ^ 64 =
        (base + 0) % 2 ^ 64
      rw [hbase, Nat.add_zero, Nat.add_zero, Nat.mod_mod]
  obtain ⟨hnum, hpend⟩ := hclosed
  rw [List.pairwise_append] at horderly
  have hlast : Numbered deps cfg height base
      (run.processed.steps ++ [(run.processed.coinbase, run.processed.closed)])
      run.processed.inscriptionState := by
    refine hnum.step run.processed.inscriptions ?_ hbound
    intro hreveals
    refine hpend (fun e he => ?_)
    cases hs : strands deps cfg height e with
    | false => rfl
    | true =>
      have := horderly.2.2 e he _ (List.mem_singleton_self _) hs
      rw [hreveals] at this
      cases this
  have hempty : newCount run.processed.inscriptionState.cbInscriptions = 0 := by
    refine coinbase_empties run.processed.inscriptions hcoin (fun hlow => hpend (fun e _ => ?_))
    unfold strands reveals outcomeOf
    rw [if_neg (by omega)]
    rfl
  rw [run.processed.inscriptions_eq]
  refine ⟨hlast.count, hlast.numbers, ?_⟩
  have hnext := hlast.next
  rw [hempty, Nat.add_zero, Nat.mod_eq_of_lt (Fin.isLt _)] at hnext
  exact hnext

/-- Every step of a run, with its height. -/
def runSteps (deps : Deps) (cfg : Config) (l : List Transition) : List (Nat × Transaction × BlockState) :=
  l.flatMap (Transition.steps deps cfg)

theorem runSteps_append (l : List Transition) (e : Transition) :
    runSteps deps cfg (l ++ [e]) = runSteps deps cfg l ++ e.steps deps cfg := by
  simp [runSteps]

/-- **Numbers are consecutive** in every run in which no block reveals an inscription after a
stranded one, up to the range of the counter. -/
theorem numbers_consecutive {memory : Bool} {l : List Transition} {n : Node}
    (run : Run deps cfg (Node.open_ memory) l n)
    (hcb : ∀ e ∈ l, CoinbaseFirst e.call.block)
    (horderly : ∀ e ∈ l, Orderly deps cfg e.before e.call.height e.call.block)
    (hbound : (runSteps deps cfg l).countP (fun step => reveals deps cfg step.1 step.2) ≤ 2 ^ 64) :
    (records l).map (fun info => info.number.val) = List.range (records l).length := by
  have hinv : (records l).map (fun info => info.number.val) = List.range (records l).length ∧
      (records l).length = (runSteps deps cfg l).countP (fun step => reveals deps cfg step.1 step.2) ∧
      (n.db.tables.counters.getD Counters.default).nextSequenceNum.val = (records l).length % 2 ^ 64 := by
    induction run with
    | nil => exact ⟨rfl, rfl, rfl⟩
    | @snoc l n n' run call hcall ih =>
      obtain ⟨applied⟩ := apply_ok hcall
      have hsteps : ((Transition.mk n call n').steps deps cfg).countP
          (fun step => reveals deps cfg step.1 step.2) =
          (blockSteps deps cfg n call.height call.block).countP (reveals deps cfg call.height) := by
        unfold Transition.steps
        rw [List.countP_map]
        rfl
      rw [runSteps_append, List.countP_append, hsteps] at hbound ⊢
      obtain ⟨hnumbers, hlength, hnext⟩ := ih (fun e he => hcb e (List.mem_append_left _ he))
        (fun e he => horderly e (List.mem_append_left _ he)) (by omega)
      have hlast : Transition.mk n call n' ∈ l ++ [⟨n, call, n'⟩] :=
        List.mem_append_right _ (List.mem_singleton_self _)
      obtain ⟨hlen, hnum, hcount⟩ := applied.recordsNumbered (hcb _ hlast) (horderly _ hlast) hnext
        (by rw [hlength]; exact hbound)
      rw [records_append, applied.records_eq]
      refine ⟨?_, ?_, ?_⟩
      · rw [List.map_append, hnumbers, hnum, List.length_append, List.range_eq_range', List.range_eq_range',
          ← List.range'_append_1, Nat.zero_add]
      · rw [List.length_append, hlength, hlen]
      · obtain ⟨log, htables⟩ := applied.tables
        rw [htables, List.length_append]
        exact hcount
  exact hinv.1

/-- The first input's script of an inscription of one byte, in one piece. -/
def oneByteInscription : Bytes := [3, 111, 114, 100, 81, 1, 97, 0, 1, 98]

/-- A block with two reveals, the first of which pays `value` to its output. -/
def twoReveals (value : U64) : List Call := [
  callOf 0 1 0 [coinbaseTx 10 [2500000000, 2500000000]],
  callOf 1 2 1 [coinbaseTx 11 [7500000000 - value], spendTx 12 ⟨10, 0⟩ oneByteInscription [value],
    spendTx 13 ⟨10, 1⟩ oneByteInscription [2500000000]]]

/-- Two reveals of one block, when the first keeps its inscription on an output. -/
theorem numbers_consecutive_two_reveals :
    ∃ l n, Run emptyScripts fromFirstBlock (Node.open_ true) l n ∧
      (records l).map (fun info => info.number.val) = [0, 1] := by
  have hsome : (runCalls emptyScripts fromFirstBlock (Node.open_ true) (twoReveals 1000)).isSome = true := by
    decide +kernel
  refine ⟨_, _, Run.ofCalls hsome, ?_⟩
  rw [numbers_consecutive (Run.ofCalls hsome) (by decide +kernel) (by decide +kernel) (by decide +kernel)]
  decide +kernel

/-- **A number is given twice**: the first reveal pays all to the fee, and the second one takes the
number that its record already has. -/
theorem numbers_repeat :
    ∃ l n, Run emptyScripts fromFirstBlock (Node.open_ true) l n ∧
      (∀ e ∈ l, ValidBlock e.before.db.tables e.call.height e.call.block) ∧
      (records l).map (fun info => info.number.val) = [0, 0] ∧
      ¬ ((records l).map fun info => info.number.val).Nodup := by
  have hsome : (runCalls emptyScripts fromFirstBlock (Node.open_ true) (twoReveals 0)).isSome = true := by
    decide +kernel
  exact ⟨_, _, Run.ofCalls hsome, by decide +kernel, by decide +kernel, by decide +kernel⟩

/-! ## Ids -/

/-- The state of the ids: `seen` are the transactions so far, `used` the partial transactions that
have been continued.  Each root has one record or one partial transaction still to be continued. -/
structure Rooted (seen : Txid → Prop) (used : List Txid) (recorded : List NewInscriptionInfo)
    (partials : PartialTables) : Prop where
  chains : ∀ q chain, partials.txids.get q = some chain → seen q ∧ ∃ root rest, chain = root :: rest ∧ seen root
  ids : ∀ info ∈ recorded, seen info.id.txid
  nodup : (recorded.map NewInscriptionInfo.id).Nodup
  unrecorded : ∀ q root rest, partials.txids.get q = some (root :: rest) → q ∉ used →
    ∀ info ∈ recorded, info.id ≠ ⟨root, 0⟩
  unique : ∀ q q' root rest rest', partials.txids.get q = some (root :: rest) → q ∉ used →
    partials.txids.get q' = some (root :: rest') → q' ∉ used → q = q'

theorem Rooted.mono {seen seen' : Txid → Prop} {used : List Txid} {recorded : List NewInscriptionInfo}
    {partials : PartialTables} (h : Rooted seen used recorded partials) (hseen : ∀ t, seen t → seen' t) :
    Rooted seen' used recorded partials where
  chains q chain hget := by
    obtain ⟨hq, root, rest, hchain, hroot⟩ := h.chains q chain hget
    exact ⟨hseen q hq, root, rest, hchain, hseen root hroot⟩
  ids info hinfo := hseen _ (h.ids info hinfo)
  nodup := h.nodup
  unrecorded := h.unrecorded
  unique := h.unique

theorem previousPartials_ok {partials : PartialTables} {txid : Txid} {chain : List Txid}
    {txs : List Transaction} (h : previousPartials partials txid = .ok (chain, txs)) :
    (partials.txids.get txid = none ∧ chain = []) ∨ partials.txids.get txid = some chain := by
  unfold previousPartials at h
  split at h
  · rename_i hnone
    cases h
    exact Or.inl ⟨hnone, rfl⟩
  · rename_i txids hsome
    obtain ⟨l, -, h⟩ := Fallible.bind_eq_ok.mp h
    cases h
    exact Or.inr hsome

/-- The root of a transaction that continues `chain` or starts a new one. -/
def rootOf (chain : List Txid) (txid : Txid) : Txid := (chain ++ [txid]).headD txid

theorem rootOf_cons (chain : List Txid) (txid : Txid) :
    ∃ rest, chain ++ [txid] = rootOf chain txid :: rest := by
  cases chain with
  | nil => exact ⟨[], rfl⟩
  | cons root rest => exact ⟨rest ++ [txid], rfl⟩

/-- What a transaction that is not yet seen may take as its root: a root without record, and
without a partial transaction that is still to be continued. -/
theorem Rooted.root_free {seen : Txid → Prop} {used taken : List Txid} {recorded : List NewInscriptionInfo}
    {partials : PartialTables} {txid previous : Txid} {chain : List Txid} {txs : List Transaction}
    (h : Rooted seen used recorded partials) (hfresh : ¬ seen txid)
    (hchain : previousPartials partials previous = .ok (chain, txs))
    (htaken : chain ≠ [] → taken = [previous]) (hnodup : (used ++ taken).Nodup) :
    (seen (rootOf chain txid) ∨ rootOf chain txid = txid) ∧
      (∀ info ∈ recorded, info.id ≠ ⟨rootOf chain txid, 0⟩) ∧
      ∀ q rest, partials.txids.get q = some (rootOf chain txid :: rest) → q ∈ used ++ taken := by
  rcases previousPartials_ok hchain with ⟨-, rfl⟩ | hget
  · refine ⟨Or.inr rfl, fun info hinfo heq => ?_, fun q rest hq => ?_⟩
    · have hseen := h.ids info hinfo
      rw [heq] at hseen
      exact hfresh hseen
    · obtain ⟨-, root, rest', heq, hroot⟩ := h.chains q _ hq
      cases heq
      exact (hfresh hroot).elim
  · obtain ⟨-, root, rest, rfl, hroot⟩ := h.chains previous chain hget
    have htaken := htaken (List.cons_ne_nil _ _)
    subst htaken
    have hopen : previous ∉ used := by
      intro hmem
      exact (List.nodup_append.mp hnodup).2.2 previous hmem previous (List.mem_singleton_self _) rfl
    refine ⟨Or.inl hroot, h.unrecorded previous root rest hget hopen, fun q rest' hq => ?_⟩
    by_cases hused : q ∈ used
    · exact List.mem_append_left _ hused
    · have heq := h.unique q previous root rest' rest hq hused hget hopen
      exact List.mem_append_right _ (by rw [heq]; exact List.mem_singleton_self _)

theorem continued_eq {height : Nat} {tx : Transaction} {s : BlockState} {chain : List Txid}
    {outcome : ParsedInscription} {first : TxIn} (hheight : cfg.firstInscriptionHeight ≤ height)
    (hfirst : tx.input.head? = some first) (hout : outcome ≠ .none)
    (hparsed : parsed deps cfg.checks s.resolver height tx s.inscriptions.partials = some (chain, outcome)) :
    continued deps cfg height (tx, s) = if chain = [] then none else some first.previousOutput.txid := by
  unfold continued outcomeOf
  rw [if_pos hheight, hparsed]
  cases chain with
  | nil => cases outcome <;> rfl
  | cons root rest =>
    cases outcome with
    | none => exact absurd rfl hout
    | partial_ => simp [hfirst]
    | complete inscription => simp [hfirst]

/-- **One step keeps the ids rooted.** -/
theorem Rooted.step {seen : Txid → Prop} {used : List Txid} {earlier : List NewInscriptionInfo} {height : Nat}
    {tx : Transaction} {s : BlockState} {placed : List (List (U64 × InscriptionId))}
    {transfers : Table InscriptionId (Ticker × U128)} {messages : List (InscriptionId × BRC20Message)}
    {i : InscriptionState}
    (h : Rooted seen used (earlier ++ s.inscriptions.newInscriptions) s.inscriptions.partials)
    (hstep : InscriptionsStep deps cfg height tx s.resolver s.inscriptions placed transfers messages i)
    (hfresh : ¬ seen tx.txid) (hnodup : (used ++ (continued deps cfg height (tx, s)).toList).Nodup) :
    Rooted (fun t => seen t ∨ t = tx.txid) (used ++ (continued deps cfg height (tx, s)).toList)
      (earlier ++ i.newInscriptions) i.partials := by
  -- without a new record or entry, more is used and more is seen
  have hkeep : Rooted (fun t => seen t ∨ t = tx.txid) (used ++ (continued deps cfg height (tx, s)).toList)
      (earlier ++ s.inscriptions.newInscriptions) s.inscriptions.partials := by
    have hmore : Rooted (fun t => seen t ∨ t = tx.txid) used (earlier ++ s.inscriptions.newInscriptions)
        s.inscriptions.partials := h.mono fun t => Or.inl
    refine ⟨hmore.chains, hmore.ids, h.nodup, ?_, ?_⟩
    · intro q root rest hq hnot
      exact h.unrecorded q root rest hq (fun hm => hnot (List.mem_append_left _ hm))
    · intro q q' root rest rest' hq hnot hq' hnot'
      exact h.unique q q' root rest rest' hq (fun hm => hnot (List.mem_append_left _ hm)) hq'
        (fun hm => hnot' (List.mem_append_left _ hm))
  cases hstep with
  | skipped => exact hkeep
  | indexed hheight hindex =>
    obtain ⟨run⟩ := indexInscriptions_ok hindex
    obtain ⟨hrecords, hpartials⟩ := run.records_eq
    rw [hrecords, hpartials]
    have hout := run.outcome
    generalize run.revealed = revealed at hout
    generalize run.messages = msgs at hout
    generalize run.after = after at hout
    cases hout with
    | none => exact hkeep
    | @partial_ first chain txs hfirst hchain hparsed =>
      have hcont := continued_eq hheight hfirst (by simp) hparsed
      obtain ⟨hroot, hunrec, htaken⟩ := h.root_free hfresh hchain
        (fun hne => by rw [hcont, if_neg hne]; rfl) hnodup
      obtain ⟨tail, htail⟩ := rootOf_cons chain tx.txid
      have hget : ∀ q, (s.inscriptions.partials.txids.insert tx.txid (chain ++ [tx.txid])).get q =
          if q = tx.txid then some (rootOf chain tx.txid :: tail) else s.inscriptions.partials.txids.get q := by
        intro q
        rw [Table.get_insert, htail]
      refine ⟨?_, hkeep.ids, h.nodup, ?_, ?_⟩
      · intro q chain' hq
        rw [hget] at hq
        split at hq
        · rename_i heq
          cases hq
          exact ⟨Or.inr heq, rootOf chain tx.txid, tail, rfl, hroot⟩
        · exact hkeep.chains q chain' hq
      · intro q root rest hq hnot
        rw [hget] at hq
        split at hq
        · cases hq
          exact hunrec
        · exact hkeep.unrecorded q root rest hq hnot
      · intro q q' root rest rest' hq hnot hq' hnot'
        rw [hget] at hq hq'
        split at hq
        · rename_i heq
          cases hq
          split at hq'
          · rename_i heq'
            rw [heq, heq']
          · exact absurd (htaken q' rest' hq') hnot'
        · split at hq'
          · cases hq'
            exact absurd (htaken q rest hq) hnot
          · exact hkeep.unique q q' root rest rest' hq hnot hq' hnot'
    | @complete first chain txs inscription fee info hfirst hchain hparsed hid hnumber =>
      have hcont := continued_eq hheight hfirst (by simp) hparsed
      obtain ⟨hroot, hunrec, htaken⟩ := h.root_free hfresh hchain
        (fun hne => by rw [hcont, if_neg hne]; rfl) hnodup
      have hid : info.id = ⟨rootOf chain tx.txid, 0⟩ := hid
      rw [← List.append_assoc]
      refine ⟨hkeep.chains, ?_, ?_, ?_, hkeep.unique⟩
      · intro x hx
        rcases List.mem_append.mp hx with hx | hx
        · exact hkeep.ids x hx
        · rw [List.mem_singleton] at hx
          rw [hx, hid]
          exact hroot
      · rw [List.map_append, List.nodup_append]
        refine ⟨h.nodup, List.nodup_singleton _, ?_⟩
        intro a ha b hb hab
        obtain ⟨x, hx, rfl⟩ := List.mem_map.mp ha
        simp only [List.map_cons, List.map_nil, List.mem_singleton] at hb
        exact hunrec x hx (hab.trans (hb.trans hid))
      · intro q root rest hq hnot x hx
        rcases List.mem_append.mp hx with hx | hx
        · exact hkeep.unrecorded q root rest hq hnot x hx
        · rw [List.mem_singleton] at hx
          rw [hx, hid]
          intro heq
          have hsame : rootOf chain tx.txid = root := congrArg InscriptionId.txid heq
          rw [← hsame] at hq
          exact hnot (htaken q rest hq)

/-- The partial transactions that the steps of a block continue. -/
def continuations (deps : Deps) (cfg : Config) (height : Nat) (steps : List (Transaction × BlockState)) :
    List Txid := steps.filterMap (continued deps cfg height)

theorem continuations_snoc (height : Nat) (steps : List (Transaction × BlockState))
    (step : Transaction × BlockState) :
    continuations deps cfg height (steps ++ [step]) =
      continuations deps cfg height steps ++ (continued deps cfg height step).toList := by
  unfold continuations
  rw [List.filterMap_append]
  cases h : continued deps cfg height step with
  | none => simp [h]
  | some q => simp [h]

theorem Applied.rooted {n n' : Node} {height : Nat} {block : Block} {mutable : Bool} {used : List Txid}
    {earlier : List NewInscriptionInfo} (run : Applied deps cfg n height block mutable n')
    (hvalid : ValidBlock n.db.tables height block)
    (h : Rooted n.db.tables.HasTx used earlier n.db.tables.partials)
    (hnodup : (used ++ continuations deps cfg height (blockSteps deps cfg n height block)).Nodup) :
    Rooted n'.db.tables.HasTx (used ++ continuations deps cfg height (blockSteps deps cfg n height block))
      (earlier ++ run.final.inscriptions.newInscriptions) n'.db.tables.partials := by
  -- the transactions of a prefix of the steps are not those of the steps that follow
  have htxids := run.steps_txids hvalid.txids
  have hblock : ∀ step ∈ blockSteps deps cfg n height block, step.1.txid ∈ txIds block := by
    intro step hstep
    have hmem := List.mem_map_of_mem (f := Prod.fst) hstep
    rw [run.steps_fst] at hmem
    unfold txIds
    rw [run.processed.txdata]
    refine List.mem_map_of_mem ?_
    rcases List.mem_append.mp hmem with hmem | hmem
    · exact List.mem_cons_of_mem _ hmem
    · rw [List.mem_singleton.mp hmem]
      exact List.mem_cons_self
  have hstep : ∀ (done : List (Transaction × BlockState)) (tx : Transaction) (s : BlockState)
      (placed : List (List (U64 × InscriptionId))) (transfers : Table InscriptionId (Ticker × U128))
      (messages : List (InscriptionId × BRC20Message)) (i : InscriptionState),
      (done ++ [(tx, s)]) <+: blockSteps deps cfg n height block →
      InscriptionsStep deps cfg height tx s.resolver s.inscriptions placed transfers messages i →
      Rooted (fun t => n.db.tables.HasTx t ∨ t ∈ done.map fun step => step.1.txid)
        (used ++ continuations deps cfg height done) (earlier ++ s.inscriptions.newInscriptions)
        s.inscriptions.partials →
      Rooted (fun t => n.db.tables.HasTx t ∨ t ∈ (done ++ [(tx, s)]).map fun step => step.1.txid)
        (used ++ continuations deps cfg height (done ++ [(tx, s)])) (earlier ++ i.newInscriptions)
        i.partials := by
    intro done tx s placed transfers messages i hpre hins hrooted
    rw [continuations_snoc, ← List.append_assoc]
    have hnodup' : (used ++ continuations deps cfg height done ++
        (continued deps cfg height (tx, s)).toList).Nodup := by
      rw [List.append_assoc, ← continuations_snoc]
      refine List.Nodup.sublist (List.Sublist.append_left ?_ _) hnodup
      exact List.Sublist.filterMap _ hpre.sublist
    refine (hrooted.step hins ?_ hnodup').mono ?_
    · rintro (hstored | htx)
      · exact hvalid.not_hasTx (hblock (tx, s) (hpre.subset (by simp))) hstored
      · have hsub := List.Nodup.sublist (hpre.sublist.map fun step => step.1.txid) htxids
        rw [List.map_append, List.nodup_append] at hsub
        exact hsub.2.2 _ htx _ (by simp) rfl
    · rintro t ((hseen | hdone) | heq)
      · exact Or.inl hseen
      · right
        rw [List.map_append]
        exact List.mem_append_left _ hdone
      · right
        rw [List.map_append, heq]
        exact List.mem_append_right _ (by simp)
  have hclosed : Rooted (fun t => n.db.tables.HasTx t ∨ t ∈ run.processed.steps.map fun step => step.1.txid)
      (used ++ continuations deps cfg height run.processed.steps)
      (earlier ++ run.processed.closed.inscriptions.newInscriptions)
      run.processed.closed.inscriptions.partials := by
    refine ProcessedTxs.induct (P := fun done _ s =>
      Rooted (fun t => n.db.tables.HasTx t ∨ t ∈ done.map fun step => step.1.txid)
        (used ++ continuations deps cfg height done) (earlier ++ s.inscriptions.newInscriptions)
        s.inscriptions.partials) run.processed.processes [] ?_ ?_
    · intro done tx idx rest later s s₁ hsuffix hpre ptx _ hrooted
      have hpre : done ++ [(tx, s)] <+: run.processed.steps := hpre
      rw [ptx.inscriptions_eq]
      refine hstep done tx s _ _ _ _ ?_ ptx.inscriptions hrooted
      rw [run.steps]
      exact hpre.trans (List.prefix_append _ _)
    · rw [run.processed.started_inscriptions.1]
      have hnil : continuations deps cfg height [] = [] := rfl
      rw [hnil, List.append_nil]
      change Rooted _ used (earlier ++ []) n.db.tables.partials
      rw [List.append_nil]
      exact h.mono (fun t => Or.inl)
  have hlast := hstep run.processed.steps run.processed.coinbase run.processed.closed _ _ _ _
    ⟨[], by rw [run.steps, List.append_nil]⟩ run.processed.inscriptions hclosed
  rw [← run.steps] at hlast
  obtain ⟨log, htables⟩ := run.tables
  have hpartials : n'.db.tables.partials = run.final.inscriptions.partials := by rw [htables]
  rw [hpartials, run.processed.inscriptions_eq]
  refine hlast.mono ?_
  rintro t (hseen | hdone)
  · exact run.hasTx hvalid (Or.inl hseen)
  · obtain ⟨step, hstep, rfl⟩ := List.mem_map.mp hdone
    exact run.hasTx hvalid (Or.inr (hblock step hstep))

/-- **Ids are distinct** in every run in which no two transactions continue the same partial
transaction. -/
theorem ids_nodup {memory : Bool} {l : List Transition} {n : Node}
    (run : Run deps cfg (Node.open_ memory) l n)
    (hvalid : ∀ e ∈ l, ValidBlock e.before.db.tables e.call.height e.call.block)
    (honce : ((runSteps deps cfg l).filterMap fun step => continued deps cfg step.1 step.2).Nodup) :
    ((records l).map NewInscriptionInfo.id).Nodup := by
  have hinv : Rooted n.db.tables.HasTx
      ((runSteps deps cfg l).filterMap fun step => continued deps cfg step.1 step.2) (records l)
      n.db.tables.partials := by
    induction run with
    | nil =>
      refine ⟨?_, ?_, List.nodup_nil, ?_, ?_⟩
      · intro q chain hq
        cases hq
      · intro info hinfo
        cases hinfo
      · intro q root rest hq
        cases hq
      · intro q q' root rest rest' hq
        cases hq
    | @snoc l n n' run call hcall ih =>
      obtain ⟨applied⟩ := apply_ok hcall
      have hlast : Transition.mk n call n' ∈ l ++ [⟨n, call, n'⟩] :=
        List.mem_append_right _ (List.mem_singleton_self _)
      have hsteps : (runSteps deps cfg (l ++ [⟨n, call, n'⟩])).filterMap
            (fun step => continued deps cfg step.1 step.2) =
          ((runSteps deps cfg l).filterMap fun step => continued deps cfg step.1 step.2) ++
            continuations deps cfg call.height (blockSteps deps cfg n call.height call.block) := by
        rw [runSteps_append, List.filterMap_append]
        unfold Transition.steps continuations
        rw [List.filterMap_map]
        rfl
      rw [hsteps] at honce ⊢
      rw [records_append, applied.records_eq]
      refine applied.rooted (hvalid _ hlast) (ih (fun e he => hvalid e (List.mem_append_left _ he)) ?_) honce
      exact (List.nodup_append.mp honce).1
  exact hinv.nodup

/-- The first of two pieces of an inscription. -/
def firstPiece : Bytes := [3, 111, 114, 100, 82, 1, 97, 81, 1, 98]

/-- The second piece. -/
def secondPiece : Bytes := [0, 1, 99]

/-- Transaction 12 starts an inscription in two pieces; the last block has the given transactions. -/
def afterFirstPiece (txs : List Transaction) : List Call := [
  callOf 0 1 0 [coinbaseTx 10 [2000000000, 3000000000]],
  callOf 1 2 1 [coinbaseTx 11 [5000000000], spendTx 12 ⟨10, 0⟩ firstPiece [500000000, 1500000000]],
  callOf 2 3 2 (coinbaseTx 13 [5000000000] :: txs)]

/-- Completing the partial inscription once, beside another reveal, gives two ids. -/
theorem ids_nodup_two_reveals :
    ∃ l n, Run emptyScripts fromFirstBlock (Node.open_ true) l n ∧
      (records l).map NewInscriptionInfo.id = [⟨12, 0⟩, ⟨15, 0⟩] ∧
      ((records l).map NewInscriptionInfo.id).Nodup := by
  have hsome : (runCalls emptyScripts fromFirstBlock (Node.open_ true) (afterFirstPiece
      [spendTx 14 ⟨12, 0⟩ secondPiece [500000000], spendTx 15 ⟨10, 1⟩ oneByteInscription [3000000000]])).isSome =
      true := by
    decide +kernel
  exact ⟨_, _, Run.ofCalls hsome, by decide +kernel,
    ids_nodup (Run.ofCalls hsome) (by decide +kernel) (by decide +kernel)⟩

/-- **An id is revealed twice**: two transactions spend different outputs of the partial transaction,
and each completes it. -/
theorem id_revealed_twice :
    ∃ l n, Run emptyScripts fromFirstBlock (Node.open_ true) l n ∧
      (∀ e ∈ l, ValidBlock e.before.db.tables e.call.height e.call.block) ∧
      (records l).map NewInscriptionInfo.id = [⟨12, 0⟩, ⟨12, 0⟩] ∧
      ¬ ((records l).map NewInscriptionInfo.id).Nodup := by
  have hsome : (runCalls emptyScripts fromFirstBlock (Node.open_ true) (afterFirstPiece
      [spendTx 14 ⟨12, 0⟩ secondPiece [500000000], spendTx 15 ⟨12, 1⟩ secondPiece [1500000000]])).isSome =
      true := by
    decide +kernel
  exact ⟨_, _, Run.ofCalls hsome, by decide +kernel, by decide +kernel, by decide +kernel⟩

end DogeIndexer.Compressor
