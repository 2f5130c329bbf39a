import DogeIndexer.Compressor.Live
import DogeIndexer.Compressor.Mints

/-!
# Dunes held by live outputs

The amount of a dune on the outputs of the table, over runs: it is what was issued and minted so
far less what was burned, and stays within 128 bits as long as no mint exceeds them.

* `circulating` — issued and minted amounts less burned ones, over the transactions of a run.
* `Ledger.step` — one transaction keeps the ledger of a block.
* `holdings_bounded` — the amounts held stay within 128 bits, and no addition overflows.
-/

set_option autoImplicit false

namespace DogeIndexer.Compressor

open Fallible

/-! ## Amounts on outputs -/

/-- The amount of an id on an output. -/
def carried (body : TxoBody) (id : U128) : Nat := tally (body.dunes.map fun e => (e.1.toU128, e.2)) id

/-- The amount of an id on the outputs of a table. -/
def held (live : Table TxoRef TxoBody) (id : U128) : Nat := live.total fun _ body => carried body id

/-- What the maps of a transaction's outputs hold of an id. -/
def mapsTotal (dunes : List Balances) (id : U128) : Nat := (dunes.map fun m => (m.getD id 0).val).sum

theorem stored_entries {l : List (DuneId × U128)} {entries : List (U128 × U128)}
    (h : (l.map fun e => (some e.1, e.2)) = entries.map fun e => (DuneId.tryFrom e.1, e.2)) :
    (l.map fun e => (e.1.toU128, e.2)) = entries := by
  induction l generalizing entries with
  | nil =>
    rw [List.map_nil, eq_comm, List.map_eq_nil_iff] at h
    rw [h]
    rfl
  | cons d l ih =>
    cases entries with
    | nil => cases h
    | cons e entries =>
      rw [List.map_cons, List.map_cons, List.cons.injEq] at h
      obtain ⟨hhead, htail⟩ := h
      rw [Prod.mk.injEq] at hhead
      rw [List.map_cons, ih htail, DuneId.toU128_tryFrom hhead.1.symm, hhead.2]

/-- The outputs of a transaction carry its maps. -/
theorem carried_bodies {bodies : List TxoBody} {dunes : List Balances}
    (h : (bodies.map fun b => b.dunes.map fun e => (some e.1, e.2)) = dunes.map storedDunes) (id : U128) :
    (bodies.map fun b => carried b id).sum = mapsTotal dunes id := by
  unfold mapsTotal
  congr 1
  induction bodies generalizing dunes with
  | nil =>
    rw [List.map_nil, eq_comm, List.map_eq_nil_iff] at h
    rw [h]
    rfl
  | cons b bodies ih =>
    cases dunes with
    | nil => cases h
    | cons m dunes =>
      rw [List.map_cons, List.map_cons, List.cons.injEq] at h
      obtain ⟨hhead, htail⟩ := h
      rw [List.map_cons, List.map_cons, ih htail]
      congr 1
      unfold carried
      rw [stored_entries hhead, tally_entries]

theorem tally_flatMap {α : Type} (f : α → List (U128 × U128)) (l : List α) (id : U128) :
    tally (l.flatMap f) id = (l.map fun a => tally (f a) id).sum := by
  induction l with
  | nil => rfl
  | cons a l ih => rw [List.flatMap_cons, tally_append, ih, List.map_cons, List.sum_cons]

section

variable {live : Table TxoRef TxoBody} {tx : Transaction} {s : BlockState}

/-- The dunes on the inputs of a transaction are those on the live outputs it spends. -/
theorem LiveTx.inputs_tally (h : LiveTx live tx s) (hnull : OutPoint.null ∉ spent tx) (id : U128) :
    tally (inputDunes tx s.resolver) id =
      ((spent tx).map (Table.weightAt (fun _ body => carried body id) live)).sum := by
  unfold inputDunes
  rw [tally_flatMap]
  unfold spent
  rw [List.map_map]
  refine congrArg List.sum (List.map_congr_left fun txin htxin => ?_)
  have hmem : txin.previousOutput ∈ spent tx := List.mem_map_of_mem htxin
  have hnot : txin.previousOutput.isNull = false := by
    unfold OutPoint.isNull
    simp only [decide_eq_false_iff_not]
    intro heq
    rw [heq] at hmem
    exact hnull hmem
  obtain ⟨body, hlive, hresolved⟩ := h.inputs _ hmem
  rw [Function.comp_apply, Table.weightAt_of_get hlive, hresolved, hnot]
  rfl

/-- A transaction takes the dunes off its inputs and puts those of its maps on its outputs. -/
theorem LiveTx.held_afterTx (h : LiveTx live tx s) (hnull : OutPoint.null ∉ spent tx) {bodies : List TxoBody}
    {dunes : List Balances}
    (hstored : (bodies.map fun b => b.dunes.map fun e => (some e.1, e.2)) = dunes.map storedDunes) (id : U128) :
    held (afterTx live tx bodies) id + tally (inputDunes tx s.resolver) id =
      held live id + mapsTotal dunes id := by
  obtain ⟨kept, hbefore, hafter⟩ := h.total_afterTx (fun body => carried body id) bodies
  rw [carried_bodies hstored] at hafter
  rw [h.inputs_tally hnull]
  unfold held
  omega

end

/-! ## Circulating amounts -/

/-- What a transaction burns of an id: everything on its inputs when it is not indexed or a cenotaph,
otherwise what no output receives. -/
def RuneStep.burnt (deps : Deps) (cfg : Config) (step : RuneStep) (id : U128) : Nat :=
  if step.height < cfg.firstRuneHeight ∨ isCenotaph deps step.tx = true then
    tally (inputDunes step.tx step.state.resolver) id
  else if defaultOutput deps step.tx = none then
    leftOver deps cfg step.state.resolver step.idx step.tx step.height step.state.dunes id
  else 0

/-- What is issued and minted of an id over a history, less what is burned. -/
def circulating (deps : Deps) (cfg : Config) (history : List RuneStep) (id : U128) : Nat :=
  history.foldl (fun total step =>
    total + drawn .mintable id (step.moved deps cfg) + drawn .issuance id (step.moved deps cfg) -
      step.burnt deps cfg id) 0

/-- What the edicts of an etching add to the premine. -/
def premineSum (deps : Deps) (cfg : Config) (step : RuneStep) : Nat :=
  match Dunestone.fromTransaction deps step.tx with
  | none => 0
  | some dunestone =>
    if dunestone.cenotaph = true ∨
        (issuanceOf deps cfg step.idx dunestone step.height step.state.dunes).isNone = true then 0
    else (dunestone.edicts.map fun edict =>
      if edict.id = 0 ∧ edict.output.val < 2 ^ 64 ∧ edict.output.val < step.tx.output.length then edict.amount.val
      else 0).sum

/-- No sum that `index_runes` adds up for a transaction exceeds 128 bits: the dunes on the inputs, those
directed to each output, and the premine. -/
structure AdditionsFit (deps : Deps) (cfg : Config) (step : RuneStep) : Prop where
  inputs : ∀ id, tally (inputDunes step.tx step.state.resolver) id < 2 ^ 128
  outputs : isCenotaph deps step.tx = false →
    ∀ id, ∀ o < step.tx.output.length,
      assigned deps cfg step.state.resolver step.idx step.tx step.height step.state.dunes o id < 2 ^ 128
  premine : premineSum deps cfg step < 2 ^ 128

/-- A transaction mints nothing beyond what 128 bits leave of the circulating amount, and its premine
fits. -/
structure Mintable (deps : Deps) (cfg : Config) (history : List RuneStep) (step : RuneStep) : Prop where
  mints : ∀ id, 0 < drawn .mintable id (step.moved deps cfg) →
    circulating deps cfg history id + drawn .mintable id (step.moved deps cfg) < 2 ^ 128
  premine : cfg.firstRuneHeight ≤ step.height → premineSum deps cfg step < 2 ^ 128

theorem circulating_append (deps : Deps) (cfg : Config) (history : List RuneStep) (step : RuneStep) (id : U128) :
    circulating deps cfg (history ++ [step]) id =
      circulating deps cfg history id + drawn .mintable id (step.moved deps cfg) +
        drawn .issuance id (step.moved deps cfg) - step.burnt deps cfg id := by
  unfold circulating
  rw [List.foldl_append]
  rfl

/-- A cenotaph moves nothing. -/
theorem plan_cenotaph {deps : Deps} {cfg : Config} {resolver : Table TxoRef TxoBody} {idx : Nat} {tx : Transaction}
    {height : Nat} {t : DuneTables} (h : isCenotaph deps tx = true) : plan deps cfg resolver idx tx height t = [] := by
  unfold plan
  unfold isCenotaph at h
  cases hdunestone : Dunestone.fromTransaction deps tx with
  | none => rfl
  | some dunestone =>
    rw [hdunestone] at h
    have hcen : dunestone.cenotaph = true := h
    simp [hcen]

section

variable {deps : Deps} {cfg : Config} {height idx : Nat} {tx : Transaction} {s : BlockState}
  {dunes : List Balances} {etches : List (Nat × U128)} {mints : List (Nat × Nat)} {t' : DuneTables}

/-- Amounts that the transaction can supply fit on its outputs. -/
theorem assigned_le (deps : Deps) (cfg : Config) (resolver : Table TxoRef TxoBody) (idx : Nat) (tx : Transaction)
    (height : Nat) (t : DuneTables) (id : U128) {o : Nat} (ho : o < tx.output.length) :
    assigned deps cfg resolver idx tx height t o id ≤ tally (inputDunes tx resolver) id +
      drawn .mintable id (plan deps cfg resolver idx tx height t) +
      drawn .issuance id (plan deps cfg resolver idx tx height t) := by
  have hsum := assigned_sum deps cfg resolver idx tx height t id
  have hpool := inputPool_val resolver tx id
  have hmod := Nat.mod_le (tally (inputDunes tx resolver) id) (2 ^ 128)
  have hone : assigned deps cfg resolver idx tx height t o id ≤ ((List.range tx.output.length).map fun o =>
      assigned deps cfg resolver idx tx height t o id).sum :=
    List.single_le_sum (fun _ _ => Nat.zero_le _) _ (List.mem_map_of_mem (List.mem_range.mpr ho))
  omega

/-- **What the outputs of a transaction hold and what it burns is what it supplies**, when its amounts fit. -/
theorem RunesStep.mapsTotal_add (h : RunesStep deps cfg height idx tx s.resolver s.dunes dunes etches mints t')
    (hfits : cfg.firstRuneHeight ≤ height → isCenotaph deps tx = false →
      Fits deps cfg s.resolver idx tx height s.dunes) (id : U128) :
    mapsTotal dunes id + RuneStep.burnt deps cfg ⟨height, idx, tx, s⟩ id = tally (inputDunes tx s.resolver) id +
      drawn .mintable id (moved deps cfg height idx tx s.resolver s.dunes) +
      drawn .issuance id (moved deps cfg height idx tx s.resolver s.dunes) := by
  have hempty : mapsTotal (tx.output.map fun _ => Table.empty) id = 0 := by
    refine List.sum_eq_zero ?_
    intro v hv
    obtain ⟨m, hm, rfl⟩ := List.mem_map.mp hv
    obtain ⟨_, -, rfl⟩ := List.mem_map.mp hm
    rfl
  unfold RuneStep.burnt
  cases h with
  | skipped hheight =>
    unfold moved
    rw [if_pos (Or.inl hheight), if_neg (by omega), hempty]
    simp
  | indexed hheight hindex =>
    obtain ⟨run, -⟩ := indexRunes_ok hindex
    unfold moved
    rw [if_pos hheight]
    cases hcen : isCenotaph deps tx with
    | true =>
      rw [if_pos (Or.inr rfl), run.cenotaph hcen, hempty, plan_cenotaph hcen]
      simp
    | false =>
      have heq := run.conserved hcen (hfits hheight hcen) id
      rw [run.burned hcen] at heq
      unfold supplied at heq
      rw [if_neg (by simp; omega)]
      exact heq

/-- What a transaction issues is of the dune that it etches. -/
theorem moved_issuance {t : DuneTables} {id : U128}
    (h : 0 < drawn .issuance id (moved deps cfg height idx tx s.resolver t)) :
    cfg.firstRuneHeight ≤ height ∧ idx < 2 ^ 16 ∧ id = DuneId.toU128 ⟨height, idx⟩ ∧
      ∀ dunestone, Dunestone.fromTransaction deps tx = some dunestone →
        ∃ a, issuanceOf deps cfg idx dunestone height t = some a := by
  unfold moved at h
  split at h
  · rename_i hheight
    have hle := (plan_le deps cfg s.resolver idx tx height t id).2.2
    unfold issuanceLimit at hle
    split at hle
    · omega
    · rename_i dunestone hdunestone
      split at hle
      · rename_i hissuance
        obtain ⟨a, ha, hid⟩ : ∃ a, issuanceOf deps cfg idx dunestone height t = some a ∧ a.id = id := by
          cases ha : issuanceOf deps cfg idx dunestone height t with
          | none =>
            rw [ha] at hissuance
            cases hissuance
          | some a =>
            rw [ha] at hissuance
            exact ⟨a, rfl, by simpa using hissuance⟩
        have hsame : a.id = DuneId.toU128 ⟨height, idx⟩ ∧ idx < 2 ^ 16 := by
          have hissued := ha
          unfold issuanceOf at hissued
          split at hissued
          · rename_i hallocation
            obtain ⟨-, hid, hidx, -⟩ := (allocationOf_ok hallocation).allocated hissued
            exact ⟨hid, hidx⟩
          · cases hissued
        refine ⟨hheight, hsame.2, ?_, fun d hd => ?_⟩
        · rw [← hsame.1, hid]
        · rw [hdunestone] at hd
          cases hd
          exact ⟨a, ha⟩
      · omega
  · simp at h

/-- A transaction that issues something enters its dune. -/
theorem RunesStep.entered (h : RunesStep deps cfg height idx tx s.resolver s.dunes dunes etches mints t')
    (hheight : height < 2 ^ 64) {id : U128}
    (hissued : 0 < drawn .issuance id (moved deps cfg height idx tx s.resolver s.dunes)) :
    ∃ terms, t'.termsById.get ⟨height, idx⟩ = some terms := by
  obtain ⟨-, -, -, hissuance⟩ := moved_issuance hissued
  rcases h.cases with ⟨hmoved, -⟩ | ⟨dunestone, etch, indices, hdunestone, -, -, -, ⟨step⟩⟩
  · rw [hmoved] at hissued
    exact absurd hissued (by simp)
  · obtain ⟨a, ha⟩ := hissuance dunestone hdunestone
    have hallocation : step.allocation = some a := by
      unfold issuanceOf at ha
      rw [step.allocates] at ha
      exact ha
    rw [step.terms hheight, hallocation]
    exact ⟨_, by rw [Table.get_insert, if_pos rfl]⟩

end

/-! ## The ledger of a block -/

/-- The amounts `total` that are held after the transactions of a history: the circulating ones, within
128 bits, of dunes with an entry.  Entries are of blocks in `old`, or of the first `idx` transactions of
the block at `height`. -/
structure Ledger (deps : Deps) (cfg : Config) (old : Nat → Prop) (height idx : Nat) (history : List RuneStep)
    (total : U128 → Nat) (t : DuneTables) : Prop where
  balance : ∀ id, total id = circulating deps cfg history id
  bounded : ∀ id, total id < 2 ^ 128
  known : ∀ id, 0 < total id → ∃ key terms, DuneId.tryFrom id = some key ∧ t.termsById.get key = some terms
  terms : ∀ key terms, t.termsById.get key = some terms → old key.block ∨ key.block = height ∧ key.tx < idx
  fits : ∀ step ∈ history, cfg.firstRuneHeight ≤ step.height → AdditionsFit deps cfg step

section

variable {deps : Deps} {cfg : Config} {old : Nat → Prop} {height idx : Nat} {tx : Transaction} {s : BlockState}
  {dunes : List Balances} {etches : List (Nat × U128)} {mints : List (Nat × Nat)} {t' : DuneTables}
  {history : List RuneStep} {total : U128 → Nat}

/-- The entry of the dune that a transaction would etch is not there yet. -/
theorem Ledger.fresh (h : Ledger deps cfg old height idx history total s.dunes) (hold : ∀ k, old k → k < height) :
    s.dunes.termsById.get ⟨height, idx⟩ = none := by
  cases hget : s.dunes.termsById.get ⟨height, idx⟩ with
  | none => rfl
  | some terms =>
    rcases h.terms _ _ hget with hk | ⟨-, hlt⟩
    · exact absurd (hold _ hk) (Nat.lt_irrefl _)
    · exact absurd hlt (Nat.lt_irrefl _)

/-- What is held, minted and issued of an id fits in 128 bits. -/
theorem Ledger.supply (h : Ledger deps cfg old height idx history total s.dunes)
    (hmintable : Mintable deps cfg history ⟨height, idx, tx, s⟩) (hheight : height < 2 ^ 64)
    (hold : ∀ k, old k → k < height) (id : U128) :
    total id + drawn .mintable id (moved deps cfg height idx tx s.resolver s.dunes) +
      drawn .issuance id (moved deps cfg height idx tx s.resolver s.dunes) < 2 ^ 128 := by
  have hbounded := h.bounded id
  have hmints := hmintable.mints id
  unfold RuneStep.moved at hmints
  rw [← h.balance] at hmints
  by_cases hissued : 0 < drawn .issuance id (moved deps cfg height idx tx s.resolver s.dunes)
  · -- the dune is new: nothing of it is held, and no claim of it is accepted
    obtain ⟨hfirst, hidx, rfl, -⟩ := moved_issuance hissued
    have hkey := DuneId.tryFrom_toU128 hheight hidx
    have hfresh := h.fresh hold
    have hzero : total (DuneId.toU128 ⟨height, idx⟩) = 0 := by
      by_contra hne
      obtain ⟨key, terms, hkey', hterms⟩ := h.known _ (Nat.pos_of_ne_zero hne)
      rw [hkey] at hkey'
      cases hkey'
      rw [hfresh] at hterms
      cases hterms
    have hunminted : drawn .mintable (DuneId.toU128 ⟨height, idx⟩)
        (moved deps cfg height idx tx s.resolver s.dunes) = 0 := by
      by_contra hne
      obtain ⟨limit, hacc, -⟩ := moved_mintable (Nat.pos_of_ne_zero hne)
      obtain ⟨terms, hterms, -⟩ := accepted_eq_some hkey hacc
      rw [hfresh] at hterms
      cases hterms
    have hle := (plan_le deps cfg s.resolver idx tx height s.dunes (DuneId.toU128 ⟨height, idx⟩)).2.2
    have hlimit : issuanceLimit deps cfg idx tx height s.dunes (DuneId.toU128 ⟨height, idx⟩) ≤ 2 ^ 128 - 1 := by
      unfold issuanceLimit
      split
      · omega
      · split <;> omega
    rw [hzero, hunminted]
    unfold moved
    rw [if_pos hfirst]
    omega
  · by_cases hminted : 0 < drawn .mintable id (moved deps cfg height idx tx s.resolver s.dunes)
    · have := hmints hminted
      simp only at this
      omega
    · omega

/-- **One transaction keeps the ledger.** -/
theorem Ledger.step (h : Ledger deps cfg old height idx history total s.dunes)
    (hrunes : RunesStep deps cfg height idx tx s.resolver s.dunes dunes etches mints t')
    (hinputs : ∀ id, tally (inputDunes tx s.resolver) id ≤ total id)
    (hmintable : Mintable deps cfg history ⟨height, idx, tx, s⟩) (hheight : height < 2 ^ 64)
    (hold : ∀ k, old k → k < height) :
    Ledger deps cfg old height (idx + 1) (history ++ [⟨height, idx, tx, s⟩])
      (fun id => total id - tally (inputDunes tx s.resolver) id + mapsTotal dunes id) t' := by
  have hsupply := h.supply hmintable hheight hold
  have hplan : cfg.firstRuneHeight ≤ height → moved deps cfg height idx tx s.resolver s.dunes =
      plan deps cfg s.resolver idx tx height s.dunes := fun hle => if_pos hle
  have hassigned : cfg.firstRuneHeight ≤ height → ∀ id, ∀ o < tx.output.length,
      assigned deps cfg s.resolver idx tx height s.dunes o id < 2 ^ 128 := by
    intro hfirst id o ho
    have hle := assigned_le deps cfg s.resolver idx tx height s.dunes id ho
    have hid := hsupply id
    have hin := hinputs id
    rw [hplan hfirst] at hid
    omega
  have htally : ∀ id, tally (inputDunes tx s.resolver) id < 2 ^ 128 :=
    fun id => Nat.lt_of_le_of_lt (hinputs id) (h.bounded id)
  have hadd := hrunes.mapsTotal_add (fun hfirst _ id => ⟨htally id, hassigned hfirst id⟩)
  obtain ⟨hkept, hadded⟩ := hrunes.terms hheight (h.fresh hold)
  refine ⟨fun id => ?_, fun id => ?_, fun id hpos => ?_, ?_, ?_⟩
  · have hid := hadd id
    have hin := hinputs id
    rw [circulating_append, ← h.balance]
    unfold RuneStep.moved
    simp only
    omega
  · have hid := hadd id
    have hs := hsupply id
    have hin := hinputs id
    omega
  · by_cases hissued : 0 < drawn .issuance id (moved deps cfg height idx tx s.resolver s.dunes)
    · obtain ⟨-, hidx, rfl, -⟩ := moved_issuance hissued
      obtain ⟨terms, hterms⟩ := hrunes.entered hheight hissued
      exact ⟨⟨height, idx⟩, terms, DuneId.tryFrom_toU128 hheight hidx, hterms⟩
    · by_cases hminted : 0 < drawn .mintable id (moved deps cfg height idx tx s.resolver s.dunes)
      · obtain ⟨limit, hacc, -⟩ := moved_mintable hminted
        obtain ⟨key, hkey⟩ : ∃ key, DuneId.tryFrom id = some key := by
          unfold accepted at hacc
          obtain ⟨key, hkey, -⟩ := Option.bind_eq_some_iff.mp hacc
          exact ⟨key, hkey⟩
        obtain ⟨terms, hterms, -⟩ := accepted_eq_some hkey hacc
        exact ⟨key, terms, hkey, hkept key terms hterms⟩
      · have hid := hadd id
        have hin := hinputs id
        obtain ⟨key, terms, hkey, hterms⟩ := h.known id (by omega)
        exact ⟨key, terms, hkey, hkept key terms hterms⟩
  · intro key terms hget
    rcases hadded key terms hget with hterms | ⟨rfl, -⟩
    · rcases h.terms key terms hterms with hk | ⟨hk, hlt⟩
      · exact Or.inl hk
      · exact Or.inr ⟨hk, Nat.lt_succ_of_lt hlt⟩
    · exact Or.inr ⟨rfl, Nat.lt_succ_self _⟩
  · intro step hmem hfirst
    rcases List.mem_append.mp hmem with hmem | hmem
    · exact h.fits step hmem hfirst
    · rw [List.mem_singleton.mp hmem] at hfirst ⊢
      exact ⟨htally, fun _ => hassigned hfirst, hmintable.premine hfirst⟩

end

/-! ## A block -/

section

variable {deps : Deps} {cfg : Config} {n n' : Node} {height : Nat} {block : Block} {mutable : Bool}

/-- A coinbase spends no dunes. -/
theorem coinbase_inputDunes {coinbase : Transaction} (h : spent coinbase = [OutPoint.null])
    (resolver : Table TxoRef TxoBody) : inputDunes coinbase resolver = [] := by
  unfold spent at h
  obtain ⟨txin, hinput, hnull⟩ := List.map_eq_singleton_iff.mp h
  unfold inputDunes
  simp [hinput, hnull, OutPoint.isNull]

/-- **A block keeps the ledger**, the amounts held being those on the outputs of the table. -/
theorem Applied.ledger (run : Applied deps cfg n height block mutable n')
    (hvalid : ValidBlock n.db.tables height block) (hsettled : Settled n.mem n.db.tables.txos)
    {old : Nat → Prop} (hold : ∀ k, old k → k < height) {history : List RuneStep}
    (h : Ledger deps cfg old height 0 history (held n.db.tables.txos) n.db.tables.dunes)
    (hmintable : ∀ done step, (done ++ [step]) <+: (runeSteps deps cfg n height block).map
        (fun e => (⟨height, e.1, e.2.1, e.2.2⟩ : RuneStep)) → Mintable deps cfg (history ++ done) step) :
    Ledger deps cfg old height block.txdata.length
      (history ++ (runeSteps deps cfg n height block).map fun e => ⟨height, e.1, e.2.1, e.2.2⟩)
      (held n'.db.tables.txos) n'.db.tables.dunes := by
  obtain ⟨hcbSpent, hothers⟩ := hvalid.coinbase.not_null run.processed.txdata
  rw [run.runeSteps_eq] at hmintable ⊢
  rw [List.map_cons, List.map_map] at hmintable ⊢
  -- the dunes of the coinbase are indexed first; its outputs are held back to the end of the block
  have hfirst : Ledger deps cfg old height 1 (history ++ [⟨height, 0, run.processed.coinbase, run.processed.opened⟩])
      (fun id => held n.db.tables.txos id + mapsTotal run.processed.dunes id) run.processed.duneTables := by
    have hopened : Ledger deps cfg old height 0 history (held n.db.tables.txos) run.processed.opened.dunes := by
      rw [run.opened_dunes.1]
      exact h
    have hinputs : ∀ id, tally (inputDunes run.processed.coinbase run.processed.opened.resolver) id = 0 := by
      intro id
      rw [coinbase_inputDunes hcbSpent]
      rfl
    have hstep := hopened.step run.processed.runes (fun id => by rw [hinputs]; exact Nat.zero_le _) ?_ hvalid.height hold
    · simpa only [hinputs, Nat.sub_zero] using hstep
    · have := hmintable [] _ (List.cons_prefix_cons.mpr ⟨rfl, List.nil_prefix⟩)
      rwa [List.append_nil] at this
  have hend := run.live_induct hvalid hsettled.agrees hsettled.null
    (P := fun live done s => Ledger deps cfg old height (done.length + 1)
      (history ++ ⟨height, 0, run.processed.coinbase, run.processed.opened⟩ ::
        (done.zipIdx 1).map fun e => ⟨height, e.2, e.1.1, e.1.2⟩)
      (fun id => held live id + mapsTotal run.processed.dunes id) s.dunes) ?_ ?_
  · obtain ⟨live, hlive, hfresh, htxos⟩ := hend
    obtain ⟨log, htables⟩ := run.tables
    have hlength : block.txdata.length = run.processed.steps.length + 1 := by
      have hmap := congrArg List.length (run.processed.processes.map_fst.trans (List.zipIdx_map_fst _ _))
      rw [List.length_map] at hmap
      rw [run.processed.txdata, List.length_cons, hmap]
    have hheld : held n'.db.tables.txos = fun id => held live id + mapsTotal run.processed.dunes id := by
      funext id
      rw [htxos]
      unfold held afterCoinbase
      rw [total_insert_numbered hfresh (fun body => carried body id), carried_bodies run.processed.stored]
    have hdunes : n'.db.tables.dunes = run.processed.closed.dunes := by
      rw [htables, congrArg BlockState.dunes run.processed.state]
    rw [hheld, hdunes, hlength]
    exact hlive
  · rw [run.processed.starts]
    exact hfirst
  · intro live done tx idx s s₁ ptx hidx hpre hliveTx _ hP
    obtain rfl := run.processed.index_eq hvalid.txids hidx hpre
    have hnull : OutPoint.null ∉ spent tx := hothers tx (List.fst_mem_of_mem_zipIdx hidx)
    have hafter := hliveTx.held_afterTx hnull ptx.stored
    have htaken : ∀ id, tally (inputDunes tx s.resolver) id ≤ held live id := by
      intro id
      have := Table.total_eraseAll (fun _ body => carried body id) live hliveTx.nodup
      rw [hliveTx.inputs_tally hnull]
      unfold held
      omega
    have hstep := hP.step ptx.runes (fun id => Nat.le_add_right_of_le (htaken id)) ?_ hvalid.height hold
    · have hdunes : s₁.dunes = ptx.duneTables := congrArg BlockState.dunes ptx.state
      rw [hdunes, List.length_append, List.length_singleton, List.zipIdx_append, List.map_append]
      have htotal : (fun id => held (afterTx live tx ptx.bodies) id + mapsTotal run.processed.dunes id) = fun id =>
          held live id + mapsTotal run.processed.dunes id - tally (inputDunes tx s.resolver) id +
            mapsTotal ptx.dunes id := by
        funext id
        have := hafter id
        have := htaken id
        omega
      rw [htotal]
      rw [List.append_assoc] at hstep
      simpa [Nat.add_comm 1] using hstep
    · obtain ⟨suffix, hsuffix⟩ := hpre
      refine hmintable (⟨height, 0, run.processed.coinbase, run.processed.opened⟩ ::
        (done.zipIdx 1).map fun e => ⟨height, e.2, e.1.1, e.1.2⟩) _ (List.cons_prefix_cons.mpr ⟨rfl, ?_⟩)
      rw [← hsuffix, List.zipIdx_append, List.map_append, List.zipIdx_append, List.map_append]
      refine ⟨_, congrArg₂ _ (congrArg₂ _ rfl ?_) rfl⟩
      simp [Nat.add_comm 1]

end

/-! ## Runs -/

/-- At the end of a block its entries are old. -/
theorem Ledger.next {deps : Deps} {cfg : Config} {old old' : Nat → Prop} {height idx : Nat}
    {history : List RuneStep} {total : U128 → Nat} {t : DuneTables}
    (h : Ledger deps cfg old height idx history total t) (hold : ∀ k, old k → old' k) (hheight : old' height)
    (height' : Nat) : Ledger deps cfg old' height' 0 history total t := by
  refine ⟨h.balance, h.bounded, h.known, ?_, h.fits⟩
  intro key terms hget
  rcases h.terms key terms hget with hk | ⟨hk, -⟩
  · exact Or.inl (hold _ hk)
  · exact Or.inl (hk ▸ hheight)

/-- The ledger along a run, with the entries of its stored blocks. -/
theorem Run.ledger {deps : Deps} {cfg : Config} {memory : Bool} {l : List Transition} {n : Node}
    (run : Run deps cfg (Node.open_ memory) l n)
    (hvalid : ∀ e ∈ l, ValidBlock e.before.db.tables e.call.height e.call.block)
    (hmintable : ∀ history step, (history ++ [step]) <+: runeHistory deps cfg l →
      Mintable deps cfg history step) (height : Nat) :
    Ledger deps cfg (fun k => ∃ entry, n.db.tables.blockByHeight.get k = some entry) height 0
      (runeHistory deps cfg l) (held n.db.tables.txos) n.db.tables.dunes := by
  induction run generalizing height with
  | nil =>
    refine ⟨fun id => rfl, fun id => Nat.two_pow_pos 128, ?_, ?_, ?_⟩
    · intro id hpos
      exact absurd hpos (Nat.lt_irrefl _)
    · intro key terms hget
      cases hget
    · intro step hmem
      cases hmem
  | @snoc l n n' run call hcall ih =>
    obtain ⟨applied⟩ := apply_ok hcall
    have hlast := hvalid ⟨n, call, n'⟩ (List.mem_append_right _ (List.mem_singleton_self _))
    have hearlier := fun e he => hvalid e (List.mem_append_left _ he)
    rw [runeHistory_append] at hmintable ⊢
    have hbefore := ih hearlier (fun history step hpre =>
      hmintable history step (hpre.trans (List.prefix_append _ _))) call.height
    have hafter := applied.ledger hlast (run.settled hearlier)
      (fun k ⟨entry, hget⟩ => hlast.later (k, entry) (Table.mem_entries.mpr hget)) hbefore
      (fun done step hpre => hmintable _ step (by
        rw [List.append_assoc]
        exact (List.prefix_append_right_inj _).mpr hpre))
    obtain ⟨log, htables⟩ := applied.tables
    refine hafter.next ?_ ?_ height
    · rintro k ⟨entry, hget⟩
      rw [htables]
      simp only [Table.get_insert]
      split
      · exact ⟨_, rfl⟩
      · exact ⟨entry, hget⟩
    · rw [htables]
      exact ⟨_, by rw [Table.get_insert, if_pos rfl]⟩

/-- **Dune amounts stay within 128 bits** over every run of valid blocks whose mints do: what the live
outputs hold of a dune, and every sum that `index_runes` adds up. -/
theorem holdings_bounded {deps : Deps} {cfg : Config} {memory : Bool} {l : List Transition} {n : Node}
    (run : Run deps cfg (Node.open_ memory) l n)
    (hvalid : ∀ e ∈ l, ValidBlock e.before.db.tables e.call.height e.call.block)
    (hmintable : ∀ history step, (history ++ [step]) <+: runeHistory deps cfg l →
      Mintable deps cfg history step) :
    (∀ id, held n.db.tables.txos id < 2 ^ 128) ∧
      ∀ step ∈ runeHistory deps cfg l, cfg.firstRuneHeight ≤ step.height → AdditionsFit deps cfg step := by
  have hledger := run.ledger hvalid hmintable 0
  exact ⟨hledger.bounded, hledger.fits⟩

/-- Something is drawn of an id that some draw names. -/
theorem exists_draw {pool : Pool} {id : U128} {l : List Draw} (h : 0 < drawn pool id l) :
    ∃ d ∈ l, d.id = id := by
  by_contra hnone
  refine Nat.ne_of_gt h (List.sum_eq_zero fun amount hmem => ?_)
  obtain ⟨d, hd, rfl⟩ := List.mem_map.mp hmem
  exact if_neg fun hsame => hnone ⟨d, hd, hsame.2⟩

/-- What holds at every position of a list with the entries before it. -/
theorem forall_at {α : Type} {l : List α} {P : List α → α → Prop} (h : ∀ e ∈ l.zipIdx, P (l.take e.2) e.1)
    {before : List α} {a : α} (hpre : (before ++ [a]) <+: l) : P before a := by
  obtain ⟨suffix, rfl⟩ := hpre
  have hat := h (a, before.length) (by
    rw [List.mk_mem_zipIdx_iff_getElem?, List.append_assoc, List.getElem?_append_right (Nat.le_refl _), Nat.sub_self]
    rfl)
  rwa [List.append_assoc, List.take_left] at hat

/-- Only the ids of the draws need be looked at. -/
theorem Mintable.ofDraws {deps : Deps} {cfg : Config} {history : List RuneStep} {step : RuneStep}
    (hmints : ∀ d ∈ step.moved deps cfg,
      circulating deps cfg history d.id + drawn .mintable d.id (step.moved deps cfg) < 2 ^ 128)
    (hpremine : premineSum deps cfg step < 2 ^ 128) : Mintable deps cfg history step := by
  refine ⟨fun id hpos => ?_, fun _ => hpremine⟩
  obtain ⟨d, hmem, rfl⟩ := exists_draw hpos
  exact hmints d hmem

/-- A dune of which 7 are issued is minted once: the outputs hold 12. -/
theorem holdings_bounded_once :
    ∃ l n, Run duneScripts fromFirstBlock (Node.open_ true) l n ∧
      (∀ id, held n.db.tables.txos id < 2 ^ 128) ∧ held n.db.tables.txos (DuneId.toU128 ⟨1, 1⟩) = 12 := by
  have hsome : (runCalls duneScripts fromFirstBlock (Node.open_ true) (etchedAndMinted etchScript)).isSome = true := by
    decide +kernel
  refine ⟨_, _, Run.ofCalls hsome, (holdings_bounded (Run.ofCalls hsome) (by decide +kernel) ?_).1, ?_⟩
  · intro history step hpre
    obtain ⟨hmints, hpremine⟩ := forall_at (P := fun history step =>
      (∀ d ∈ step.moved duneScripts fromFirstBlock, circulating duneScripts fromFirstBlock history d.id +
        drawn .mintable d.id (step.moved duneScripts fromFirstBlock) < 2 ^ 128) ∧
      premineSum duneScripts fromFirstBlock step < 2 ^ 128) (by decide +kernel) hpre
    exact Mintable.ofDraws hmints hpremine
  · decide +kernel

/-- All of a dune is issued, and then some is minted. -/
theorem holdings_exceed :
    ∃ l n, Run duneScripts fromFirstBlock (Node.open_ true) l n ∧
      (∀ e ∈ l, ValidBlock e.before.db.tables e.call.height e.call.block) ∧
      held n.db.tables.txos (DuneId.toU128 ⟨1, 1⟩) = 2 ^ 128 + 4 := by
  have hsome : (runCalls duneScripts fromFirstBlock (Node.open_ true)
      (etchedAndMinted wholeEtchScript)).isSome = true := by
    decide +kernel
  exact ⟨_, _, Run.ofCalls hsome, by decide +kernel, by decide +kernel⟩

end DogeIndexer.Compressor
