import DogeIndexer.Compressor.DuneLedger

/-!
# Mints over runs

The dune tables along a run of applied blocks: which claims are reported, which are counted, and
the terms they obey.

* `Applied.rune_induct` — rule for results about the dune tables of an applied block.
* `Run.termsKept` — the terms and counts in the dune tables along a run.
* `mints_respect_terms` — counts within the cap; what is minted, and what outputs receive, within the terms.
-/

set_option autoImplicit false

namespace DogeIndexer.Compressor

open Fallible

/-- The transactions of a block in the order in which their dunes are indexed, the coinbase first,
each with its number and the state before it. -/
def runeSteps (deps : Deps) (cfg : Config) (n : Node) (height : Nat) (block : Block) :
    List (Nat × Transaction × BlockState) :=
  match (externalRefs block).forM (resolveInput deps cfg n.db.tables.txos)
      (initialState deps n.db.tables height n.memory) with
  | .error _ _ => []
  | .ok _ opened =>
    (block.txdata.head?.toList.map fun coinbase => (0, coinbase, opened)) ++
      ((blockSteps deps cfg n height block).dropLast.zipIdx 1).map fun e => (e.2, e.1)

section

variable {deps : Deps} {cfg : Config} {n n' : Node} {height : Nat} {block : Block} {mutable : Bool}

theorem Applied.runeSteps_eq (run : Applied deps cfg n height block mutable n') :
    runeSteps deps cfg n height block = (0, run.processed.coinbase, run.processed.opened) ::
      (run.processed.steps.zipIdx 1).map fun e => (e.2, e.1) := by
  unfold runeSteps
  rw [run.processed.resolves, run.steps, List.dropLast_concat, run.processed.txdata]
  rfl

/-- The transactions of a block are indexed in their order. -/
theorem Applied.runeSteps_tx (run : Applied deps cfg n height block mutable n') :
    (runeSteps deps cfg n height block).map (fun step => step.2.1) = block.txdata := by
  rw [run.runeSteps_eq, run.processed.txdata, List.map_cons, List.map_map]
  have hsteps := run.processed.processes.map_fst
  rw [List.zipIdx_map_fst] at hsteps
  rw [← hsteps]
  congr 1
  rw [show ((fun step : Nat × Transaction × BlockState => step.2.1) ∘
    fun e : (Transaction × BlockState) × Nat => (e.2, e.1)) = Prod.fst ∘ Prod.fst from rfl, ← List.map_map,
    List.zipIdx_map_fst]

/-- Resolving the inputs leaves the dune tables and the reports alone. -/
theorem Applied.opened_dunes (run : Applied deps cfg n height block mutable n') :
    run.processed.opened.dunes = n.db.tables.dunes ∧ run.processed.opened.successfulEtches = [] ∧
      run.processed.opened.successfulMints = [] := by
  obtain ⟨⟨resolver, hopen⟩, -⟩ := resolveInputs_ok run.processed.resolves
  rw [hopen]
  exact ⟨rfl, rfl, rfl⟩

/-- **Rule for the dune tables of an applied block**: what each transaction preserves holds at the
end. -/
theorem Applied.rune_induct (run : Applied deps cfg n height block mutable n')
    {P : List (Nat × Transaction × BlockState) → DuneTables → List (Nat × U128) → List (Nat × Nat) → Prop}
    (h : P [] n.db.tables.dunes [] [])
    (hstep : ∀ done idx tx s dunes etches mints t,
      (done ++ [(idx, tx, s)]) <+: runeSteps deps cfg n height block → idx = done.length →
      block.txdata[idx]? = some tx →
      RunesStep deps cfg height idx tx s.resolver s.dunes dunes etches mints t →
      P done s.dunes s.successfulEtches s.successfulMints →
      P (done ++ [(idx, tx, s)]) t (s.successfulEtches ++ etches) (s.successfulMints ++ mints)) :
    P (runeSteps deps cfg n height block) run.final.dunes run.final.successfulEtches
      run.final.successfulMints := by
  obtain ⟨hdunes, hetches, hmints⟩ := run.opened_dunes
  rw [run.runeSteps_eq] at hstep ⊢
  have hfirst := hstep [] 0 run.processed.coinbase run.processed.opened run.processed.dunes
    run.processed.etches run.processed.mints run.processed.duneTables (List.cons_prefix_cons.mpr ⟨rfl, List.nil_prefix⟩)
    rfl (by rw [run.processed.txdata]; rfl) run.processed.runes (by rw [hdunes, hetches, hmints]; exact h)
  have hend := ProcessedTxs.induct (P := fun done rest s =>
      done.length + rest.length = run.processed.txs.length ∧
      P ((0, run.processed.coinbase, run.processed.opened) :: (done.zipIdx 1).map fun e => (e.2, e.1)) s.dunes
        s.successfulEtches s.successfulMints) run.processed.processes [] ?_ ⟨by simp, ?_⟩
  · have hfinal := run.processed.state
    rw [congrArg BlockState.dunes hfinal, congrArg BlockState.successfulEtches hfinal,
      congrArg BlockState.successfulMints hfinal]
    exact hend.2
  · rintro done tx idx rest later s₁ s₂ ⟨before, hbefore⟩ hpre ptx hlater ⟨hlength, hP⟩
    have hlen : before.length = done.length := by
      have := congrArg List.length hbefore
      rw [List.length_append, List.length_zipIdx, List.length_cons] at this
      simp only [List.length_cons] at hlength
      omega
    have hat : (run.processed.txs.zipIdx 1)[done.length]? = some (tx, idx) := by
      rw [← hbefore, List.getElem?_append_right (by omega), hlen, Nat.sub_self]
      rfl
    rw [List.getElem?_zipIdx] at hat
    obtain ⟨tx', htx', heq⟩ := Option.map_eq_some_iff.mp hat
    cases heq
    refine ⟨by simp only [List.length_append, List.length_cons, List.length_nil] at hlength ⊢; omega, ?_⟩
    have hnext := hstep _ (1 + done.length) tx s₁ ptx.dunes ptx.etches ptx.mints ptx.duneTables ?_ ?_ ?_ ptx.runes hP
    · have hstate := ptx.state
      rw [congrArg BlockState.dunes hstate, congrArg BlockState.successfulEtches hstate,
        congrArg BlockState.successfulMints hstate, List.zipIdx_append, List.map_append]
      exact hnext
    · rw [List.nil_append] at hpre
      obtain ⟨suffix, hsuffix⟩ := hpre
      refine List.cons_prefix_cons.mpr ⟨rfl, ?_⟩
      rw [← hsuffix, List.zipIdx_append, List.map_append, List.zipIdx_append, List.map_append]
      exact List.prefix_append _ _
    · simp
      omega
    · rw [run.processed.txdata, Nat.add_comm, List.getElem?_cons_succ]
      exact htx'
  · rw [run.processed.starts]
    exact hfirst

end

/-! ## One transaction -/

/-- The draws of a transaction that is indexed. -/
def moved (deps : Deps) (cfg : Config) (height idx : Nat) (tx : Transaction) (resolver : Table TxoRef TxoBody)
    (t : DuneTables) : List Draw :=
  if cfg.firstRuneHeight ≤ height then plan deps cfg resolver idx tx height t else []

/-- A runes step: nothing moves and nothing changes, or a dunestone does it. -/
theorem RunesStep.cases {deps : Deps} {cfg : Config} {height idx : Nat} {tx : Transaction}
    {resolver : Table TxoRef TxoBody} {t t' : DuneTables} {dunes : List Balances} {etches : List (Nat × U128)}
    {mints : List (Nat × Nat)} (h : RunesStep deps cfg height idx tx resolver t dunes etches mints t') :
    (moved deps cfg height idx tx resolver t = [] ∧ etches = [] ∧ mints = [] ∧ t' = t ∧
      (cfg.firstRuneHeight ≤ height → Dunestone.fromTransaction deps tx = none)) ∨
    ∃ dunestone etch indices, Dunestone.fromTransaction deps tx = some dunestone ∧
      cfg.firstRuneHeight ≤ height ∧
      etches = etch.toList.map (fun name => (idx, name)) ∧ mints = indices.map (fun m => (idx, m)) ∧
      Nonempty (DuneStep deps cfg idx height dunestone (moved deps cfg height idx tx resolver t) t etch indices t') := by
  cases h with
  | indexed hheight hindex =>
    unfold moved
    rw [if_pos hheight]
    obtain ⟨-, hnone, hsome⟩ := indexRunes_ok hindex
    cases hdunestone : Dunestone.fromTransaction deps tx with
    | none =>
      obtain ⟨hetch, hmints, rfl⟩ := hnone hdunestone
      rw [hetch, hmints]
      refine Or.inl ⟨?_, rfl, rfl, rfl, fun _ => rfl⟩
      unfold plan
      rw [hdunestone]
    | some dunestone =>
      exact Or.inr ⟨dunestone, _, _, rfl, hheight, rfl, rfl, hsome dunestone hdunestone⟩
  | skipped hheight =>
    unfold moved
    rw [if_neg (by omega)]
    exact Or.inl ⟨rfl, rfl, rfl, rfl, fun hle => absurd hheight (by omega)⟩

section

variable {deps : Deps} {cfg : Config} {idx height : Nat} {dunestone : Dunestone} {draws : List Draw}
  {t t' : DuneTables} {etch : Option U128} {mints : List Nat}

theorem DuneStep.id_eq (step : DuneStep deps cfg idx height dunestone draws t etch mints t') {a : Allocation}
    (ha : step.allocation = some a) (hheight : height < 2 ^ 64) : step.id = ⟨height, idx⟩ := by
  obtain ⟨-, hid, hidx, -⟩ := step.etches.allocated ha
  have hidentified := step.identified a ha
  rw [hid, DuneId.tryFrom_toU128 hheight hidx] at hidentified
  exact (Option.some.inj hidentified).symm

/-- The terms after a dunestone: those before, and the entry of the dune etched here. -/
theorem DuneStep.terms (step : DuneStep deps cfg idx height dunestone draws t etch mints t')
    (hheight : height < 2 ^ 64) :
    t'.termsById = match step.allocation with
      | none => t.termsById
      | some a => t.termsById.insert ⟨height, idx⟩ (entryTerms dunestone a.dune height) := by
  obtain ⟨hterms, -, -⟩ := step.etches.kept
  have htables := congrArg DuneTables.termsById step.tables
  rw [htables]
  cases ha : step.allocation with
  | none => exact hterms
  | some a =>
    rw [step.id_eq ha hheight]
    simp only [enterDune, createRuneEntry, hterms]

theorem DuneStep.mints_eq (step : DuneStep deps cfg idx height dunestone draws t etch mints t') :
    t'.mintsById = step.counts := by
  have htables := congrArg DuneTables.mintsById step.tables
  rw [htables]
  cases step.allocation <;> rfl

end

/-- Terms are only added by a transaction, under its own number. -/
theorem RunesStep.terms {deps : Deps} {cfg : Config} {height idx : Nat} {tx : Transaction}
    {resolver : Table TxoRef TxoBody} {t t' : DuneTables} {dunes : List Balances} {etches : List (Nat × U128)}
    {mints : List (Nat × Nat)} (h : RunesStep deps cfg height idx tx resolver t dunes etches mints t')
    (hheight : height < 2 ^ 64) (hnew : t.termsById.get ⟨height, idx⟩ = none) :
    (∀ key terms, t.termsById.get key = some terms → t'.termsById.get key = some terms) ∧
    ∀ key terms, t'.termsById.get key = some terms → t.termsById.get key = some terms ∨
      (key = ⟨height, idx⟩ ∧ ∃ dunestone, Dunestone.fromTransaction deps tx = some dunestone ∧
        terms = entryTerms dunestone terms.name height) := by
  rcases h.cases with ⟨-, -, -, rfl, -⟩ | ⟨dunestone, etch, indices, hdunestone, -, -, -, ⟨step⟩⟩
  · exact ⟨fun _ _ hget => hget, fun _ _ hget => Or.inl hget⟩
  · rw [step.terms hheight]
    cases step.allocation with
    | none => exact ⟨fun _ _ hget => hget, fun _ _ hget => Or.inl hget⟩
    | some a =>
      simp only [Table.get_insert]
      refine ⟨fun key terms hget => ?_, fun key terms hget => ?_⟩
      · rw [if_neg]
        · exact hget
        · rintro rfl
          rw [hnew] at hget
          cases hget
      · split at hget
        · rename_i hkey
          cases hget
          refine Or.inr ⟨hkey, dunestone, hdunestone, ?_⟩
          unfold entryTerms
          split
          · rfl
          · split <;> rfl
        · exact Or.inl hget

/-- A claim is accepted under the terms of its dune. -/
theorem accepted_eq_some {t : DuneTables} {height : Nat} {id limit : U128} {key : DuneId}
    (hkey : DuneId.tryFrom id = some key) (h : accepted t height id = some limit) :
    ∃ terms, t.termsById.get key = some terms ∧ limit = terms.amount.getD 0 ∧
      (∀ start, terms.startHeight = some start → start ≤ height) ∧
      (∀ stop, terms.endHeight = some stop → height < stop) ∧
      t.mintsById.getD key 0 < terms.cap.getD (Fin.ofNat (2 ^ 128) (2 ^ 128 - 1)) := by
  unfold accepted at h
  rw [hkey, Option.bind_some] at h
  unfold mint at h
  split at h
  · cases h
  · rename_i terms hterms
    split at h
    · cases h
    · rename_i hstart
      split at h
      · cases h
      · rename_i hend
        split at h
        · cases h
        · rename_i hcap
          refine ⟨terms, hterms, (Option.some.inj h).symm, ?_, ?_, not_le.mp hcap⟩
          · intro start hs
            rw [hs] at hstart
            simpa using hstart
          · intro stop hs
            rw [hs] at hend
            simpa using hend

/-- What a transaction mints it mints under an accepted claim, within its limit. -/
theorem moved_mintable {deps : Deps} {cfg : Config} {height idx : Nat} {tx : Transaction}
    {resolver : Table TxoRef TxoBody} {t : DuneTables} {id : U128}
    (h : 0 < drawn .mintable id (moved deps cfg height idx tx resolver t)) :
    ∃ limit, accepted t height id = some limit ∧
      drawn .mintable id (moved deps cfg height idx tx resolver t) ≤ limit.val ∧
      ∀ dunestone, Dunestone.fromTransaction deps tx = some dunestone → id ∈ dunestone.claims := by
  unfold moved at h ⊢
  split at h
  · rename_i hheight
    have hle := (plan_le deps cfg resolver idx tx height t id).2.1
    unfold mintLimit at hle
    split at hle
    · omega
    · rename_i dunestone hdunestone
      split at hle
      · rename_i hclaim
        cases hacc : accepted t height id with
        | none =>
          rw [hacc] at hle
          simp only [Option.getD_none, Fin.val_zero] at hle
          omega
        | some limit =>
          rw [hacc] at hle
          rw [if_pos hheight]
          refine ⟨limit, rfl, hle, fun d hd => ?_⟩
          rw [hdunestone] at hd
          cases hd
          exact hclaim
      · omega
  · simp at h

/-- The counts after a transaction. -/
theorem RunesStep.mints_val {deps : Deps} {cfg : Config} {height idx : Nat} {tx : Transaction} {s : BlockState}
    {dunes : List Balances} {etches : List (Nat × U128)} {mints : List (Nat × Nat)} {t' : DuneTables}
    (h : RunesStep deps cfg height idx tx s.resolver s.dunes dunes etches mints t') (key : DuneId) :
    (t'.mintsById.getD key 0).val = (s.dunes.mintsById.getD key 0).val +
      if ∃ id, DuneId.tryFrom id = some key ∧
        0 < drawn .mintable id (moved deps cfg height idx tx s.resolver s.dunes) then 1 else 0 := by
  rcases h.cases with ⟨hmoved, -, -, rfl, -⟩ | ⟨dunestone, etch, indices, -, -, -, -, ⟨step⟩⟩
  · rw [if_neg (by simp [hmoved]), Nat.add_zero]
  · rw [step.mints_eq, step.counted key]
    split
    · rename_i hminted
      obtain ⟨id, hkey, hpos⟩ := hminted
      obtain ⟨limit, hacc, -⟩ := moved_mintable hpos
      obtain ⟨terms, -, -, -, -, hcap⟩ := accepted_eq_some hkey hacc
      have hlt : (s.dunes.mintsById.getD key 0).val <
          (terms.cap.getD (Fin.ofNat (2 ^ 128) (2 ^ 128 - 1))).val := hcap
      exact Fin.val_add_one_of_lt' (by omega)
    · rw [Fin.add_zero, Nat.add_zero]

/-! ## Terms over runs -/

/-- A transaction of a run whose dunes are indexed, with the state before it. -/
structure RuneStep where
  height : Nat
  idx : Nat
  tx : Transaction
  state : BlockState

/-- The transactions of a call in the order in which their dunes are indexed. -/
def Transition.runeSteps (deps : Deps) (cfg : Config) (e : Transition) : List RuneStep :=
  (Compressor.runeSteps deps cfg e.before e.call.height e.call.block).map fun step =>
    ⟨e.call.height, step.1, step.2.1, step.2.2⟩

/-- The transactions of a run. -/
def runeHistory (deps : Deps) (cfg : Config) (l : List Transition) : List RuneStep :=
  l.flatMap (Transition.runeSteps deps cfg)

theorem runeHistory_append (deps : Deps) (cfg : Config) (l : List Transition) (e : Transition) :
    runeHistory deps cfg (l ++ [e]) = runeHistory deps cfg l ++ e.runeSteps deps cfg := by
  simp [runeHistory]

/-- The draws of a transaction of a run. -/
def RuneStep.moved (deps : Deps) (cfg : Config) (step : RuneStep) : List Draw :=
  Compressor.moved deps cfg step.height step.idx step.tx step.state.resolver step.state.dunes

/-- No dune is minted more often than its cap allows. -/
def CapsKept (t : DuneTables) : Prop :=
  ∀ key terms cap, t.termsById.get key = some terms → terms.cap = some cap → t.mintsById.getD key 0 ≤ cap

/-- The dune tables after the transactions of a history. -/
structure TermsKept (deps : Deps) (cfg : Config) (history : List RuneStep) (t : DuneTables) : Prop where
  etched : ∀ key terms, t.termsById.get key = some terms → ∃ step ∈ history,
    step.height = key.block ∧ step.idx = key.tx ∧ ∃ dunestone,
      Dunestone.fromTransaction deps step.tx = some dunestone ∧ terms = entryTerms dunestone terms.name key.block
  known : ∀ key, t.mintsById.getD key 0 ≠ 0 → ∃ terms, t.termsById.get key = some terms
  caps : CapsKept t
  earlier : ∀ step ∈ history, CapsKept step.state.dunes
  minted : ∀ step ∈ history, ∀ id key, DuneId.tryFrom id = some key →
    0 < drawn .mintable id (step.moved deps cfg) → ∃ terms, t.termsById.get key = some terms ∧
      drawn .mintable id (step.moved deps cfg) ≤ (terms.amount.getD 0).val ∧
      (∀ start, terms.startHeight = some start → start ≤ step.height) ∧
      (∀ stop, terms.endHeight = some stop → step.height < stop)

/-- Minting counts up to the cap and no further. -/
theorem count_le_cap {count : U128} {cap : Option U128} {c : U128}
    (h : count < cap.getD (Fin.ofNat (2 ^ 128) (2 ^ 128 - 1))) (hcap : cap = some c) : count + 1 ≤ c := by
  rw [hcap, Option.getD_some] at h
  have hlt : count.val < c.val := h
  have hc := c.isLt
  rw [Fin.le_def, Fin.val_add_one_of_lt' (by omega)]
  omega

section

variable {deps : Deps} {cfg : Config} {height idx : Nat} {tx : Transaction} {s : BlockState}
  {dunes : List Balances} {etches : List (Nat × U128)} {mints : List (Nat × Nat)} {t' : DuneTables}
  {history : List RuneStep}

/-- One transaction. -/
theorem TermsKept.step (h : TermsKept deps cfg history s.dunes)
    (hrunes : RunesStep deps cfg height idx tx s.resolver s.dunes dunes etches mints t')
    (hheight : height < 2 ^ 64) (hfresh : ∀ step ∈ history, step.height = height → step.idx < idx) :
    TermsKept deps cfg (history ++ [⟨height, idx, tx, s⟩]) t' := by
  have hnew : s.dunes.termsById.get ⟨height, idx⟩ = none := by
    cases hget : s.dunes.termsById.get ⟨height, idx⟩ with
    | none => rfl
    | some terms =>
      obtain ⟨step, hmem, hblock, htx, -⟩ := h.etched _ _ hget
      have := hfresh step hmem hblock
      simp only at htx
      omega
  have hearlier : ∀ step ∈ history ++ [⟨height, idx, tx, s⟩], CapsKept step.state.dunes := by
    intro step hmem
    rcases List.mem_append.mp hmem with hmem | hmem
    · exact h.earlier step hmem
    · rw [List.mem_singleton.mp hmem]
      exact h.caps
  obtain ⟨hkept, hadded⟩ := hrunes.terms hheight hnew
  have hetched : ∀ key terms, t'.termsById.get key = some terms → ∃ step ∈ history ++ [⟨height, idx, tx, s⟩],
      step.height = key.block ∧ step.idx = key.tx ∧ ∃ dunestone,
        Dunestone.fromTransaction deps step.tx = some dunestone ∧ terms = entryTerms dunestone terms.name key.block := by
    intro key terms hget
    rcases hadded key terms hget with hold | ⟨rfl, dunestone, hdunestone, heq⟩
    · obtain ⟨step, hmem, hstep⟩ := h.etched key terms hold
      exact ⟨step, List.mem_append_left _ hmem, hstep⟩
    · exact ⟨⟨height, idx, tx, s⟩, List.mem_append_right _ (List.mem_singleton.mpr rfl), rfl, rfl, dunestone,
        hdunestone, heq⟩
  have hminted : ∀ id key, DuneId.tryFrom id = some key →
      0 < drawn .mintable id (Compressor.moved deps cfg height idx tx s.resolver s.dunes) →
      ∃ terms, s.dunes.termsById.get key = some terms ∧
        drawn .mintable id (Compressor.moved deps cfg height idx tx s.resolver s.dunes) ≤ (terms.amount.getD 0).val ∧
        (∀ start, terms.startHeight = some start → start ≤ height) ∧
        (∀ stop, terms.endHeight = some stop → height < stop) ∧
        s.dunes.mintsById.getD key 0 < terms.cap.getD (Fin.ofNat (2 ^ 128) (2 ^ 128 - 1)) := by
    intro id key hkey hpos
    obtain ⟨limit, hacc, hle, -⟩ := moved_mintable hpos
    obtain ⟨terms, hget, rfl, hstart, hend, hcap⟩ := accepted_eq_some hkey hacc
    exact ⟨terms, hget, hle, hstart, hend, hcap⟩
  have hcounts : ∀ key, t'.mintsById.getD key 0 = s.dunes.mintsById.getD key 0 +
      if ∃ id, DuneId.tryFrom id = some key ∧
        0 < drawn .mintable id (Compressor.moved deps cfg height idx tx s.resolver s.dunes) then 1 else 0 := by
    intro key
    rcases hrunes.cases with ⟨hmoved, -, -, rfl, -⟩ | ⟨dunestone, etch, indices, -, -, -, -, ⟨step⟩⟩
    · rw [if_neg (by simp [hmoved]), Fin.add_zero]
    · rw [step.mints_eq]
      exact step.counted key
  refine ⟨hetched, ?_, ?_, hearlier, ?_⟩
  · intro key hne
    rw [hcounts key] at hne
    split at hne
    · rename_i hcount
      obtain ⟨id, hkey, hpos⟩ := hcount
      obtain ⟨terms, hget, -⟩ := hminted id key hkey hpos
      exact ⟨terms, hkept key terms hget⟩
    · rw [Fin.add_zero] at hne
      obtain ⟨terms, hget⟩ := h.known key hne
      exact ⟨terms, hkept key terms hget⟩
  · intro key terms cap hget hcap
    rw [hcounts key]
    split
    · rename_i hcount
      obtain ⟨id, hkey, hpos⟩ := hcount
      obtain ⟨terms', hget', -, -, -, hlt⟩ := hminted id key hkey hpos
      have heq := hkept key terms' hget'
      rw [hget] at heq
      cases heq
      exact count_le_cap hlt hcap
    · rw [Fin.add_zero]
      rcases hadded key terms hget with hold | ⟨rfl, -⟩
      · exact h.caps key terms cap hold hcap
      · have hzero : s.dunes.mintsById.getD ⟨height, idx⟩ 0 = 0 := by
          by_contra hne
          obtain ⟨terms', hget'⟩ := h.known _ hne
          rw [hnew] at hget'
          cases hget'
        rw [hzero]
        exact Fin.zero_le _
  · intro step' hmem id key hkey hpos
    rcases List.mem_append.mp hmem with hmem | hmem
    · obtain ⟨terms, hget, hrest⟩ := h.minted step' hmem id key hkey hpos
      exact ⟨terms, hkept key terms hget, hrest⟩
    · rw [List.mem_singleton.mp hmem] at hpos ⊢
      obtain ⟨terms, hget, hle, hstart, hend, -⟩ := hminted id key hkey hpos
      exact ⟨terms, hkept key terms hget, hle, hstart, hend⟩

end

/-- The history of a run, with the blocks it is stored under. -/
theorem Run.termsKept {deps : Deps} {cfg : Config} {memory : Bool} {l : List Transition} {n : Node}
    (run : Run deps cfg (Node.open_ memory) l n)
    (hvalid : ∀ e ∈ l, ValidBlock e.before.db.tables e.call.height e.call.block) :
    TermsKept deps cfg (runeHistory deps cfg l) n.db.tables.dunes ∧
      ∀ step ∈ runeHistory deps cfg l, ∃ entry, n.db.tables.blockByHeight.get step.height = some entry := by
  induction run with
  | nil =>
    refine ⟨⟨?_, ?_, ?_, ?_, ?_⟩, ?_⟩
    · intro key terms hget
      cases hget
    · intro key hne
      exact absurd rfl hne
    · intro key terms cap hget
      cases hget
    · intro step hmem
      cases hmem
    · intro step hmem
      cases hmem
    · intro step hmem
      cases hmem
  | @snoc l n n' run call hcall ih =>
    obtain ⟨applied⟩ := apply_ok hcall
    have hlast := hvalid ⟨n, call, n'⟩ (List.mem_append_right _ (List.mem_singleton_self _))
    obtain ⟨hkept, hstored⟩ := ih (fun e he => hvalid e (List.mem_append_left _ he))
    have hearlier : ∀ step ∈ runeHistory deps cfg l, step.height < call.height := by
      intro step hmem
      obtain ⟨entry, hget⟩ := hstored step hmem
      exact hlast.later (step.height, entry) (Table.mem_entries.mpr hget)
    rw [runeHistory_append]
    obtain ⟨log, htables⟩ := applied.tables
    constructor
    · have hend := applied.rune_induct
        (P := fun done t _ _ => TermsKept deps cfg (runeHistory deps cfg l ++
            done.map fun step => ⟨call.height, step.1, step.2.1, step.2.2⟩) t ∧
          ∀ step ∈ done, step.1 < done.length) ⟨by rw [List.map_nil, List.append_nil]; exact hkept, ?_⟩ ?_
      · rw [htables]
        exact hend.1
      · intro step hmem
        cases hmem
      · rintro done idx tx s dunes etches mints t - rfl - hrunes ⟨hdone, hnumbers⟩
        rw [List.map_append, ← List.append_assoc]
        refine ⟨hdone.step hrunes hlast.height ?_, ?_⟩
        · intro step hmem hheight
          rcases List.mem_append.mp hmem with hmem | hmem
          · exact absurd hheight (Nat.ne_of_lt (hearlier step hmem))
          · obtain ⟨step', hmem', rfl⟩ := List.mem_map.mp hmem
            exact hnumbers step' hmem'
        · intro step hmem
          rw [List.length_append, List.length_singleton]
          rcases List.mem_append.mp hmem with hmem | hmem
          · exact Nat.lt_succ_of_lt (hnumbers step hmem)
          · rw [List.mem_singleton.mp hmem]
            exact Nat.lt_succ_self _
    · intro step hmem
      rw [htables]
      simp only [Table.get_insert]
      rcases List.mem_append.mp hmem with hmem | hmem
      · rw [if_neg (Nat.ne_of_lt (hearlier step hmem))]
        exact hstored step hmem
      · obtain ⟨step', -, rfl⟩ := List.mem_map.mp hmem
        exact ⟨_, if_pos rfl⟩

/-- The terms in the dunestone of a transaction. -/
def termsOf (deps : Deps) (tx : Transaction) : Option Terms :=
  (Dunestone.fromTransaction deps tx).bind fun dunestone => dunestone.etching.bind Etching.terms

/-- A height within the absolute bounds of terms and those relative to the etching. -/
structure InWindow (terms : Terms) (etchedAt height : Nat) : Prop where
  absoluteStart : ∀ start, terms.height.1 = some start → start ≤ height
  relativeStart : ∀ offset, terms.offset.1 = some offset → saturatingAddU64 etchedAt offset ≤ height
  absoluteEnd : ∀ stop, terms.height.2 = some stop → height < stop
  relativeEnd : ∀ offset, terms.offset.2 = some offset → height < saturatingAddU64 etchedAt offset

theorem combineBounds_max {relative absolute : Option Nat} {height : Nat}
    (h : ∀ start, combineBounds max relative absolute = some start → start ≤ height) :
    (∀ r, relative = some r → r ≤ height) ∧ ∀ a, absolute = some a → a ≤ height := by
  cases relative with
  | none => exact ⟨fun r hr => (by cases hr), h⟩
  | some r =>
    cases absolute with
    | none => exact ⟨fun r' hr => h r' hr, fun a ha => (by cases ha)⟩
    | some a =>
      have hmax := h _ rfl
      refine ⟨fun r' hr => ?_, fun a' ha => ?_⟩
      · cases hr
        omega
      · cases ha
        omega

theorem combineBounds_min {relative absolute : Option Nat} {height : Nat}
    (h : ∀ stop, combineBounds min relative absolute = some stop → height < stop) :
    (∀ r, relative = some r → height < r) ∧ ∀ a, absolute = some a → height < a := by
  cases relative with
  | none => exact ⟨fun r hr => (by cases hr), h⟩
  | some r =>
    cases absolute with
    | none => exact ⟨fun r' hr => h r' hr, fun a ha => (by cases ha)⟩
    | some a =>
      have hmin := h _ rfl
      refine ⟨fun r' hr => ?_, fun a' ha => ?_⟩
      · cases hr
        omega
      · cases ha
        omega

/-- Stored terms that allow something were given at the etching, and keep their bounds. -/
theorem entryTerms_window {dunestone : Dunestone} {dune : U128} {etchedAt height : Nat}
    (hpos : 0 < ((entryTerms dunestone dune etchedAt).amount.getD 0).val)
    (hstart : ∀ start, (entryTerms dunestone dune etchedAt).startHeight = some start → start ≤ height)
    (hend : ∀ stop, (entryTerms dunestone dune etchedAt).endHeight = some stop → height < stop) :
    ∃ terms, dunestone.etching.bind Etching.terms = some terms ∧
      (entryTerms dunestone dune etchedAt).amount = terms.limit ∧ (entryTerms dunestone dune etchedAt).cap = terms.cap ∧
      InWindow terms etchedAt height := by
  unfold entryTerms at hpos hstart hend ⊢
  split at hpos
  · exact absurd hpos (by simp)
  · rename_i hcenotaph
    rw [if_neg hcenotaph] at hstart hend
    simp only [hcenotaph, if_false, Bool.false_eq_true]
    cases hterms : dunestone.etching.bind Etching.terms with
    | none =>
      rw [hterms] at hpos
      exact absurd hpos (by simp)
    | some terms =>
      rw [hterms] at hstart hend
      obtain ⟨hrs, has⟩ := combineBounds_max hstart
      obtain ⟨hre, hae⟩ := combineBounds_min hend
      refine ⟨terms, rfl, rfl, rfl, has, ?_, hae, ?_⟩
      · intro offset ho
        exact hrs _ (by rw [ho]; rfl)
      · intro offset ho
        exact hre _ (by rw [ho]; rfl)

/-- An amount of a dune is within its terms at a transaction: they were given when it was etched, in the history, and
are stored; the amount is at most their limit, and the height is in their window. -/
def WithinTerms (deps : Deps) (history : List RuneStep) (t : DuneTables) (step : RuneStep) (key : DuneId)
    (amount : Nat) : Prop :=
  ∃ stored etching terms, t.termsById.get key = some stored ∧
    etching ∈ history ∧ etching.height = key.block ∧ etching.idx = key.tx ∧
    termsOf deps etching.tx = some terms ∧ stored.amount = terms.limit ∧ stored.cap = terms.cap ∧
    amount ≤ (terms.limit.getD 0).val ∧ InWindow terms etching.height step.height

/-- What a transaction mints is within the terms. -/
theorem TermsKept.within {deps : Deps} {cfg : Config} {history : List RuneStep} {t : DuneTables}
    (h : TermsKept deps cfg history t) {step : RuneStep} (hmem : step ∈ history) {id : U128} {key : DuneId}
    (hkey : DuneId.tryFrom id = some key) (hpos : 0 < drawn .mintable id (step.moved deps cfg)) :
    WithinTerms deps history t step key (drawn .mintable id (step.moved deps cfg)) := by
  obtain ⟨stored, hget, hle, hstart, hend⟩ := h.minted step hmem id key hkey hpos
  obtain ⟨etching, hetching, hblock, htx, dunestone, hdunestone, heq⟩ := h.etched key stored hget
  rw [heq] at hle hstart hend
  obtain ⟨terms, hterms, hamount, hcap, hwindow⟩ := entryTerms_window (Nat.lt_of_lt_of_le hpos hle) hstart hend
  rw [hamount] at hle
  refine ⟨stored, etching, terms, hget, hetching, hblock, htx, ?_, ?_, ?_, hle, ?_⟩
  · unfold termsOf
    rw [hdunestone]
    exact hterms
  · rw [heq, hamount]
  · rw [heq, hcap]
  · rw [hblock]
    exact hwindow

/-- Only the dune that a transaction etches is issued by it. -/
theorem drawn_issuance_eq_zero {deps : Deps} {cfg : Config} {resolver : Table TxoRef TxoBody} {idx height : Nat}
    {tx : Transaction} {t : DuneTables} {id : U128} {key : DuneId} (hkey : DuneId.tryFrom id = some key)
    (hne : key ≠ ⟨height, idx⟩) (hheight : height < 2 ^ 64) :
    drawn .issuance id (plan deps cfg resolver idx tx height t) = 0 := by
  refine Nat.eq_zero_of_le_zero ((plan_le deps cfg resolver idx tx height t id).2.2.trans (le_of_eq ?_))
  unfold issuanceLimit
  cases hdunestone : Dunestone.fromTransaction deps tx with
  | none => rfl
  | some dunestone =>
    refine if_neg fun hany => ?_
    obtain ⟨a, ha, hid⟩ := (Option.any_eq_true _ _).mp hany
    unfold issuanceOf at ha
    split at ha
    · rename_i allocation etch t' hallocation
      obtain ⟨-, hown, hidx, -⟩ := (allocationOf_ok hallocation).allocated ha
      rw [← of_decide_eq_true hid, hown, DuneId.tryFrom_toU128 hheight hidx] at hkey
      exact hne (Option.some.inj hkey).symm
    · cases ha

/-- **What the outputs receive beyond the inputs** of a dune that is not etched by the transaction is minted. -/
theorem received_le_minted {deps : Deps} {cfg : Config} {step : RuneStep} {r : IndexRunesResult} {t' : DuneTables}
    (hfirst : cfg.firstRuneHeight ≤ step.height) (hheight : step.height < 2 ^ 64)
    (h : indexRunes deps cfg step.state.resolver step.idx step.tx step.height step.state.dunes = .ok (r, t'))
    {id : U128} {key : DuneId} (hkey : DuneId.tryFrom id = some key) (hne : key ≠ ⟨step.height, step.idx⟩) :
    received r id ≤ tally (inputDunes step.tx step.state.resolver) id +
      drawn .mintable id (step.moved deps cfg) := by
  have hle := (indexRunes_ok h).1.received_le id
  unfold supplied at hle
  rw [drawn_issuance_eq_zero hkey hne hheight, Nat.add_zero] at hle
  unfold RuneStep.moved moved
  rw [if_pos hfirst]
  exact hle

theorem RuneStep.height_lt {deps : Deps} {cfg : Config} {l : List Transition}
    (hvalid : ∀ e ∈ l, ValidBlock e.before.db.tables e.call.height e.call.block) {step : RuneStep}
    (hmem : step ∈ runeHistory deps cfg l) : step.height < 2 ^ 64 := by
  obtain ⟨e, he, hstep⟩ := List.mem_flatMap.mp hmem
  obtain ⟨_, -, rfl⟩ := List.mem_map.mp hstep
  exact (hvalid e he).height

/-- **Mints respect the terms of their dune over whole runs**: counts stay within the cap, and a
transaction mints at most the limit, within the bounds computed at the etching; so that the outputs of
`index_runes` receive beyond the inputs at most the limit, and only within these bounds. -/
theorem mints_respect_terms {deps : Deps} {cfg : Config} {memory : Bool} {l : List Transition} {n : Node}
    (run : Run deps cfg (Node.open_ memory) l n)
    (hvalid : ∀ e ∈ l, ValidBlock e.before.db.tables e.call.height e.call.block) :
    CapsKept n.db.tables.dunes ∧ (∀ step ∈ runeHistory deps cfg l, CapsKept step.state.dunes) ∧
    ∀ step ∈ runeHistory deps cfg l, ∀ id key, DuneId.tryFrom id = some key →
      (0 < drawn .mintable id (step.moved deps cfg) →
        WithinTerms deps (runeHistory deps cfg l) n.db.tables.dunes step key
          (drawn .mintable id (step.moved deps cfg))) ∧
      ∀ r t', cfg.firstRuneHeight ≤ step.height →
        indexRunes deps cfg step.state.resolver step.idx step.tx step.height step.state.dunes = .ok (r, t') →
        key ≠ ⟨step.height, step.idx⟩ → tally (inputDunes step.tx step.state.resolver) id < received r id →
          WithinTerms deps (runeHistory deps cfg l) n.db.tables.dunes step key
            (received r id - tally (inputDunes step.tx step.state.resolver) id) := by
  obtain ⟨hkept, -⟩ := run.termsKept hvalid
  refine ⟨hkept.caps, hkept.earlier, fun step hmem id key hkey => ⟨hkept.within hmem hkey, ?_⟩⟩
  intro r t' hfirst hindex hne hmore
  have hle := received_le_minted hfirst (RuneStep.height_lt hvalid hmem) hindex hkey hne
  obtain ⟨stored, etching, terms, hget, hetching, hblock, htx, hterms, hamount, hcap, hlimit, hwindow⟩ :=
    hkept.within hmem hkey (by omega)
  exact ⟨stored, etching, terms, hget, hetching, hblock, htx, hterms, hamount, hcap, by omega, hwindow⟩

/-- The instructions of a script without `OP_PUSHDATA`. -/
def shortPushes : Nat → Bytes → List (Option Instruction)
  | 0, _ => []
  | _, [] => []
  | fuel + 1, opcode :: rest =>
    if opcode.val ≤ 75 then
      if opcode.val ≤ rest.length then
        some (.pushBytes (rest.take opcode.val)) :: shortPushes fuel (rest.drop opcode.val)
      else [none]
    else some (.op opcode) :: shortPushes fuel rest

/-- `OP_RETURN "D"`: an unnamed dune with limit 5 and cap 2, of which 7 are issued to output 1. -/
def etchScript : Bytes := [106, 1, 68, 10, 2, 3, 6, 5, 20, 2, 0, 0, 7, 1]

/-- `OP_RETURN "D"`: an unnamed dune without terms, of which 7 are issued to output 1. -/
def bareEtchScript : Bytes := [106, 1, 68, 6, 2, 1, 0, 0, 7, 1]

/-- `OP_RETURN "D"`: an unnamed dune with limit 5 and cap 2, all of which is issued to output 1. -/
def wholeEtchScript : Bytes := [106, 1, 68, 10, 2, 3, 6, 5, 20, 2, 0, 0, 0, 1]

/-- `OP_RETURN "D"`: all that may be minted of dune 1:1 goes to output 1. -/
def mintScript : Bytes := [106, 1, 68, 10, 0, 190, 254, 254, 255, 130, 255, 1, 0, 1]

/-- The other crates on these scripts. -/
def duneScripts : Deps :=
  { emptyScripts with
    scriptHash := fun script =>
      if script = etchScript then Fin.ofNat (2 ^ 160) 0x410c084a60cb82ea9a080d0c0925e4b32a44ac9f
      else if script = bareEtchScript then Fin.ofNat (2 ^ 160) 0xa818d3ccafe089dffc85e377b7175e58a7d85c52
      else if script = wholeEtchScript then Fin.ofNat (2 ^ 160) 0xaf8a3aa5cb8d7580af460a7d5166f854b6a57e6b
      else if script = mintScript then Fin.ofNat (2 ^ 160) 0x89442b01de5e26d7bc7d9a26efb5545c1cd34ad1
      else emptyScripts.scriptHash script
    instructions := fun script => shortPushes script.length script
    isOpReturn := fun script => script.head? = some OP_RETURN }

/-- A transaction with one input, a dunestone and an output. -/
def duneTx (txid : Txid) (ref : TxoRef) (script : Bytes) (value : U64) : Transaction :=
  ⟨txid, [⟨ref, []⟩], [⟨0, script⟩, ⟨value, []⟩]⟩

/-- Dune 1:1 is etched, and minted once in the next block. -/
def etchedAndMinted (etching : Bytes) : List Call := [
  callOf 0 1 0 [coinbaseTx 10 [2500000000, 2500000000]],
  callOf 1 2 1 [coinbaseTx 11 [5000000000], duneTx 12 ⟨10, 0⟩ etching 2500000000],
  callOf 2 3 2 [coinbaseTx 13 [5000000000], duneTx 14 ⟨10, 1⟩ mintScript 2500000000]]

/-- Dune 1:1 is etched with cap 2 and minted once. -/
theorem mints_respect_terms_once :
    ∃ l n, Run duneScripts fromFirstBlock (Node.open_ true) l n ∧ CapsKept n.db.tables.dunes ∧
      n.db.tables.dunes.mintsById.getD ⟨1, 1⟩ 0 = 1 := by
  have hsome : (runCalls duneScripts fromFirstBlock (Node.open_ true) (etchedAndMinted etchScript)).isSome = true := by
    decide +kernel
  refine ⟨_, _, Run.ofCalls hsome, (mints_respect_terms (Run.ofCalls hsome) (by decide +kernel)).1, ?_⟩
  decide +kernel

end DogeIndexer.Compressor
