import DogeIndexer.Compressor.Partials
import DogeIndexer.Compressor.Satoshis

/-!
# The subtractions of `index_inscriptions`

The operands of every subtraction that indexing a transaction comes to, and when they are in order.  The
reward of a block starts from the subsidy of the Bitcoin schedule, whereas the coinbase pays what the
Dogecoin schedule allows.

* `subtractions` — the operands; with overflow checks a completed call has them in order.
* `subtractions_le` — a transaction other than the coinbase never underflows.
* `no_underflow_iff` — a block underflows exactly when its coinbase pays more than the subsidy and the fees,
  reveals an inscription while paying more than the subsidy, or loses an inscription where the lost
  satoshis wrap around.
* `applied_coinbase_pays` — so a build with overflow checks applies no block whose coinbase pays more.
-/

set_option autoImplicit false

namespace DogeIndexer.Compressor

open Fallible Effect

/-! ## Operands -/

/-- The subtractions of the sweep over the outputs: an offset less the value of the outputs before.  With
them what is left, and the value of all outputs. -/
def sweepSubtractions (outputValue : U64) (l : List Flotsam) : List TxOut → List (U64 × U64) × List Flotsam × U64
  | [] => ([], l, outputValue)
  | output :: outputs =>
    let stop := outputValue + output.value
    let (later, left, total) := sweepSubtractions stop (l.dropWhile fun flotsam => flotsam.offset < stop) outputs
    (((l.takeWhile fun flotsam => flotsam.offset < stop).map fun flotsam => (flotsam.offset, outputValue)) ++ later,
      left, total)

/-- The subtractions of `index_inscriptions` in the order of the source, each as its two operands: the fee of
a new inscription, the offsets within the outputs, the offsets beyond them and, last, the reward.  Additions
wrap around. -/
def subtractions (deps : Deps) (resolver : Table TxoRef TxoBody) (tx : Transaction) (height : Nat)
    (s : InscriptionState) : Except Err (List (U64 × U64)) := do
  let total ← totalOutputValue false tx
  let inputs ← collectInputs deps false resolver height tx
  let (revealed, _, _) ← (if inputs.floating.all (fun flotsam => flotsam.offset ≠ 0) then
      reveal deps false tx tx.txid inputs.totalInputValue total s
    else .ok ([], [], s))
  let floating := inputs.floating ++ revealed ++ (if isCoinbase tx then s.cbInscriptions else [])
  let (swept, left, outputValue) := sweepSubtractions 0 (sortFlotsam floating) tx.output
  let fees := revealed.map fun _ => (inputs.totalInputValue, total)
  if isCoinbase tx then
    return fees ++ swept ++ (left.map fun flotsam => (s.counters.lostSats + flotsam.offset, outputValue)) ++
      [(s.reward, outputValue)]
  else
    return fees ++ swept ++ (left.map fun flotsam => (s.reward + flotsam.offset, outputValue)) ++
      [(inputs.totalInputValue, outputValue)]

/-- The subtractions of a block, as far as its processing gets. -/
def blockSubtractions (deps : Deps) (cfg : Config) (n : Node) (height : Nat) (block : Block) : List (U64 × U64) :=
  if cfg.firstInscriptionHeight ≤ height then
    (blockSteps deps cfg n height block).flatMap fun step =>
      match subtractions deps step.2.resolver step.1 height step.2.inscriptions with
      | .ok l => l
      | .error _ => []
  else []

/-! ## The sweep -/

theorem takeWhile_below {l : List Flotsam} {stop : U64} :
    ∀ f ∈ l.takeWhile (fun flotsam => flotsam.offset < stop), f.offset < stop := by
  intro f hf
  have hall := List.all_takeWhile (p := fun flotsam : Flotsam => decide (flotsam.offset < stop)) (l := l)
  simpa using List.all_eq_true.mp hall f hf

theorem dropWhile_above {l : List Flotsam} {stop : U64} (hsorted : l.Pairwise (fun a b => a.offset ≤ b.offset)) :
    ∀ f ∈ l.dropWhile (fun flotsam => flotsam.offset < stop), stop ≤ f.offset := by
  refine le_of_head (hsorted.sublist (List.dropWhile_sublist _)) (fun f hf => ?_)
  have hnot := List.head?_dropWhile_not (fun flotsam : Flotsam => decide (flotsam.offset < stop)) l
  rw [hf] at hnot
  simpa using hnot

/-- **The sweep never underflows**: sorted offsets are at or above the value of the outputs before. -/
theorem sweepSubtractions_le {start : U64} {l : List Flotsam} {outputs : List TxOut}
    (hsorted : l.Pairwise (fun a b => a.offset ≤ b.offset)) (hstart : ∀ f ∈ l, start ≤ f.offset) :
    ∀ p ∈ (sweepSubtractions start l outputs).1, p.2 ≤ p.1 := by
  induction outputs generalizing start l with
  | nil => exact fun p hp => (List.not_mem_nil hp).elim
  | cons output outputs ih =>
    intro p hp
    rcases List.mem_append.mp hp with hp | hp
    · obtain ⟨f, hf, rfl⟩ := List.mem_map.mp hp
      exact hstart f ((List.takeWhile_sublist _).subset hf)
    · exact ih (hsorted.sublist (List.dropWhile_sublist _)) (dropWhile_above hsorted) p hp

/-- With outputs in range the sweep ends at their value and leaves what is at or beyond it. -/
theorem sweepSubtractions_left {start : U64} {l : List Flotsam} {outputs : List TxOut}
    (hsorted : l.Pairwise (fun a b => a.offset ≤ b.offset)) (hstart : ∀ f ∈ l, start ≤ f.offset)
    (hrange : start.val + outputTotal outputs < 2 ^ 64) :
    (sweepSubtractions start l outputs).2.2.val = start.val + outputTotal outputs ∧
      ∀ f, f ∈ (sweepSubtractions start l outputs).2.1 ↔ f ∈ l ∧ start.val + outputTotal outputs ≤ f.offset.val := by
  induction outputs generalizing start l with
  | nil =>
    refine ⟨by simp [sweepSubtractions, outputTotal], fun f => ?_⟩
    exact ⟨fun hf => ⟨hf, by simpa [outputTotal] using Fin.le_def.mp (hstart f hf)⟩, fun hf => hf.1⟩
  | cons output outputs ih =>
    have hsplit : outputTotal (output :: outputs) = output.value.val + outputTotal outputs := by
      simp [outputTotal]
    have hstop : (start + output.value).val = start.val + output.value.val := by
      rw [Fin.val_add, Nat.mod_eq_of_lt (by omega)]
    have hsame : start.val + outputTotal (output :: outputs) =
        (start + output.value).val + outputTotal outputs := by omega
    rw [hsame] at hrange ⊢
    obtain ⟨hout, hleft⟩ := ih (hsorted.sublist (List.dropWhile_sublist _)) (dropWhile_above hsorted) hrange
    refine ⟨hout, fun f => (hleft f).trans ?_⟩
    constructor
    · rintro ⟨hf, hge⟩
      exact ⟨(List.dropWhile_sublist _).subset hf, hge⟩
    · rintro ⟨hf, hge⟩
      refine ⟨?_, hge⟩
      -- what the output takes lies before its end
      rw [← List.takeWhile_append_dropWhile (p := fun flotsam : Flotsam => flotsam.offset < start + output.value)
        (l := l)] at hf
      rcases List.mem_append.mp hf with hf | hf
      · have hlt := Fin.lt_def.mp (takeWhile_below f hf)
        omega
      · exact hf

/-- **The subtractions of a transaction are in order** when those of a new inscription, of the offsets beyond
the outputs and of the reward are; those of the sweep always are. -/
theorem subtractions_le_iff {deps : Deps} {resolver : Table TxoRef TxoBody} {tx : Transaction} {height : Nat}
    {s after : InscriptionState} {total out : U64} {inputs : InputState} {revealed left : List Flotsam}
    {messages : List (InscriptionId × RawProtocolMessage)} (htotal : totalOutputValue false tx = .ok total)
    (hinputs : collectInputs deps false resolver height tx = .ok inputs)
    (hreveal : (if inputs.floating.all (fun flotsam => flotsam.offset ≠ 0) then
      reveal deps false tx tx.txid inputs.totalInputValue total s
    else .ok ([], [], s)) = .ok (revealed, messages, after))
    (hsweep : (sweepSubtractions 0 (sortFlotsam (inputs.floating ++ revealed ++
      if isCoinbase tx then s.cbInscriptions else [])) tx.output).2 = (left, out)) :
    ∃ l, subtractions deps resolver tx height s = .ok l ∧ ((∀ p ∈ l, p.2 ≤ p.1) ↔
      (revealed ≠ [] → total ≤ inputs.totalInputValue) ∧
      (∀ f ∈ left, out ≤ (if isCoinbase tx then s.counters.lostSats else s.reward) + f.offset) ∧
      out ≤ if isCoinbase tx then s.reward else inputs.totalInputValue) := by
  have hswept := @sweepSubtractions_le 0 _ tx.output
    (sortFlotsam_sorted (inputs.floating ++ revealed ++ if isCoinbase tx then s.cbInscriptions else []))
    (fun f _ => Fin.zero_le _)
  generalize hresult : sweepSubtractions 0 (sortFlotsam (inputs.floating ++ revealed ++
    if isCoinbase tx then s.cbInscriptions else [])) tx.output = result at hsweep hswept
  obtain ⟨swept, _, _⟩ := result
  cases hsweep
  refine ⟨(revealed.map fun _ => (inputs.totalInputValue, total)) ++ swept ++
    (left.map fun f => ((if isCoinbase tx then s.counters.lostSats else s.reward) + f.offset, out)) ++
    [(if isCoinbase tx then s.reward else inputs.totalInputValue, out)], ?_, ?_⟩
  · refine bind_eq_ok.mpr ⟨total, htotal, bind_eq_ok.mpr ⟨inputs, hinputs, bind_eq_ok.mpr ⟨_, hreveal, ?_⟩⟩⟩
    simp only [hresult]
    cases isCoinbase tx <;> rfl
  · simp only [List.mem_append, List.mem_singleton, List.mem_map, or_imp, forall_and, forall_eq]
    constructor
    · rintro ⟨⟨⟨hfee, -⟩, hleft⟩, hlast⟩
      refine ⟨fun hne => ?_, fun f hf => hleft _ ⟨f, hf, rfl⟩, hlast⟩
      obtain ⟨f, hf⟩ := List.exists_mem_of_ne_nil _ hne
      exact hfee _ ⟨f, hf, rfl⟩
    · rintro ⟨hfee, hleft, hlast⟩
      refine ⟨⟨⟨?_, hswept⟩, ?_⟩, hlast⟩
      · rintro p ⟨f, hf, rfl⟩
        exact hfee (List.ne_nil_of_mem hf)
      · rintro p ⟨f, hf, rfl⟩
        exact hleft f hf

/-! ## Overflow checks -/

theorem add64_unchecked {checks : Bool} {a b c : U64} (h : add64 checks a b = .ok c) : add64 false a b = .ok c := by
  rw [add64_eq_ok h]
  rfl

theorem sub64_unchecked {checks : Bool} {a b c : U64} (h : sub64 checks a b = .ok c) : sub64 false a b = .ok c := by
  rw [sub64_eq_ok h]
  rfl

/-- A checked subtraction that completes has its operands in order. -/
theorem le_of_sub64 {a b c : U64} (h : sub64 true a b = .ok c) : b ≤ a := by
  have h := orPanic_eq_ok.mp h
  unfold Machine.sub at h
  split at h
  · cases h
  · rename_i hlt
    exact Fin.le_def.mpr (by simpa using hlt)

section

variable {deps : Deps} {cfg : Config} {resolver : Table TxoRef TxoBody} {tx : Transaction} {height : Nat}
  {s s' : InscriptionState} {r : IndexInscriptionsResult}

theorem collectInputs_unchecked {checks : Bool} {inputs : InputState}
    (h : collectInputs deps checks resolver height tx = .ok inputs) :
    collectInputs deps false resolver height tx = .ok inputs := by
  refine foldlM_of_ok (fun i txin i' hstep => ?_) h
  unfold collectInput at hstep ⊢
  split at hstep
  · rename_i hnull
    obtain ⟨total, htotal, hstep⟩ := bind_eq_ok.mp hstep
    rw [if_pos hnull]
    exact bind_eq_ok.mpr ⟨total, add64_unchecked htotal, hstep⟩
  · rename_i hnull
    rw [if_neg hnull]
    split at hstep
    · cases hstep
    · rename_i body hget
      obtain ⟨i₁, hcollect, hstep⟩ := bind_eq_ok.mp hstep
      obtain ⟨total, htotal, hstep⟩ := bind_eq_ok.mp hstep
      refine bind_eq_ok.mpr ⟨i₁, foldlM_of_ok (fun i e i' hone => ?_) hcollect,
        bind_eq_ok.mpr ⟨total, add64_unchecked htotal, hstep⟩⟩
      unfold collectInscription at hone ⊢
      obtain ⟨sum, hsum, hone⟩ := bind_eq_ok.mp hone
      exact bind_eq_ok.mpr ⟨sum, add64_unchecked hsum, hone⟩

theorem reveal_unchecked {checks : Bool} {txid : Txid} {tin tout : U64}
    {result : List Flotsam × List (InscriptionId × RawProtocolMessage) × InscriptionState}
    (h : reveal deps checks tx txid tin tout s = .ok result) :
    reveal deps false tx txid tin tout s = .ok result ∧ (checks = true → result.1 ≠ [] → tout ≤ tin) := by
  unfold reveal at h
  obtain ⟨first, hfirst, h⟩ := bind_eq_ok.mp h
  obtain ⟨⟨chain, txs⟩, hchain, h⟩ := bind_eq_ok.mp h
  simp only at h
  cases hparse : Inscription.fromTransactions (txs ++ [tx]) with
  | none =>
    rw [hparse] at h
    cases h
    refine ⟨bind_eq_ok.mpr ⟨first, hfirst, bind_eq_ok.mpr ⟨_, hchain, ?_⟩⟩, fun _ hne => absurd rfl hne⟩
    simp only [hparse]
    rfl
  | partial_ =>
    rw [hparse] at h
    cases h
    refine ⟨bind_eq_ok.mpr ⟨first, hfirst, bind_eq_ok.mpr ⟨_, hchain, ?_⟩⟩, fun _ hne => absurd rfl hne⟩
    simp only [hparse]
    rfl
  | complete inscription =>
    rw [hparse] at h
    obtain ⟨fee, hfee, h⟩ := bind_eq_ok.mp h
    cases h
    refine ⟨bind_eq_ok.mpr ⟨first, hfirst, bind_eq_ok.mpr ⟨_, hchain, ?_⟩⟩,
      fun hchecks _ => le_of_sub64 (hchecks ▸ hfee)⟩
    simp only [hparse]
    exact bind_eq_ok.mpr ⟨fee, sub64_unchecked hfee, rfl⟩

/-- The sweep leaves what `sweepSubtractions` leaves. -/
theorem sweep_unchecked {checks : Bool} {txid : Txid} {vout : Nat} {start out : U64} {l left : List Flotsam}
    {outputs : List TxOut} {placed : List (SatPoint × Flotsam)}
    (hsorted : l.Pairwise (fun a b => a.offset ≤ b.offset))
    (h : sweep checks txid vout start l outputs = .ok (placed, left, out)) :
    (sweepSubtractions start l outputs).2 = (left, out) := by
  induction outputs generalizing vout start l placed with
  | nil =>
    cases h
    rfl
  | cons output outputs ih =>
    unfold sweep at h
    obtain ⟨stop, hstop, h⟩ := bind_eq_ok.mp h
    obtain ⟨⟨p₁, l₁⟩, h₁, h⟩ := bind_eq_ok.mp h
    obtain ⟨⟨p₂, l₂, out₂⟩, h₂, h⟩ := bind_eq_ok.mp h
    cases h
    obtain ⟨hl, hplaced, hhead⟩ := sweepOutput_ok h₁
    have hsorted₁ := (List.pairwise_append.mp (hl ▸ hsorted)).2.1
    -- the taken flotsam is before the end of the output, the rest is not
    have hdrop : l.dropWhile (fun flotsam => flotsam.offset < stop) = l₁ := by
      rw [hl, List.dropWhile_append_of_pos]
      · cases l₁ with
        | nil => rfl
        | cons f l₁ =>
          have hge := hhead f rfl
          exact List.dropWhile_cons_of_neg (by simpa using hge)
      · intro f hf
        obtain ⟨e, he, rfl⟩ := List.mem_map.mp hf
        exact decide_eq_true (hplaced e he).2.2
    have hrest := ih hsorted₁ h₂
    rw [← hdrop, add64_eq_ok hstop] at hrest
    exact hrest

/-- With overflow checks the offsets of lost inscriptions do not underflow.  They are located from the lost satoshis of the state. -/
theorem locateAllLost_ordered {out : U64} {c c' : Counters} {l : List Flotsam}
    {lost : List (SatPoint × InscriptionId)} (h : locateAllLost true out c l = .ok (lost, c')) :
    ∀ f ∈ l, out ≤ c.lostSats + f.offset := by
  induction l generalizing c lost with
  | nil => exact fun f hf => (List.not_mem_nil hf).elim
  | cons f l ih =>
    unfold locateAllLost at h
    obtain ⟨⟨satpoint, c₁⟩, h₁, h⟩ := bind_eq_ok.mp h
    obtain ⟨⟨others, c₂⟩, h₂, h⟩ := bind_eq_ok.mp h
    cases h
    unfold locateLost at h₁
    obtain ⟨sum, hsum, h₁⟩ := bind_eq_ok.mp h₁
    obtain ⟨offset, hoffset, h₁⟩ := bind_eq_ok.mp h₁
    obtain ⟨c₃, h₃, h₁⟩ := bind_eq_ok.mp h₁
    cases h₁
    intro g hg
    rcases List.mem_cons.mp hg with rfl | hg
    · rw [← add64_eq_ok hsum]
      exact le_of_sub64 hoffset
    · rw [← (updateInscriptionLocation_ok h₃).2]
      exact ih h₂ g hg

theorem carried_ordered {reward out : U64} {left carried : List Flotsam}
    (h : (left.mapM fun flotsam => do
      let sum ← add64 true reward flotsam.offset
      let offset ← sub64 true sum out
      return { flotsam with offset := offset }) = .ok carried) : ∀ f ∈ left, out ≤ reward + f.offset := by
  induction left generalizing carried with
  | nil => exact fun f hf => (List.not_mem_nil hf).elim
  | cons f left ih =>
    rw [List.mapM_cons] at h
    obtain ⟨g, hg, h⟩ := bind_eq_ok.mp h
    obtain ⟨rest, hrest, h⟩ := bind_eq_ok.mp h
    obtain ⟨sum, hsum, hg⟩ := bind_eq_ok.mp hg
    obtain ⟨offset, hoffset, hg⟩ := bind_eq_ok.mp hg
    intro f' hf'
    rcases List.mem_cons.mp hf' with rfl | hf'
    · rw [← add64_eq_ok hsum]
      exact le_of_sub64 hoffset
    · exact ih hrest f' hf'

/-- **With overflow checks a completed call has all its subtractions in order.** -/
theorem subtractions_ordered (hchecks : cfg.checks = true)
    (h : indexInscriptions deps cfg resolver tx tx.txid height s = .ok (r, s')) :
    ∃ l, subtractions deps resolver tx height s = .ok l ∧ ∀ p ∈ l, p.2 ≤ p.1 := by
  obtain ⟨run⟩ := indexInscriptions_ok h
  obtain ⟨total, htotal, hreveal⟩ := run.reveals
  obtain ⟨-, hcounters, hreward, hcb⟩ := run.outcome.frame
  have htotal : totalOutputValue false tx = .ok total := foldlM_of_ok (fun _ _ _ h => add64_unchecked h) htotal
  have hrevealed : (if run.inputs.floating.all (fun flotsam => flotsam.offset ≠ 0) then
      reveal deps false tx tx.txid run.inputs.totalInputValue total s
    else .ok ([], [], s)) = .ok (run.revealed, run.messages, run.after) ∧
      (run.revealed ≠ [] → total ≤ run.inputs.totalInputValue) := by
    split at hreveal
    · rename_i hall
      obtain ⟨hunchecked, hle⟩ := reveal_unchecked hreveal
      rw [if_pos hall]
      exact ⟨hunchecked, hle hchecks⟩
    · rename_i hall
      rw [if_neg hall]
      obtain ⟨hnil, -, -⟩ : [] = run.revealed ∧ [] = run.messages ∧ s = run.after := by
        simpa using hreveal
      exact ⟨hreveal, fun hne => absurd hnil.symm hne⟩
  have hsweep := sweep_unchecked (sortFlotsam_sorted _) run.sweeps
  rw [hcb] at hsweep
  obtain ⟨l, hl, hiff⟩ := subtractions_le_iff htotal (collectInputs_unchecked run.collect) hrevealed.1 hsweep
  refine ⟨l, hl, hiff.mpr ⟨hrevealed.2, ?_⟩⟩
  have hrest := run.rest
  unfold locateRest at hrest
  rw [hchecks] at hrest
  cases hcoin : isCoinbase tx with
  | true =>
    rw [hcoin] at hrest
    obtain ⟨⟨lost, counters⟩, hlost, hrest⟩ := bind_eq_ok.mp hrest
    obtain ⟨sats, hsats, -⟩ := bind_eq_ok.mp hrest
    have hkept : run.counters.lostSats = s.counters.lostSats := by
      rw [(countPlaced_ok run.counts).2, hcounters]
    simp only [if_true]
    rw [← hkept, ← hreward]
    exact ⟨locateAllLost_ordered hlost, le_of_sub64 hsats⟩
  | false =>
    rw [hcoin] at hrest
    obtain ⟨brc20, -, hrest⟩ := bind_eq_ok.mp hrest
    obtain ⟨carried, hcarried, hrest⟩ := bind_eq_ok.mp hrest
    obtain ⟨fee, hfee, -⟩ := bind_eq_ok.mp hrest
    simp only [Bool.false_eq_true, if_false]
    rw [← hreward]
    exact ⟨carried_ordered hcarried, le_of_sub64 hfee⟩

end

/-! ## Coins -/

/-- The value of an output that a block may spend: one of its own, or one of the table. -/
def valueOf (txos : Table TxoRef TxoBody) (block : Block) (ref : TxoRef) : Nat :=
  match block.txdata.find? fun tx => tx.txid = ref.txid with
  | some tx => ((tx.output[ref.vout]?).map fun output => output.value.val).getD 0
  | none => ((txos.get ref).map fun body => body.raw.value.val).getD 0

/-- The value of the inputs of a transaction. -/
def spentValue (txos : Table TxoRef TxoBody) (block : Block) (tx : Transaction) : Nat :=
  ((spent tx).map (valueOf txos block)).sum

/-- The fees of a list of transactions. -/
def fees (txos : Table TxoRef TxoBody) (block : Block) (txs : List Transaction) : Nat :=
  (txs.map fun tx => spentValue txos block tx - outputTotal tx.output).sum

/-- The value of the outputs of a table. -/
def coins (txos : Table TxoRef TxoBody) : Nat := txos.total fun _ body => body.raw.value.val

/-- What the network guarantees of the coins of a block: no transaction but the coinbase pays more than it
takes, and the coins are below `2 ^ 64`. -/
structure Funded (deps : Deps) (t : Tables) (height : Nat) (block : Block) : Prop where
  pays : ∀ tx ∈ block.txdata.drop 1, outputTotal tx.output ≤ spentValue t.txos block tx
  coins : (deps.subsidy (height % 2 ^ 32)).val + coins t.txos < 2 ^ 64
  coinbase : ∀ tx ∈ block.txdata.take 1, outputTotal tx.output < 2 ^ 64

instance (deps : Deps) (t : Tables) (height : Nat) (block : Block) : Decidable (Funded deps t height block) :=
  decidable_of_iff ((∀ tx ∈ block.txdata.drop 1, outputTotal tx.output ≤ spentValue t.txos block tx) ∧
      (deps.subsidy (height % 2 ^ 32)).val + Compressor.coins t.txos < 2 ^ 64 ∧
      ∀ tx ∈ block.txdata.take 1, outputTotal tx.output < 2 ^ 64)
    ⟨fun ⟨h₁, h₂, h₃⟩ => ⟨h₁, h₂, h₃⟩, fun ⟨h₁, h₂, h₃⟩ => ⟨h₁, h₂, h₃⟩⟩

/-- What holds between the transactions of a block: offsets lie below values, the live outputs have their
values, and the live outputs and the fees so far are the coins at the start; the fees have been added to the
reward. -/
structure InRange (deps : Deps) (cfg : Config) (height : Nat) (txos : Table TxoRef TxoBody) (block : Block)
    (live : Table TxoRef TxoBody) (done : List Transaction) (s : BlockState) : Prop where
  bound : ∀ ref body, live.get ref = some body → body.Bound
  resolved : ∀ ref body, s.resolver.get ref = some body → body.Bound
  values : ∀ ref body, live.get ref = some body → body.raw.value.val = valueOf txos block ref
  total : Compressor.coins live + fees txos block done = Compressor.coins txos
  reward : cfg.firstInscriptionHeight ≤ height →
    s.inscriptions.reward.val = (deps.subsidy (height % 2 ^ 32)).val + fees txos block done

section

variable {deps : Deps} {cfg : Config} {height : Nat} {txos live : Table TxoRef TxoBody} {block : Block}
  {done : List Transaction} {s s₁ : BlockState} {tx : Transaction}

theorem fees_snoc (txos : Table TxoRef TxoBody) (block : Block) (done : List Transaction) (tx : Transaction) :
    fees txos block (done ++ [tx]) = fees txos block done + (spentValue txos block tx - outputTotal tx.output) := by
  simp [fees]

/-- The inputs of a transaction have their values. -/
theorem InRange.inputValue_eq (h : InRange deps cfg height txos block live done s) (hlive : LiveTx live tx s)
    (hnull : OutPoint.null ∉ spent tx) : inputValue deps s.resolver height tx.input = spentValue txos block tx := by
  have hinputs : ∀ ref ∈ spent tx, live.get ref = s.resolver.get ref := by
    intro ref href
    obtain ⟨body, hlive', hres⟩ := hlive.inputs ref href
    rw [hlive', hres]
  rw [Compressor.inputValue_eq hnull hinputs]
  unfold spentValue
  congr 1
  refine List.map_congr_left (fun ref href => ?_)
  obtain ⟨body, hget, -⟩ := hlive.inputs ref href
  unfold Table.weightAt
  rw [hget]
  exact h.values ref body hget

/-- The outputs of a transaction get inscriptions within their values. -/
theorem InscriptionsStep.bound {i i' : InscriptionState} {resolver : Table TxoRef TxoBody}
    {placed : List (List (U64 × InscriptionId))} {transfers : Table InscriptionId (Ticker × U128)}
    {messages : List (InscriptionId × BRC20Message)} {bodies : List TxoBody}
    (hins : InscriptionsStep deps cfg height tx resolver i placed transfers messages i')
    (hprod : Produced height tx placed transfers bodies)
    (houtputs : outputTotal tx.output < 2 ^ 64) (hlen : tx.output.length < 2 ^ 32) :
    ∀ body ∈ bodies, body.Bound := by
  refine hprod.bound ?_
  cases hins with
  | indexed hheight hindex =>
    obtain ⟨run⟩ := indexInscriptions_ok hindex
    exact (run.outputs_located houtputs hlen).2
  | skipped hheight =>
    intro vout output l _ hl e he
    rw [List.getElem?_map] at hl
    obtain ⟨_, -, rfl⟩ := Option.map_eq_some_iff.mp hl
    cases he

/-- **One transaction** keeps the coins in range. -/
theorem InRange.step {idx : Nat} (h : InRange deps cfg height txos block live done s)
    (ptx : ProcessedTx deps cfg height idx tx s s₁) (hlive : LiveTx live tx s)
    (hcoin : isCoinbase tx = false) (hnull : OutPoint.null ∉ spent tx)
    (hpays : outputTotal tx.output ≤ spentValue txos block tx)
    (hcoins : (deps.subsidy (height % 2 ^ 32)).val + Compressor.coins txos < 2 ^ 64)
    (hlen : tx.output.length < 2 ^ 32)
    (hfind : (block.txdata.find? fun tx' => tx'.txid = tx.txid) = some tx) :
    InRange deps cfg height txos block (afterTx live tx ptx.bodies) (done ++ [tx]) s₁ := by
  obtain ⟨kept, hbefore, hafter⟩ := afterTx_value ptx hlive hnull
  have hinput := h.inputValue_eq hlive hnull
  have htotal := h.total
  unfold Compressor.coins at htotal hcoins
  have hbound := ptx.inscriptions.bound ptx.produced (by omega) hlen
  have hsplit : ∀ ref body, (afterTx live tx ptx.bodies).get ref = some body →
      (ref, body) ∈ numbered tx.txid 0 ptx.bodies ∨ live.get ref = some body := by
    intro ref body hget
    rcases Table.get_insertAll hget with hget | ⟨-, hget⟩
    · exact Or.inl hget
    · rw [Table.get_eraseAll] at hget
      split at hget
      · cases hget
      · exact Or.inr hget
  refine ⟨?_, ?_, ?_, ?_, ?_⟩
  · intro ref body hget
    rcases hsplit ref body hget with hnew | hold
    · obtain ⟨-, i, -, hb⟩ := mem_numbered.mp hnew
      exact hbound body (List.mem_of_getElem? hb)
    · exact h.bound ref body hold
  · intro ref body hget
    rw [ptx.resolver_eq] at hget
    rcases Table.get_insertAll hget with hget | ⟨-, hget⟩
    · obtain ⟨-, i, -, hb⟩ := mem_numbered.mp hget
      exact hbound body (List.mem_of_getElem? hb)
    · exact h.resolved ref body hget
  · intro ref body hget
    rcases hsplit ref body hget with hnew | hold
    · obtain ⟨htxid, i, hvout, hb⟩ := mem_numbered.mp hnew
      unfold valueOf
      rw [htxid, hfind]
      have hraw : tx.output[ref.vout]? = some body.raw := by
        rw [← ptx.produced.raw, List.getElem?_map, hvout, Nat.zero_add, hb]
        rfl
      simp only [hraw, Option.map_some, Option.getD_some]
    · exact h.values ref body hold
  · unfold Compressor.coins
    rw [hafter, fees_snoc]
    omega
  · intro hheight
    have hold := h.reward hheight
    have hnew := reward_step ptx.inscriptions hcoin (by omega) (by omega)
    rw [if_pos hheight] at hnew
    rw [ptx.inscriptions_eq, hnew, hold, fees_snoc]
    omega

end

/-! ## As far as the processing gets -/

/-- A step that the processing of a block comes to: the transactions before it are processed. -/
structure StepReached (deps : Deps) (cfg : Config) (n : Node) (height : Nat) (block : Block)
    (step : Transaction × BlockState) where
  coinbase : Transaction
  txs : List Transaction
  started : BlockState
  before : List (Transaction × Nat)
  rest : List (Transaction × Nat)
  done : List (Transaction × BlockState)
  txdata : block.txdata = coinbase :: txs
  inscriptions : started.inscriptions = (initialState deps n.db.tables height n.memory).inscriptions
  resolver : ∀ ref, started.resolver.get ref =
    if ref ∈ externalRefs block then (n.mem.get ref).or (n.db.tables.txos.get ref) else none
  split : txs.zipIdx 1 = before ++ rest
  processes : ProcessedTxs deps cfg height before done started step.2
  next : (∃ idx later, rest = (step.1, idx) :: later) ∨ (rest = [] ∧ step.1 = coinbase)

theorem mem_txSteps {deps : Deps} {cfg : Config} {height : Nat} {hash : BlockHash} {l : List (Transaction × Nat)}
    {s : BlockState} {step : Transaction × BlockState} (h : step ∈ txSteps deps cfg height hash l s) :
    ∃ before done idx later, l = before ++ (step.1, idx) :: later ∧
      ProcessedTxs deps cfg height before done s step.2 := by
  induction l generalizing s with
  | nil => cases h
  | cons e l ih =>
    obtain ⟨tx, idx⟩ := e
    unfold txSteps at h
    rcases List.mem_cons.mp h with rfl | h
    · exact ⟨[], [], idx, l, rfl, .nil s⟩
    · split at h
      · rename_i s' hrun
        obtain ⟨ptx⟩ := processTx_ok hrun
        obtain ⟨before, done, idx', later, rfl, hprocesses⟩ := ih h
        exact ⟨(tx, idx) :: before, (tx, s) :: done, idx', later, rfl, .cons ptx hprocesses⟩
      · cases h

theorem mem_blockSteps {deps : Deps} {cfg : Config} {n : Node} {height : Nat} {block : Block}
    {step : Transaction × BlockState} (h : step ∈ blockSteps deps cfg n height block) :
    Nonempty (StepReached deps cfg n height block step) := by
  unfold blockSteps at h
  split at h
  · cases h
  · rename_i s hbefore
    obtain ⟨coinbase, txs, htxdata, hinscriptions, hresolver⟩ := beforeTxs_ok hbefore rfl
    rw [htxdata] at h
    rcases List.mem_append.mp h with h | h
    · obtain ⟨before, done, idx, later, hsplit, hprocesses⟩ := mem_txSteps h
      exact ⟨⟨coinbase, txs, s, before, (step.1, idx) :: later, done, htxdata, hinscriptions, hresolver, hsplit,
        hprocesses, Or.inl ⟨idx, later, rfl⟩⟩⟩
    · split at h
      · rename_i s' hrun
        rw [List.head?_cons] at h
        cases List.mem_singleton.mp h
        exact ⟨⟨coinbase, txs, s, txs.zipIdx 1, [], _, htxdata, hinscriptions, hresolver, by simp,
          processTxs_ok hrun, Or.inr ⟨rfl, rfl⟩⟩⟩
      · cases h

section

variable {deps : Deps} {cfg : Config} {n : Node} {height : Nat} {block : Block} {step : Transaction × BlockState}

/-- The outputs resolved at the start of a valid block are those of the table. -/
theorem ValidBlock.resolved_stored (hvalid : ValidBlock n.db.tables height block) {started : BlockState}
    (hresolver : ∀ ref, started.resolver.get ref =
      if ref ∈ externalRefs block then (n.mem.get ref).or (n.db.tables.txos.get ref) else none)
    (hagrees : Agrees n.mem n.db.tables.txos) (ref : TxoRef) (body : TxoBody)
    (hget : started.resolver.get ref = some body) : n.db.tables.txos.get ref = some body := by
  rw [hresolver] at hget
  split at hget
  · rename_i hexternal
    obtain ⟨stored, hstored⟩ := hvalid.external_stored hexternal
    cases hm : n.mem.get ref with
    | none =>
      rw [hm] at hget
      exact hget
    | some b =>
      rw [hm] at hget
      cases hget
      rw [hagrees ref _ _ hm hstored]
      exact hstored
  · cases hget

/-- A valid block starts with its coins in range. -/
theorem InRange.start {started : BlockState} (hvalid : ValidBlock n.db.tables height block)
    (hbound : ∀ ref body, n.db.tables.txos.get ref = some body → body.Bound)
    (hget : ∀ ref body, started.resolver.get ref = some body → n.db.tables.txos.get ref = some body)
    (hreward : started.inscriptions.reward = deps.subsidy (height % 2 ^ 32)) :
    InRange deps cfg height n.db.tables.txos block n.db.tables.txos [] started where
  bound := hbound
  resolved ref body h := hbound ref body (hget ref body h)
  values ref body h := by
    have hother : (block.txdata.find? fun tx => tx.txid = ref.txid) = none := by
      refine List.find?_eq_none.mpr (fun tx htx => ?_)
      simp only [decide_eq_true_eq]
      intro heq
      exact hvalid.unproduced (ref, body) (Table.mem_entries.mpr h) (heq ▸ List.mem_map_of_mem htx)
    unfold valueOf
    rw [hother, h]
    rfl
  total := rfl
  reward _ := by rw [hreward]; rfl

/-- A transaction of a block with distinct txids is found under its txid. -/
theorem find_txid {txs : List Transaction} (hnodup : (txs.map Transaction.txid).Nodup) {tx : Transaction}
    (htx : tx ∈ txs) : (txs.find? fun tx' => tx'.txid = tx.txid) = some tx := by
  induction txs with
  | nil => cases htx
  | cons first txs ih =>
    rw [List.map_cons, List.nodup_cons] at hnodup
    rcases List.mem_cons.mp htx with rfl | htx
    · rw [List.find?_cons_of_pos (by simp)]
    · have hne : first.txid ≠ tx.txid := fun heq => hnodup.1 (heq ▸ List.mem_map_of_mem htx)
      rw [List.find?_cons_of_neg (by simpa using hne)]
      exact ih hnodup.2 htx

/-- What the network guarantees of a transaction of a block. -/
theorem InRange.step_of_valid {live : Table TxoRef TxoBody} {done : List Transaction} {s s₁ : BlockState}
    {tx : Transaction} {idx : Nat} {coinbase : Transaction} {txs : List Transaction}
    (h : InRange deps cfg height n.db.tables.txos block live done s)
    (hvalid : ValidBlock n.db.tables height block) (hfunded : Funded deps n.db.tables height block)
    (htxdata : block.txdata = coinbase :: txs) (htx : tx ∈ txs)
    (ptx : ProcessedTx deps cfg height idx tx s s₁) (hlive : LiveTx live tx s) :
    InRange deps cfg height n.db.tables.txos block (afterTx live tx ptx.bodies) (done ++ [tx]) s₁ := by
  have hmem : tx ∈ block.txdata := by rw [htxdata]; exact List.mem_cons_of_mem _ htx
  refine h.step ptx hlive ((hvalid.coinbase.isCoinbase htxdata).2 tx htx) ((hvalid.coinbase.not_null htxdata).2 tx htx)
    (hfunded.pays tx ?_) hfunded.coins (hvalid.outputs tx hmem) (find_txid hvalid.txids hmem)
  rw [htxdata]
  exact htx

/-- **The coins are in range at every step**, as far as the processing of a valid block gets. -/
theorem StepReached.inRange (r : StepReached deps cfg n height block step)
    (hvalid : ValidBlock n.db.tables height block) (hfunded : Funded deps n.db.tables height block)
    (hagrees : Agrees n.mem n.db.tables.txos)
    (hbound : ∀ ref body, n.db.tables.txos.get ref = some body → body.Bound) :
    ∃ live, InRange deps cfg height n.db.tables.txos block live (r.before.map Prod.fst) step.2 ∧
      LiveBlock r.coinbase (r.rest.map Prod.fst) live step.2 := by
  have hstart : InRange deps cfg height n.db.tables.txos block n.db.tables.txos [] r.started :=
    .start hvalid hbound (hvalid.resolved_stored r.resolver hagrees) (by rw [r.inscriptions]; rfl)
  have hlive := hvalid.liveTxos r.txdata r.resolver hagrees
  have hend := ProcessedTxs.induct (P := fun done later s => ∃ live,
      InRange deps cfg height n.db.tables.txos block live (done.map Prod.fst) s ∧
      LiveBlock r.coinbase ((later ++ r.rest).map Prod.fst) live s) r.processes [] ?_ ⟨_, hstart, ?_⟩
  · obtain ⟨live, hin, hblock⟩ := hend
    rw [List.nil_append, r.processes.map_fst] at hin
    exact ⟨live, hin, hblock⟩
  · rintro done tx idx later _ s s₁ hsuffix _ ptx _ ⟨live, hin, hblock⟩
    have hidx : (tx, idx) ∈ r.txs.zipIdx 1 := by
      rw [r.split]
      exact List.mem_append_left _ (hsuffix.subset List.mem_cons_self)
    have htx : tx ∈ r.txs := List.fst_mem_of_mem_zipIdx hidx
    refine ⟨afterTx live tx ptx.bodies, ?_, ?_⟩
    · rw [List.map_append]
      exact hin.step_of_valid hvalid hfunded r.txdata htx ptx hblock.head
    · exact hblock.tail ptx
  · rw [← r.split, List.zipIdx_map_fst]
    exact hlive

/-- A block keeps the offsets of all outputs below their values. -/
theorem Applied.bound {n' : Node} {mutable : Bool} (run : Applied deps cfg n height block mutable n')
    (hvalid : ValidBlock n.db.tables height block) (hfunded : Funded deps n.db.tables height block)
    (hsettled : Settled n.mem n.db.tables.txos)
    (hbound : ∀ ref body, n.db.tables.txos.get ref = some body → body.Bound) :
    ∀ ref body, n'.db.tables.txos.get ref = some body → body.Bound := by
  have hstart : InRange deps cfg height n.db.tables.txos block n.db.tables.txos [] run.processed.started :=
    .start hvalid hbound (hvalid.resolved_stored (run.processed.started_resolver rfl) hsettled.agrees)
      (by rw [run.processed.started_inscriptions.1]; rfl)
  have hend := run.live_induct hvalid hsettled.agrees hsettled.null
    (P := fun live done s => InRange deps cfg height n.db.tables.txos block live (done.map Prod.fst) s) hstart ?_
  · obtain ⟨live, hin, -, htxos⟩ := hend
    have hmem : run.processed.coinbase ∈ block.txdata := by rw [run.processed.txdata]; exact List.mem_cons_self
    have hbodies := run.processed.inscriptions.bound run.processed.produced
      (hfunded.coinbase _ (by rw [run.processed.txdata]; exact List.mem_cons_self)) (hvalid.outputs _ hmem)
    intro ref body hget
    rw [htxos] at hget
    rcases Table.get_insertAll hget with hget | ⟨-, hget⟩
    · obtain ⟨-, i, -, hb⟩ := mem_numbered.mp hget
      exact hbodies body (List.mem_of_getElem? hb)
    · exact hin.bound ref body hget
  · intro live done tx idx s s₁ ptx hidx _ hlive _ hin
    rw [List.map_append]
    exact hin.step_of_valid hvalid hfunded run.processed.txdata (List.fst_mem_of_mem_zipIdx hidx) ptx hlive

/-- **Offsets lie below values** in every node that funded blocks lead to. -/
theorem Reach.bound (h : Reach deps cfg (fun n call => Funded deps n.db.tables call.height call.block) n) :
    ∀ ref body, n.db.tables.txos.get ref = some body → body.Bound := by
  obtain ⟨l, hl⟩ := h.history (restores_sameChain deps cfg _)
  refine (History.induct (P := fun t => ∀ ref body, t.txos.get ref = some body → body.Bound) hl.blocks ?_ ?_ ?_).1
  · intro ref body hget
    cases hget
  · intro t t' hsame ht
    rw [hsame.txos]
    exact ht
  · rintro t₀ e t₁ ht ⟨run, hvalid, hsettled, hfunded⟩
    exact run.bound hvalid hfunded hsettled ht

end

/-! ## Transactions other than the coinbase -/

/-- A transaction completes an inscription: the scripts of the partial inscription that its first input
continues, and its own, parse. -/
def completesInscription (partials : PartialTables) (tx : Transaction) : Bool :=
  match tx.input.head? with
  | none => false
  | some first =>
    match previousPartials partials first.previousOutput.txid with
    | .error _ => false
    | .ok (_, txs) =>
      match Inscription.fromTransactions (txs ++ [tx]) with
      | .complete _ => true
      | _ => false

section

variable {deps : Deps} {height : Nat} {resolver : Table TxoRef TxoBody} {tx : Transaction} {s : InscriptionState}

theorem totalOutputValue_val {checks : Bool} {total : U64} (h : totalOutputValue checks tx = .ok total)
    (hrange : outputTotal tx.output < 2 ^ 64) : total.val = outputTotal tx.output := by
  have hsum : ∀ (outputs : List TxOut) (start : U64), start.val + outputTotal outputs < 2 ^ 64 →
      outputs.foldlM (fun total output => add64 checks total output.value) start = .ok total →
      total.val = start.val + outputTotal outputs := by
    intro outputs
    induction outputs with
    | nil =>
      intro start _ h
      cases h
      rfl
    | cons output outputs ih =>
      intro start hlt h
      have hsplit : outputTotal (output :: outputs) = output.value.val + outputTotal outputs := by
        simp [outputTotal]
      obtain ⟨next, hnext, h⟩ := foldlM_cons_eq_ok.mp h
      have hval : next.val = start.val + output.value.val := by
        rw [add64_eq_ok hnext, Fin.val_add, Nat.mod_eq_of_lt (by omega)]
      rw [ih next (by omega) h]
      omega
  have hzero := hsum tx.output 0 (by simpa using hrange) h
  simpa using hzero

theorem reveal_completes {checks : Bool} {txid : Txid} {tin tout : U64} {revealed : List Flotsam}
    {messages : List (InscriptionId × RawProtocolMessage)} {after : InscriptionState}
    (h : reveal deps checks tx txid tin tout s = .ok (revealed, messages, after)) :
    (∀ f ∈ revealed, f.offset = 0) ∧ (completesInscription s.partials tx = true ↔ revealed ≠ []) := by
  unfold reveal at h
  obtain ⟨first, hfirst, h⟩ := bind_eq_ok.mp h
  obtain ⟨⟨chain, txs⟩, hchain, h⟩ := bind_eq_ok.mp h
  unfold completesInscription
  rw [orPanic_eq_ok.mp hfirst]
  simp only [hchain]
  simp only at h
  cases hparse : Inscription.fromTransactions (txs ++ [tx]) with
  | none =>
    rw [hparse] at h
    cases h
    simp
  | partial_ =>
    rw [hparse] at h
    cases h
    simp
  | complete inscription =>
    rw [hparse] at h
    obtain ⟨fee, hfee, h⟩ := bind_eq_ok.mp h
    cases h
    simp

/-- **A transaction other than the coinbase never underflows.** -/
theorem subtractions_le (hbound : ∀ ref body, resolver.get ref = some body → body.Bound)
    (hcoin : isCoinbase tx = false)
    (hpays : outputTotal tx.output ≤ inputValue deps resolver height tx.input)
    (hrange : s.reward.val + inputValue deps resolver height tx.input < 2 ^ 64) {l : List (U64 × U64)}
    (h : subtractions deps resolver tx height s = .ok l) : ∀ p ∈ l, p.2 ≤ p.1 := by
  obtain ⟨total, htotal, h'⟩ := bind_eq_ok.mp h
  obtain ⟨inputs, hinputs, h'⟩ := bind_eq_ok.mp h'
  obtain ⟨⟨revealed, messages, after⟩, hreveal, -⟩ := bind_eq_ok.mp h'
  obtain ⟨l', hl', hiff⟩ := subtractions_le_iff htotal hinputs hreveal rfl
  rw [h] at hl'
  cases hl'
  simp only [hcoin, Bool.false_eq_true, if_false, List.append_nil] at hiff
  obtain ⟨hvalue, hfloat, -⟩ := collectFrom_ok hinputs
  simp only [Fin.val_zero, Nat.zero_add, List.nil_append] at hvalue hfloat
  rw [Nat.mod_eq_of_lt (by omega)] at hvalue
  have htotal := totalOutputValue_val htotal (by omega)
  have hzero : ∀ f ∈ revealed, f.offset = 0 := by
    split at hreveal
    · exact (reveal_completes hreveal).1
    · cases hreveal
      exact fun f hf => (List.not_mem_nil hf).elim
  -- every offset lies within the inputs
  have hoffset : ∀ f ∈ inputs.floating ++ revealed, f.offset.val ≤ inputValue deps resolver height tx.input := by
    intro f hf
    rcases List.mem_append.mp hf with hf | hf
    · rw [hfloat] at hf
      have hmem := List.mem_map_of_mem (f := Flotsam.located) hf
      rw [inputFloats_located hbound (by simp only [Fin.val_zero, Nat.zero_add]; omega)] at hmem
      have hlt := inputSide_lt hbound _ hmem
      simp only [Flotsam.located, Fin.val_zero, Nat.zero_add] at hlt
      omega
    · rw [hzero f hf]
      exact Nat.zero_le _
  obtain ⟨hout, hleft⟩ := @sweepSubtractions_left 0 _ tx.output
    (sortFlotsam_sorted (inputs.floating ++ revealed)) (fun f _ => Fin.zero_le _)
    (by simp only [Fin.val_zero, Nat.zero_add]; omega)
  simp only [Fin.val_zero, Nat.zero_add] at hout hleft
  refine hiff.mpr ⟨fun _ => Fin.le_def.mpr (by omega), fun f hf => ?_, Fin.le_def.mpr (by rw [hout]; omega)⟩
  obtain ⟨hmem, hge⟩ := (hleft f).mp hf
  have hle := hoffset f ((sortFlotsam_perm _).mem_iff.mp hmem)
  refine Fin.le_def.mpr ?_
  rw [hout, Fin.val_add, Nat.mod_eq_of_lt (by omega)]
  omega

/-! ## The coinbase -/

/-- The inputs of a coinbase are worth the subsidy and hold no inscription. -/
theorem collectInputs_coinbase (deps : Deps) (resolver : Table TxoRef TxoBody) (height : Nat)
    (hspent : spent tx = [OutPoint.null]) :
    ∃ inputs, collectInputs deps false resolver height tx = .ok inputs ∧ inputs.floating = [] ∧
      inputs.totalInputValue = deps.subsidy (height % 2 ^ 32) := by
  obtain ⟨txin, hinput, hprev⟩ := List.map_eq_singleton_iff.mp hspent
  unfold collectInputs
  rw [hinput]
  refine ⟨⟨0 + deps.subsidy (height % 2 ^ 32), [], Table.empty⟩, foldlM_cons_eq_ok.mpr ⟨_, ?_, rfl⟩, rfl,
    Fin.zero_add _⟩
  unfold collectInput
  rw [if_pos (by rw [hprev]; rfl)]
  rfl

theorem totalOutputValue_ok (tx : Transaction) : ∃ total, totalOutputValue false tx = .ok total := by
  have hsum : ∀ (outputs : List TxOut) (start : U64),
      ∃ total, outputs.foldlM (fun total output => add64 false total output.value) start = .ok total := by
    intro outputs
    induction outputs with
    | nil => exact fun start => ⟨start, rfl⟩
    | cons output outputs ih =>
      intro start
      obtain ⟨total, htotal⟩ := ih (start + output.value)
      exact ⟨total, foldlM_cons_eq_ok.mpr ⟨_, rfl, htotal⟩⟩
  exact hsum tx.output 0

/-- Without overflow checks a reveal fails only when a partial inscription is not found. -/
theorem reveal_succeeds (deps : Deps) (txid : Txid) (tin tout : U64) (hspent : spent tx = [OutPoint.null])
    (hclosed : s.partials.Closed) : ∃ r, reveal deps false tx txid tin tout s = .ok r := by
  obtain ⟨txin, hinput, -⟩ := List.map_eq_singleton_iff.mp hspent
  obtain ⟨⟨chain, txs⟩, hchain⟩ := hclosed.collects txin.previousOutput.txid
  have hfirst : orPanic tx.input.head? = .ok txin := by rw [hinput]; rfl
  refine exists_bind hfirst (exists_bind hchain ?_)
  simp only
  cases Inscription.fromTransactions (txs ++ [tx]) with
  | none => exact ⟨_, rfl⟩
  | partial_ => exact ⟨_, rfl⟩
  | complete inscription => exact exists_bind rfl ⟨_, rfl⟩

/-- What keeps the coinbase from underflowing: it pays no more than the subsidy and the fees, no more than the
subsidy when it completes an inscription, and the offset of an inscription that it loses, added to the lost
satoshis, does not wrap around to less than its outputs. -/
structure Covered (deps : Deps) (txos : Table TxoRef TxoBody) (height : Nat) (block : Block)
    (step : Transaction × BlockState) : Prop where
  pays : outputTotal step.1.output ≤ (deps.subsidy (height % 2 ^ 32)).val + fees txos block (block.txdata.drop 1)
  completes : completesInscription step.2.inscriptions.partials step.1 = true →
    outputTotal step.1.output ≤ (deps.subsidy (height % 2 ^ 32)).val
  lost : ∀ f ∈ step.2.inscriptions.cbInscriptions, outputTotal step.1.output ≤ f.offset.val →
    step.2.inscriptions.counters.lostSats.val + f.offset.val < 2 ^ 64 ∨
      2 ^ 64 + outputTotal step.1.output ≤ step.2.inscriptions.counters.lostSats.val + f.offset.val

theorem wrapped_le {a b : U64} {c : Nat} (h : c ≤ b.val) :
    c ≤ (a + b).val ↔ a.val + b.val < 2 ^ 64 ∨ 2 ^ 64 + c ≤ a.val + b.val := by
  have ha := a.isLt
  have hb := b.isLt
  rw [Fin.val_add]
  by_cases hlt : a.val + b.val < 2 ^ 64
  · rw [Nat.mod_eq_of_lt hlt]
    omega
  · rw [Nat.mod_eq_sub_mod (by omega), Nat.mod_eq_of_lt (by omega)]
    omega

/-- **The coinbase**, whose outputs are in range and whose partial inscription is found, underflows or not by
its reward, by the subsidy when it completes an inscription, and by what it loses. -/
theorem subtractions_coinbase (hcoin : isCoinbase tx = true) (hspent : spent tx = [OutPoint.null])
    (hrange : outputTotal tx.output < 2 ^ 64) (hclosed : s.partials.Closed) :
    ∃ l, subtractions deps resolver tx height s = .ok l ∧
      ((∀ p ∈ l, p.2 ≤ p.1) ↔ outputTotal tx.output ≤ s.reward.val ∧
        (completesInscription s.partials tx = true → outputTotal tx.output ≤ (deps.subsidy (height % 2 ^ 32)).val) ∧
        ∀ f ∈ s.cbInscriptions, outputTotal tx.output ≤ f.offset.val →
          s.counters.lostSats.val + f.offset.val < 2 ^ 64 ∨
            2 ^ 64 + outputTotal tx.output ≤ s.counters.lostSats.val + f.offset.val) := by
  obtain ⟨total, htotal⟩ := totalOutputValue_ok tx
  obtain ⟨inputs, hinputs, hfloat, hvalue⟩ := collectInputs_coinbase deps resolver height hspent
  obtain ⟨⟨revealed, messages, after⟩, hreveal⟩ := reveal_succeeds deps tx.txid inputs.totalInputValue total
    hspent hclosed
  obtain ⟨hzero, hcompletes⟩ := reveal_completes hreveal
  obtain ⟨l, hl, hiff⟩ := subtractions_le_iff htotal hinputs (by rw [hfloat]; exact hreveal) rfl
  simp only [hfloat, hcoin, if_true, List.nil_append] at hiff
  obtain ⟨hout, hleft⟩ := @sweepSubtractions_left 0 _ tx.output
    (sortFlotsam_sorted (revealed ++ s.cbInscriptions)) (fun f _ => Fin.zero_le _) (by simpa using hrange)
  simp only [Fin.val_zero, Nat.zero_add] at hout hleft
  refine ⟨l, hl, hiff.trans ?_⟩
  rw [Fin.le_def, Fin.le_def, hout, hvalue, totalOutputValue_val htotal hrange, hcompletes]
  have hlost : (∀ f ∈ (sweepSubtractions 0 (sortFlotsam (revealed ++ s.cbInscriptions)) tx.output).2.1,
      (sweepSubtractions 0 (sortFlotsam (revealed ++ s.cbInscriptions)) tx.output).2.2 ≤
        s.counters.lostSats + f.offset) ↔
      ∀ f ∈ s.cbInscriptions, outputTotal tx.output ≤ f.offset.val →
        s.counters.lostSats.val + f.offset.val < 2 ^ 64 ∨
          2 ^ 64 + outputTotal tx.output ≤ s.counters.lostSats.val + f.offset.val := by
    constructor
    · intro h f hf hge
      have hmem : f ∈ sortFlotsam (revealed ++ s.cbInscriptions) :=
        (sortFlotsam_perm _).mem_iff.mpr (List.mem_append_right _ hf)
      have hle := Fin.le_def.mp (h f ((hleft f).mpr ⟨hmem, hge⟩))
      rw [hout] at hle
      exact (wrapped_le hge).mp hle
    · intro h f hf
      obtain ⟨hmem, hge⟩ := (hleft f).mp hf
      refine Fin.le_def.mpr ?_
      rw [hout]
      rcases List.mem_append.mp ((sortFlotsam_perm _).mem_iff.mp hmem) with hnew | hcarried
      · -- a new inscription is lost by a coinbase that pays nothing
        rw [hzero f hnew] at hge
        exact (Nat.le_zero.mp hge) ▸ Nat.zero_le _
      · exact (wrapped_le hge).mpr (h f hcarried hge)
  rw [hlost]
  constructor
  · rintro ⟨hfee, hcarried, hpays⟩
    exact ⟨hpays, hfee, hcarried⟩
  · rintro ⟨hpays, hfee, hcarried⟩
    exact ⟨hfee, hcarried, hpays⟩

end

/-! ## Blocks -/

section

variable {deps : Deps} {cfg : Config} {n : Node} {height : Nat} {block : Block} {step : Transaction × BlockState}

/-- The inputs of a transaction are among the live outputs. -/
theorem LiveTx.inputValue_le {live : Table TxoRef TxoBody} {tx : Transaction} {s : BlockState}
    (hlive : LiveTx live tx s) (hnull : OutPoint.null ∉ spent tx) (deps : Deps) (height : Nat) :
    inputValue deps s.resolver height tx.input ≤ coins live := by
  have hinputs : ∀ ref ∈ spent tx, live.get ref = s.resolver.get ref := by
    intro ref href
    obtain ⟨body, hlive', hres⟩ := hlive.inputs ref href
    rw [hlive', hres]
  have herase := Table.total_eraseAll (fun _ (body : TxoBody) => body.raw.value.val) live hlive.nodup
  rw [inputValue_eq hnull hinputs]
  unfold coins
  omega

theorem StepReached.mem_txs (r : StepReached deps cfg n height block step) {idx : Nat}
    {later : List (Transaction × Nat)} (hrest : r.rest = (step.1, idx) :: later) : step.1 ∈ r.txs := by
  have hidx : (step.1, idx) ∈ r.txs.zipIdx 1 := by
    rw [r.split, hrest]
    exact List.mem_append_right _ List.mem_cons_self
  exact List.fst_mem_of_mem_zipIdx hidx

/-- A step other than the coinbase, as far as the processing of a funded block gets. -/
theorem StepReached.subtractions_le (r : StepReached deps cfg n height block step)
    (hvalid : ValidBlock n.db.tables height block) (hfunded : Funded deps n.db.tables height block)
    (hagrees : Agrees n.mem n.db.tables.txos)
    (hbound : ∀ ref body, n.db.tables.txos.get ref = some body → body.Bound)
    (hheight : cfg.firstInscriptionHeight ≤ height) (hcoin : isCoinbase step.1 = false) {l : List (U64 × U64)}
    (h : subtractions deps step.2.resolver step.1 height step.2.inscriptions = .ok l) : ∀ p ∈ l, p.2 ≤ p.1 := by
  obtain ⟨live, hin, hblock⟩ := r.inRange hvalid hfunded hagrees hbound
  rcases r.next with ⟨idx, later, hrest⟩ | ⟨-, hcb⟩
  · have htx := r.mem_txs hrest
    rw [hrest, List.map_cons] at hblock
    have hlive : LiveTx live step.1 step.2 := hblock.head
    have hnull := (hvalid.coinbase.not_null r.txdata).2 _ htx
    have hvalue := hin.inputValue_eq hlive hnull
    have hle := hlive.inputValue_le hnull deps height
    have hpays := hfunded.pays step.1 (by rw [r.txdata]; exact htx)
    have htotal := hin.total
    have hreward := hin.reward hheight
    have hcoins := hfunded.coins
    exact Compressor.subtractions_le hin.resolved hcoin (by omega) (by omega) h
  · rw [hcb, (hvalid.coinbase.isCoinbase r.txdata).1] at hcoin
    cases hcoin

/-- The coinbase, when the processing of a funded block gets there. -/
theorem StepReached.subtractions_iff (r : StepReached deps cfg n height block step)
    (hvalid : ValidBlock n.db.tables height block) (hfunded : Funded deps n.db.tables height block)
    (hagrees : Agrees n.mem n.db.tables.txos)
    (hbound : ∀ ref body, n.db.tables.txos.get ref = some body → body.Bound)
    (hclosed : step.2.inscriptions.partials.Closed)
    (hheight : cfg.firstInscriptionHeight ≤ height) (hcoin : isCoinbase step.1 = true) :
    ∃ l, subtractions deps step.2.resolver step.1 height step.2.inscriptions = .ok l ∧
      ((∀ p ∈ l, p.2 ≤ p.1) ↔ Covered deps n.db.tables.txos height block step) := by
  obtain ⟨live, hin, -⟩ := r.inRange hvalid hfunded hagrees hbound
  rcases r.next with ⟨idx, later, hrest⟩ | ⟨hrest, hcb⟩
  · rw [(hvalid.coinbase.isCoinbase r.txdata).2 _ (r.mem_txs hrest)] at hcoin
    cases hcoin
  · have hdone : r.before.map Prod.fst = block.txdata.drop 1 := by
      have hsplit := r.split
      rw [hrest, List.append_nil] at hsplit
      rw [← hsplit, List.zipIdx_map_fst, r.txdata]
      rfl
    have hreward := hin.reward hheight
    rw [hdone] at hreward
    have hrange := hfunded.coinbase step.1 (by rw [r.txdata, hcb]; exact List.mem_cons_self)
    have hspent : spent step.1 = [OutPoint.null] := by
      rw [hcb]
      exact (hvalid.coinbase.not_null r.txdata).1
    obtain ⟨l, hl, hiff⟩ := subtractions_coinbase hcoin hspent hrange hclosed
    refine ⟨l, hl, hiff.trans ?_⟩
    rw [hreward]
    exact ⟨fun ⟨h₁, h₂, h₃⟩ => ⟨h₁, h₂, h₃⟩, fun ⟨h₁, h₂, h₃⟩ => ⟨h₁, h₂, h₃⟩⟩

/-- **A block underflows exactly when its coinbase is not covered**: on every node that funded blocks lead to,
reorganisations included, as far as the processing of the block gets. -/
theorem no_underflow_iff (hreach : Reach deps cfg (fun n call => Funded deps n.db.tables call.height call.block) n)
    (hvalid : ValidBlock n.db.tables height block) (hfunded : Funded deps n.db.tables height block) :
    (∀ p ∈ blockSubtractions deps cfg n height block, p.2 ≤ p.1) ↔
      (cfg.firstInscriptionHeight ≤ height → ∀ step ∈ blockSteps deps cfg n height block,
        isCoinbase step.1 = true → Covered deps n.db.tables.txos height block step) := by
  obtain ⟨_, hbacked⟩ := hreach.history (restores_sameChain deps cfg _)
  have hagrees := hbacked.settled.agrees
  have hbound := hreach.bound
  unfold blockSubtractions
  by_cases hheight : cfg.firstInscriptionHeight ≤ height
  · rw [if_pos hheight]
    constructor
    · intro hall _ step hstep hcoin
      obtain ⟨r⟩ := mem_blockSteps hstep
      obtain ⟨l, hl, hiff⟩ := r.subtractions_iff hvalid hfunded hagrees hbound
        (blockSteps_closed hreach.closed height block step hstep) hheight hcoin
      refine hiff.mp (fun p hp => hall p (List.mem_flatMap.mpr ⟨step, hstep, ?_⟩))
      rw [hl]
      exact hp
    · intro hcovered p hp
      obtain ⟨step, hstep, hp⟩ := List.mem_flatMap.mp hp
      obtain ⟨r⟩ := mem_blockSteps hstep
      cases hcoin : isCoinbase step.1 with
      | false =>
        split at hp
        · rename_i l hl
          exact r.subtractions_le hvalid hfunded hagrees hbound hheight hcoin hl p hp
        · cases hp
      | true =>
        obtain ⟨l, hl, hiff⟩ := r.subtractions_iff hvalid hfunded hagrees hbound
          (blockSteps_closed hreach.closed height block step hstep) hheight hcoin
        rw [hl] at hp
        exact hiff.mpr (hcovered hheight step hstep hcoin) p hp
  · rw [if_neg hheight]
    exact ⟨fun _ h => absurd h hheight, fun _ p hp => (List.not_mem_nil hp).elim⟩

/-- From the first inscription height on, the inscriptions of a transaction are indexed. -/
theorem InscriptionsStep.index_ok {tx : Transaction} {resolver : Table TxoRef TxoBody} {i i' : InscriptionState}
    {placed : List (List (U64 × InscriptionId))} {transfers : Table InscriptionId (Ticker × U128)}
    {messages : List (InscriptionId × BRC20Message)}
    (h : InscriptionsStep deps cfg height tx resolver i placed transfers messages i')
    (hheight : cfg.firstInscriptionHeight ≤ height) :
    ∃ r i', indexInscriptions deps cfg resolver tx tx.txid height i = .ok (r, i') := by
  cases h with
  | indexed _ hindex => exact ⟨_, _, hindex⟩
  | skipped hbelow => omega

/-- **A build with overflow checks stops at the flat schedule**: the coinbase of a block that it applies pays no more
than the subsidy of the Bitcoin schedule and the fees. -/
theorem applied_coinbase_pays (hchecks : cfg.checks = true)
    (hreach : Reach deps cfg (fun n call => Funded deps n.db.tables call.height call.block) n)
    (hvalid : ValidBlock n.db.tables height block) (hfunded : Funded deps n.db.tables height block)
    (hheight : cfg.firstInscriptionHeight ≤ height) {rocks : Rocks} {mutable : Bool} {n' : Node}
    (h : applyBlockWithContext deps cfg rocks height block mutable n = .ok ⟨⟩ n') :
    ∀ coinbase ∈ block.txdata.take 1, outputTotal coinbase.output ≤
      (deps.subsidy (height % 2 ^ 32)).val + fees n.db.tables.txos block (block.txdata.drop 1) := by
  obtain ⟨_, hbacked⟩ := hreach.history (restores_sameChain deps cfg _)
  obtain ⟨run⟩ := apply_ok h
  have hmem : (run.processed.coinbase, run.processed.closed) ∈ blockSteps deps cfg n height block := by
    rw [run.steps]
    exact List.mem_append_right _ (List.mem_singleton_self _)
  have hcoin : isCoinbase run.processed.coinbase = true := (hvalid.coinbase.isCoinbase run.processed.txdata).1
  obtain ⟨r⟩ := mem_blockSteps hmem
  obtain ⟨l, hl, hiff⟩ := r.subtractions_iff hvalid hfunded hbacked.settled.agrees hreach.bound
    (blockSteps_closed hreach.closed height block _ hmem) hheight hcoin
  obtain ⟨_, _, hindex⟩ := run.processed.inscriptions.index_ok hheight
  obtain ⟨l', hl', hle⟩ := subtractions_ordered hchecks hindex
  cases hl.symm.trans hl'
  intro coinbase hfirst
  rw [run.processed.txdata] at hfirst
  cases List.mem_singleton.mp hfirst
  exact (hiff.mp hle).pays

end

instance (deps : Deps) (txos : Table TxoRef TxoBody) (height : Nat) (block : Block)
    (step : Transaction × BlockState) : Decidable (Covered deps txos height block step) :=
  decidable_of_iff (outputTotal step.1.output ≤
        (deps.subsidy (height % 2 ^ 32)).val + fees txos block (block.txdata.drop 1) ∧
      (completesInscription step.2.inscriptions.partials step.1 = true →
        outputTotal step.1.output ≤ (deps.subsidy (height % 2 ^ 32)).val) ∧
      ∀ f ∈ step.2.inscriptions.cbInscriptions, outputTotal step.1.output ≤ f.offset.val →
        step.2.inscriptions.counters.lostSats.val + f.offset.val < 2 ^ 64 ∨
          2 ^ 64 + outputTotal step.1.output ≤ step.2.inscriptions.counters.lostSats.val + f.offset.val)
    ⟨fun ⟨h₁, h₂, h₃⟩ => ⟨h₁, h₂, h₃⟩, fun ⟨h₁, h₂, h₃⟩ => ⟨h₁, h₂, h₃⟩⟩

/-- A block with fees, an inscription paid to one of them, and a coinbase that takes them with the subsidy. -/
theorem no_underflow_moved_and_paid :
    (blockSubtractions emptyScripts fromFirstBlock revealedNode 2 movedAndPaid).length = 6 ∧
      ∀ p ∈ blockSubtractions emptyScripts fromFirstBlock revealedNode 2 movedAndPaid, p.2 ≤ p.1 := by
  have hsome : (runCalls emptyScripts fromFirstBlock (Node.open_ true) revealedOnSecond).isSome = true := by
    decide +kernel
  have hreach := (Run.ofCalls hsome).reach (fun n call => Funded emptyScripts n.db.tables call.height call.block)
    (by decide +kernel) (by decide +kernel)
  exact ⟨by decide +kernel, (no_underflow_iff hreach (by decide +kernel) (by decide +kernel)).mpr (by decide +kernel)⟩

/-- The block is applied, and its coinbase takes the subsidy and the fees. -/
theorem applied_coinbase_pays_moved_and_paid :
    ∃ n', applyBlockWithContext emptyScripts fromFirstBlock ⟨true, true⟩ 2 movedAndPaid true revealedNode = .ok ⟨⟩ n' ∧
      ∀ coinbase ∈ movedAndPaid.txdata.take 1, outputTotal coinbase.output ≤
        (emptyScripts.subsidy (2 % 2 ^ 32)).val +
          fees revealedNode.db.tables.txos movedAndPaid (movedAndPaid.txdata.drop 1) := by
  have hsome : (runCalls emptyScripts fromFirstBlock (Node.open_ true) revealedOnSecond).isSome = true := by
    decide +kernel
  have hreach := (Run.ofCalls hsome).reach (fun n call => Funded emptyScripts n.db.tables call.height call.block)
    (by decide +kernel) (by decide +kernel)
  have hcompletes : (match applyBlockWithContext emptyScripts fromFirstBlock ⟨true, true⟩ 2 movedAndPaid true
      revealedNode with
    | .ok _ _ => true
    | _ => false) = true := by
    decide +kernel
  cases hcall : applyBlockWithContext emptyScripts fromFirstBlock ⟨true, true⟩ 2 movedAndPaid true revealedNode with
  | ok _ n' =>
    exact ⟨n', rfl, applied_coinbase_pays rfl hreach (by decide +kernel) (by decide +kernel) (by decide) hcall⟩
  | error e n' =>
    rw [hcall] at hcompletes
    cases hcompletes

/-- The other crates with the subsidies of the Bitcoin schedule. -/
def halvingSubsidy : Deps := { emptyScripts with
  subsidy := fun height => Fin.ofNat (2 ^ 64) (5000000000 / 2 ^ (height / 210000)) }

/-- The first block of the flat schedule: its coinbase pays 10,000 DOGE. -/
def flatReward : Block := ⟨2, 1, [coinbaseTx 10 [1000000000000]]⟩

/-- A build without overflow checks that indexes from the first block on. -/
def uncheckedFromFirst : Config := { fromFirstBlock with checks := false }

/-- The coinbase of this block underflows: with overflow checks the call panics, and without them the lost
satoshis wrap around. -/
theorem flat_reward_underflows :
    ValidBlock (Node.open_ true).db.tables 600000 flatReward ∧
      Funded halvingSubsidy (Node.open_ true).db.tables 600000 flatReward ∧
      (¬ ∀ p ∈ blockSubtractions halvingSubsidy fromFirstBlock (Node.open_ true) 600000 flatReward, p.2 ≤ p.1) ∧
      (match applyBlockWithContext halvingSubsidy fromFirstBlock ⟨true, true⟩ 600000 flatReward true
          (Node.open_ true) with
        | .error .panic _ => true
        | _ => false) = true ∧
      (endState (applyBlockWithContext halvingSubsidy uncheckedFromFirst ⟨true, true⟩ 600000 flatReward true
        (Node.open_ true))).db.tables.counters.map (fun c => c.lostSats.val) =
          some (2 ^ 64 - 1000000000000 + 1250000000) := by
  refine ⟨by decide +kernel, by decide +kernel, fun hall => ?_, by decide +kernel, by decide +kernel⟩
  exact absurd (hall (1250000000, 1000000000000) (by decide +kernel)) (by decide)

end DogeIndexer.Compressor
