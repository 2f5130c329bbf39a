import DogeIndexer.Compressor.Live

/-!
# Inscriptions keep their satoshis

Every inscription is followed by its absolute offset: among the inputs of its transaction, where
it comes from, and among the outputs, where it is put.

* `sweep_offsets` — the sweep over the outputs in terms of natural numbers.
* `placeOutputs_perm` — the lists of the outputs hold what was placed.
* `inscriptions_conserved` — for every transaction of a valid block: what was on the inputs, was
  revealed or, for the coinbase, was carried is on the outputs, is carried on or is lost, each at
  the same offset.
-/

set_option autoImplicit false

namespace DogeIndexer.Compressor

open Fallible

/-! ## Absolute offsets -/

/-- The value of a list of outputs. -/
def outputTotal (outputs : List TxOut) : Nat := (outputs.map fun output => output.value.val).sum

/-- Inscriptions of the inputs with their offsets from the start of the first input. -/
def inputSide (deps : Deps) (resolver : Table TxoRef TxoBody) (height : Nat) :
    Nat → List TxIn → List (InscriptionId × Nat)
  | _, [] => []
  | total, txin :: inputs =>
    if txin.previousOutput.isNull then
      inputSide deps resolver height (total + (deps.subsidy (height % 2 ^ 32)).val) inputs
    else
      match resolver.get txin.previousOutput with
      | none => []
      | some body => body.inscriptions.map (fun e => (e.2, total + e.1.val)) ++
          inputSide deps resolver height (total + body.raw.value.val) inputs

/-- Inscriptions of the outputs with their offsets from the start of the first output. -/
def outputSide : Nat → List TxOut → List (List (U64 × InscriptionId)) → List (InscriptionId × Nat)
  | total, output :: outputs, inscriptions :: rest =>
    inscriptions.map (fun e => (e.2, total + e.1.val)) ++ outputSide (total + output.value.val) outputs rest
  | _, _, _ => []

/-- A flotsam and its offset. -/
def Flotsam.located (f : Flotsam) : InscriptionId × Nat := (f.inscriptionId, f.offset.val)

/-- The offsets of a body lie below its value. -/
def TxoBody.Bound (body : TxoBody) : Prop := ∀ e ∈ body.inscriptions, e.1 < body.raw.value

instance (body : TxoBody) : Decidable body.Bound := inferInstanceAs (Decidable (∀ e ∈ body.inscriptions, _))

/-- The offsets on each output lie below its value. -/
def WithinOutputs (outputs : List TxOut) (placed : List (List (U64 × InscriptionId))) : Prop :=
  ∀ (i : Nat) (output : TxOut) (l : List (U64 × InscriptionId)),
    outputs[i]? = some output → placed[i]? = some l → ∀ e ∈ l, e.1 < output.value

theorem inputFloats_located {deps : Deps} {resolver : Table TxoRef TxoBody} {height : Nat} {total : U64}
    {inputs : List TxIn}
    (hbound : ∀ ref body, resolver.get ref = some body → body.Bound)
    (hrange : total.val + inputValue deps resolver height inputs < 2 ^ 64) :
    (inputFloats deps resolver height total inputs).map Flotsam.located =
      inputSide deps resolver height total.val inputs := by
  induction inputs generalizing total with
  | nil => rfl
  | cons txin inputs ih =>
    unfold inputValue at hrange ih
    rw [List.map_cons, List.sum_cons] at hrange
    unfold inputFloats inputSide
    split
    · rename_i hnull
      rw [if_pos hnull] at hrange
      have hadd : (total + deps.subsidy (height % 2 ^ 32)).val =
          total.val + (deps.subsidy (height % 2 ^ 32)).val := by
        rw [Fin.val_add, Nat.mod_eq_of_lt (by omega)]
      rw [ih (by rw [hadd]; omega), hadd]
    · rename_i hnull
      rw [if_neg hnull] at hrange
      cases hget : resolver.get txin.previousOutput with
      | none => rfl
      | some body =>
        rw [hget] at hrange
        simp only [Option.map_some, Option.getD_some] at hrange
        have hadd : (total + body.raw.value).val = total.val + body.raw.value.val := by
          rw [Fin.val_add, Nat.mod_eq_of_lt (by omega)]
        simp only
        rw [List.map_append, ih (by rw [hadd]; omega), hadd]
        congr 1
        unfold floatsOf
        rw [List.map_map]
        refine List.map_congr_left (fun e he => ?_)
        have hlt := Fin.lt_def.mp (hbound _ body hget e he)
        simp only [Function.comp, Flotsam.located, Prod.mk.injEq, true_and]
        rw [Fin.val_add, Nat.mod_eq_of_lt (by omega)]

/-! ## The sweep -/

theorem le_of_head {l : List Flotsam} {stop : U64}
    (hsorted : l.Pairwise (fun a b => a.offset ≤ b.offset))
    (hhead : ∀ f, l.head? = some f → stop ≤ f.offset) : ∀ f ∈ l, stop ≤ f.offset := by
  cases l with
  | nil => exact fun f hf => (List.not_mem_nil hf).elim
  | cons g l =>
    have hg := hhead g rfl
    intro f hf
    rcases List.mem_cons.mp hf with rfl | hf
    · exact hg
    · exact le_trans hg ((List.pairwise_cons.mp hsorted).1 f hf)

/-- **The sweep**: with outputs in range, a placed inscription keeps its offset and lies within its
output, and what is left lies beyond the outputs. -/
theorem sweep_offsets {checks : Bool} {txid : Txid} {vout : Nat} {start out : U64} {l left : List Flotsam}
    {outputs : List TxOut} {placed : List (SatPoint × Flotsam)}
    (hsorted : l.Pairwise (fun a b => a.offset ≤ b.offset)) (hstart : ∀ f ∈ l, start ≤ f.offset)
    (hrange : start.val + outputTotal outputs < 2 ^ 64)
    (h : sweep checks txid vout start l outputs = .ok (placed, left, out)) :
    out.val = start.val + outputTotal outputs ∧ (∀ f ∈ left, out ≤ f.offset) ∧
      ∀ e ∈ placed, ∃ i output, outputs[i]? = some output ∧ e.1.outpoint = ⟨txid, vout + i⟩ ∧
        e.1.offset < output.value ∧
        e.2.offset.val = start.val + outputTotal (outputs.take i) + e.1.offset.val := by
  induction outputs generalizing vout start l placed with
  | nil =>
    cases h
    exact ⟨by simp [outputTotal], hstart, fun e he => (List.not_mem_nil he).elim⟩
  | cons o outputs ih =>
    unfold sweep at h
    obtain ⟨stop, hstop, h⟩ := bind_eq_ok.mp h
    obtain ⟨⟨p₁, l₁⟩, h₁, h⟩ := bind_eq_ok.mp h
    obtain ⟨⟨p₂, l₂, out₂⟩, h₂, h⟩ := bind_eq_ok.mp h
    cases h
    have hsplit : outputTotal (o :: outputs) = o.value.val + outputTotal outputs := by
      simp [outputTotal]
    rw [hsplit] at hrange
    have hstop : stop.val = start.val + o.value.val := by
      rw [add64_eq_ok hstop, Fin.val_add, Nat.mod_eq_of_lt (by omega)]
    obtain ⟨hl, hplaced, hhead⟩ := sweepOutput_ok h₁
    rw [hl] at hsorted hstart
    obtain ⟨-, hsorted₁, -⟩ := List.pairwise_append.mp hsorted
    obtain ⟨hout, hleft, hrest⟩ := ih hsorted₁ (le_of_head hsorted₁ hhead) (by omega) h₂
    refine ⟨by rw [hout, hstop, hsplit]; omega, hleft, ?_⟩
    intro e he
    rcases List.mem_append.mp he with he | he
    · obtain ⟨hpoint, hoffset, hlt⟩ := hplaced e he
      have hge : start ≤ e.2.offset := hstart e.2 (List.mem_append_left _ (List.mem_map_of_mem he))
      have hval : e.1.offset.val = e.2.offset.val - start.val := by
        rw [hoffset, Fin.coe_sub_iff_le.mpr hge]
      have hge := Fin.le_def.mp hge
      have hlt := Fin.lt_def.mp hlt
      refine ⟨0, o, rfl, hpoint, Fin.lt_def.mpr (by omega), ?_⟩
      simp only [List.take_zero, outputTotal, List.map_nil, List.sum_nil]
      omega
    · obtain ⟨i, output, hget, hpoint, hlt, hval⟩ := hrest e he
      refine ⟨i + 1, output, by simpa using hget, ?_, hlt, ?_⟩
      · rw [hpoint]
        congr 1
        omega
      · have htake : outputTotal ((o :: outputs).take (i + 1)) =
            o.value.val + outputTotal (outputs.take i) := by
          simp [outputTotal]
        rw [htake]
        omega

/-! ## The lists of the outputs -/

/-- A list taken apart by a bounded key. -/
theorem flatMap_filter_perm {α : Type} (l : List α) (key : α → Nat) (n : Nat)
    (h : ∀ a ∈ l, key a < n) : ((List.range n).flatMap fun i => l.filter (fun a => key a = i)).Perm l := by
  induction l with
  | nil => simp
  | cons a l ih =>
    have hsplit : (fun i => (a :: l).filter (fun b => key b = i)) =
        fun i => (if key a = i then [a] else []) ++ l.filter (fun b => key b = i) := by
      funext i
      rw [List.filter_cons]
      by_cases hi : key a = i
      · simp [hi]
      · simp [hi]
    have hone : ∀ m, key a < m → ((List.range m).flatMap fun i => if key a = i then [a] else []) = [a] := by
      intro m hm
      induction m with
      | zero => omega
      | succ m ihm =>
        rw [List.range_succ, List.flatMap_append, List.flatMap_singleton]
        by_cases hlast : key a = m
        · rw [if_pos hlast]
          have hnone : ((List.range m).flatMap fun i => if key a = i then [a] else []) = [] := by
            refine List.flatMap_eq_nil_iff.mpr (fun i hi => ?_)
            have := List.mem_range.mp hi
            rw [if_neg (by omega)]
          rw [hnone]
          rfl
        · rw [if_neg hlast, List.append_nil, ihm (by omega)]
    rw [hsplit]
    refine (List.flatMap_append_perm _ _ _).symm.trans ?_
    rw [hone n (h a List.mem_cons_self)]
    exact (ih (fun b hb => h b (List.mem_cons_of_mem _ hb))).cons a

theorem placeOutputs_get {outgoing : List (SatPoint × InscriptionId)}
    {acc out : List (List (U64 × InscriptionId))}
    (h : outgoing.foldlM (fun (acc : List (List (U64 × InscriptionId))) (e : SatPoint × InscriptionId) =>
      match acc[e.1.outpoint.vout]? with
      | some l => (.ok (acc.set e.1.outpoint.vout (l ++ [(e.1.offset, e.2)])) :
          Except Err (List (List (U64 × InscriptionId))))
      | none => .error .panic) acc = .ok out) :
    (∀ e ∈ outgoing, e.1.outpoint.vout < acc.length) ∧ out.length = acc.length ∧
      ∀ i, out[i]? = acc[i]?.map fun l => l ++
        (outgoing.filter fun e => e.1.outpoint.vout = i).map fun e => (e.1.offset, e.2) := by
  induction outgoing generalizing acc with
  | nil =>
    cases h
    exact ⟨fun _ he => (List.not_mem_nil he).elim, rfl, fun i => by simp⟩
  | cons e outgoing ih =>
    obtain ⟨acc₁, h₁, h₂⟩ := foldlM_cons_eq_ok.mp h
    split at h₁
    · rename_i l hget
      cases h₁
      obtain ⟨hvout, hlen, hget'⟩ := ih h₂
      obtain ⟨hlt, -⟩ := List.getElem?_eq_some_iff.mp hget
      rw [List.length_set] at hvout hlen
      refine ⟨?_, hlen, ?_⟩
      · intro x hx
        rcases List.mem_cons.mp hx with rfl | hx
        · exact hlt
        · exact hvout x hx
      · intro i
        rw [hget' i, List.getElem?_set, List.filter_cons]
        by_cases hi : e.1.outpoint.vout = i
        · subst hi
          rw [if_pos rfl, if_pos hlt, hget]
          simp
        · simp [hi]
    · cases h₁

/-- **The outputs hold what was placed**: whatever is made of the number of an output and of an
entry of its list, over all outputs, is made of the placed inscriptions. -/
theorem placeOutputs_perm {β : Type} {txid : Txid} {outputs : Nat}
    {outgoing : List (SatPoint × InscriptionId)} {out : List (List (U64 × InscriptionId))}
    (h : placeOutputs txid outputs outgoing = .ok out) (g : Nat → U64 × InscriptionId → β) :
    ((List.range outputs).flatMap fun i => (out[i]?.getD []).map (g i)).Perm
      ((outgoing.filter fun e => e.1.outpoint.txid = txid).map fun e => g e.1.outpoint.vout (e.1.offset, e.2)) := by
  unfold placeOutputs at h
  obtain ⟨hvout, hlen, hget⟩ := placeOutputs_get h
  rw [List.length_replicate] at hvout hlen
  generalize outgoing.filter (fun e => e.1.outpoint.txid = txid) = l at hvout hget
  have hlists : ((List.range outputs).flatMap fun i => (out[i]?.getD []).map (g i)) =
      ((List.range outputs).flatMap fun i => l.filter (fun e => e.1.outpoint.vout = i)).map
        fun e => g e.1.outpoint.vout (e.1.offset, e.2) := by
    rw [List.map_flatMap]
    refine List.flatMap_congr (fun i hi => ?_)
    rw [hget i, List.getElem?_replicate, if_pos (List.mem_range.mp hi)]
    simp only [Option.map_some, Option.getD_some, List.nil_append, List.map_map]
    refine List.map_congr_left (fun e he => ?_)
    have := (List.mem_filter.mp he).2
    simp only [decide_eq_true_eq] at this
    simp [this]
  rw [hlists]
  exact (flatMap_filter_perm l _ outputs hvout).map _

theorem outputSide_eq {total : Nat} {outputs : List TxOut} {out : List (List (U64 × InscriptionId))}
    (hlen : out.length = outputs.length) :
    outputSide total outputs out = (List.range outputs.length).flatMap fun i =>
      (out[i]?.getD []).map fun e => (e.2, total + outputTotal (outputs.take i) + e.1.val) := by
  induction outputs generalizing total out with
  | nil =>
    rw [List.length_nil, List.length_eq_zero_iff] at hlen
    rw [hlen]
    rfl
  | cons o outputs ih =>
    cases out with
    | nil => cases hlen
    | cons l out =>
      unfold outputSide
      rw [List.length_cons, List.range_succ_eq_map, List.flatMap_cons, List.flatMap_map,
        ih (by simpa using hlen)]
      congr 1
      refine List.flatMap_congr (fun i hi => ?_)
      simp only [List.getElem?_cons_succ, List.take_succ_cons]
      refine List.map_congr_left (fun e he => ?_)
      simp only [outputTotal, List.map_cons, List.sum_cons, Prod.mk.injEq, true_and]
      omega

section

variable {deps : Deps} {cfg : Config} {resolver : Table TxoRef TxoBody} {tx : Transaction} {height : Nat}
  {s s' : InscriptionState} {r : IndexInscriptionsResult}

theorem Indexed.placedAt_txid {txid : Txid} (run : Indexed deps cfg resolver tx txid height s r s') :
    ∀ e ∈ run.placedAt, e.1.outpoint.txid = txid := by
  intro e he
  obtain ⟨x, hx, rfl⟩ := List.mem_map.mp he
  obtain ⟨i, -, hpoint⟩ := sweep_outpoint run.sweeps x hx
  simp only [hpoint]

/-- What goes to outputs of the transaction, and what does not. -/
theorem Indexed.outgoing_split {txid : Txid} (run : Indexed deps cfg resolver tx txid height s r s')
    (hlen : tx.output.length < 2 ^ 32) :
    (run.located.outgoing.filter fun e => e.1.outpoint.txid = txid) = run.placedAt ∧
      (isCoinbase tx = true → r.lostOrUnboundInscriptions.map Prod.snd = run.left.map Flotsam.inscriptionId) ∧
      (isCoinbase tx = false → r.lostOrUnboundInscriptions = []) := by
  have hkeep : (run.placedAt.filter fun e => e.1.outpoint.txid = txid) = run.placedAt :=
    List.filter_eq_self.mpr (fun e he => by simp [run.placedAt_txid e he])
  have hdrop : (run.placedAt.filter fun e => e.1.outpoint.txid ≠ txid) = [] :=
    List.filter_eq_nil_iff.mpr (fun e he => by simp [run.placedAt_txid e he])
  rcases run.rest_cases with ⟨hcoin, -, -, -, lost, hout, hids, hnull⟩ | ⟨hcoin, -, -, -, hout, -⟩
  · -- lost inscriptions go to the null outpoint, which is no output of the transaction
    have hlost : ∀ e ∈ lost, e.1.outpoint.txid ≠ txid := by
      intro e he htx
      have hplaces := run.places
      unfold placeOutputs at hplaces
      obtain ⟨hvout, -, -⟩ := placeOutputs_get hplaces
      have hmem : e ∈ run.located.outgoing.filter fun e => e.1.outpoint.txid = txid := by
        rw [hout]
        exact List.mem_filter.mpr ⟨List.mem_append_right _ he, by simp [htx]⟩
      have hlt := hvout e hmem
      rw [hnull e he, List.length_replicate] at hlt
      simp only [OutPoint.null] at hlt
      omega
    have hnone : (lost.filter fun e => e.1.outpoint.txid = txid) = [] :=
      List.filter_eq_nil_iff.mpr (fun e he => by simp [hlost e he])
    have hall : (lost.filter fun e => e.1.outpoint.txid ≠ txid) = lost :=
      List.filter_eq_self.mpr (fun e he => by simp [hlost e he])
    refine ⟨?_, ?_, ?_⟩
    · rw [hout, List.filter_append, hkeep, hnone, List.append_nil]
    · intro _
      rw [run.lost, hout, List.filter_append, hdrop, hall, List.nil_append, hids]
    · intro hfalse
      rw [hcoin] at hfalse
      cases hfalse
  · refine ⟨by rw [hout, hkeep], ?_, fun _ => by rw [run.lost, hout, hdrop]⟩
    intro htrue
    rw [hcoin] at htrue
    cases htrue

/-- The outputs hold the placed inscriptions at their offsets, each within its output. -/
theorem Indexed.outputs_located (run : Indexed deps cfg resolver tx tx.txid height s r s')
    (hrange : outputTotal tx.output < 2 ^ 64) (hlen : tx.output.length < 2 ^ 32) :
    (outputSide 0 tx.output r.outputInscriptions).Perm (run.placed.map fun e => e.2.located) ∧
      WithinOutputs tx.output r.outputInscriptions := by
  have hplaces := run.places
  obtain ⟨hsplit, -, -⟩ := run.outgoing_split hlen
  obtain ⟨-, -, hoffsets⟩ := sweep_offsets (sortFlotsam_sorted _) (fun f _ => Fin.zero_le _)
    (by simpa using hrange) run.sweeps
  constructor
  · rw [outputSide_eq (placeOutputs_length hplaces)]
    refine (placeOutputs_perm hplaces _).trans ?_
    rw [hsplit]
    unfold Indexed.placedAt
    rw [List.map_map]
    refine List.Perm.of_eq (List.map_congr_left (fun e he => ?_))
    obtain ⟨i, output, -, hpoint, -, hval⟩ := hoffsets e he
    simp only [Function.comp, Flotsam.located, hpoint, Prod.mk.injEq, true_and, Nat.zero_add]
    simp only [Fin.val_zero, Nat.zero_add] at hval
    omega
  · intro i output l hget hl e he
    unfold placeOutputs at hplaces
    obtain ⟨-, -, hlists⟩ := placeOutputs_get hplaces
    have hi := hlists i
    rw [hl, hsplit] at hi
    rw [List.getElem?_replicate, if_pos (List.getElem?_eq_some_iff.mp hget).1] at hi
    simp only [Option.map_some, List.nil_append, Option.some.injEq] at hi
    rw [hi] at he
    obtain ⟨x, hx, rfl⟩ := List.mem_map.mp he
    obtain ⟨hx, hvout⟩ := List.mem_filter.mp hx
    obtain ⟨y, hy, rfl⟩ := List.mem_map.mp hx
    obtain ⟨j, output', hget', hpoint, hlt, -⟩ := hoffsets y hy
    simp only [hpoint, decide_eq_true_eq, Nat.zero_add] at hvout
    rw [hvout, hget] at hget'
    cases hget'
    exact hlt

/-! ## The account of a transaction -/

/-- Where the inscriptions of a transaction come from and where they go.  `beyond` is what its
outputs do not take. -/
def Accounted (deps : Deps) (height : Nat) (tx : Transaction) (resolver : Table TxoRef TxoBody)
    (s : InscriptionState) (r : IndexInscriptionsResult) (s' : InscriptionState) : Prop :=
  ∃ (revealed : List NewInscriptionInfo) (beyond : List (InscriptionId × Nat)),
    s'.newInscriptions = s.newInscriptions ++ revealed ∧
    (outputSide 0 tx.output r.outputInscriptions ++ beyond).Perm
      (inputSide deps resolver height 0 tx.input ++ (revealed.map fun info => (info.id, 0)) ++
        if isCoinbase tx then s.cbInscriptions.map Flotsam.located else []) ∧
    WithinOutputs tx.output r.outputInscriptions ∧
    if isCoinbase tx then
      s'.cbInscriptions = [] ∧ r.lostOrUnboundInscriptions.map Prod.snd = beyond.map Prod.fst
    else
      r.lostOrUnboundInscriptions = [] ∧ ∃ carried, s'.cbInscriptions = s.cbInscriptions ++ carried ∧
        carried.map (fun f => (f.inscriptionId, f.offset.val + outputTotal tx.output)) =
          beyond.map fun e => (e.1, s.reward.val + e.2)

theorem Indexed.revealed_records {txid : Txid} (run : Indexed deps cfg resolver tx txid height s r s') :
    ∃ revealed, s'.newInscriptions = s.newInscriptions ++ revealed ∧
      run.revealed.map Flotsam.located = revealed.map fun info => (info.id, 0) := by
  obtain ⟨hrecords, -⟩ := run.records_eq
  have hout := run.outcome
  rw [hrecords]
  generalize run.revealed = revealed at hout
  generalize run.messages = messages at hout
  generalize run.after = after at hout
  cases hout with
  | none => exact ⟨[], by simp, rfl⟩
  | partial_ => exact ⟨[], by simp, rfl⟩
  | complete info => exact ⟨[info], rfl, rfl⟩

/-- The offsets on the input side lie within the inputs. -/
theorem inputSide_lt (hbound : ∀ ref body, resolver.get ref = some body → body.Bound) {total : Nat}
    {inputs : List TxIn} :
    ∀ e ∈ inputSide deps resolver height total inputs,
      e.2 < total + inputValue deps resolver height inputs := by
  induction inputs generalizing total with
  | nil => exact fun e he => (List.not_mem_nil he).elim
  | cons txin inputs ih =>
    intro e he
    unfold inputSide at he
    unfold inputValue at ih ⊢
    rw [List.map_cons, List.sum_cons]
    split at he
    · rename_i hnull
      rw [if_pos hnull]
      have hlt := ih e he
      omega
    · rename_i hnull
      rw [if_neg hnull]
      split at he
      · cases he
      · rename_i body hget
        rw [hget]
        simp only [Option.map_some, Option.getD_some]
        rcases List.mem_append.mp he with he | he
        · obtain ⟨x, hx, rfl⟩ := List.mem_map.mp he
          have hlt := Fin.lt_def.mp (hbound _ body hget x hx)
          simp only
          omega
        · have hlt := ih e he
          omega

/-- **One call accounts for all its inscriptions.** -/
theorem Indexed.accounted (run : Indexed deps cfg resolver tx tx.txid height s r s')
    (hbound : ∀ ref body, resolver.get ref = some body → body.Bound)
    (hinputs : inputValue deps resolver height tx.input < 2 ^ 64)
    (hreward : isCoinbase tx = false → s.reward.val + inputValue deps resolver height tx.input < 2 ^ 64)
    (houtputs : outputTotal tx.output < 2 ^ 64) (hlen : tx.output.length < 2 ^ 32) :
    Accounted deps height tx resolver s r s' := by
  obtain ⟨-, hfloat, -⟩ := run.inputs_eq
  obtain ⟨hplaced, hwithin⟩ := run.outputs_located houtputs hlen
  obtain ⟨revealed, hrecords, hrevealed⟩ := run.revealed_records
  obtain ⟨-, hlost, hnotLost⟩ := run.outgoing_split hlen
  have hzero : (0 : U64).val + inputValue deps resolver height tx.input < 2 ^ 64 := by simpa using hinputs
  have hin : run.inputs.floating.map Flotsam.located = inputSide deps resolver height 0 tx.input := by
    rw [hfloat]
    exact inputFloats_located hbound hzero
  have hperm : (outputSide 0 tx.output r.outputInscriptions ++ run.left.map Flotsam.located).Perm
      (inputSide deps resolver height 0 tx.input ++ (revealed.map fun info => (info.id, 0)) ++
        if isCoinbase tx then s.cbInscriptions.map Flotsam.located else []) := by
    have hall := run.floating_perm.map Flotsam.located
    rw [List.map_append, List.map_append, List.map_append, hin, hrevealed, List.map_map] at hall
    have hcb : (if isCoinbase tx then s.cbInscriptions else []).map Flotsam.located =
        if isCoinbase tx then s.cbInscriptions.map Flotsam.located else [] := by
      split <;> rfl
    rw [hcb] at hall
    exact (hplaced.append_right _).trans hall
  refine ⟨revealed, run.left.map Flotsam.located, hrecords, hperm, hwithin, ?_⟩
  obtain ⟨hout, hbeyond, -⟩ := sweep_offsets (sortFlotsam_sorted _) (fun f _ => Fin.zero_le _)
    (by simpa using houtputs) run.sweeps
  rcases run.rest_cases with ⟨hcoin, hcb, -⟩ | ⟨hcoin, hcb, -, -, -, -⟩
  · rw [if_pos hcoin]
    refine ⟨hcb, ?_⟩
    rw [hlost hcoin, List.map_map]
    rfl
  · rw [if_neg (by simp [hcoin])]
    refine ⟨hnotLost hcoin, run.carried, hcb, ?_⟩
    unfold Indexed.carried
    rw [List.map_map, List.map_map]
    refine List.map_congr_left (fun f hf => ?_)
    -- an inscription beyond the outputs lies within the inputs, and within them all with the reward
    have hge := Fin.le_def.mp (hbeyond f hf)
    have hlt : f.offset.val ≤ inputValue deps resolver height tx.input := by
      have hmem := hperm.mem_iff.mp (List.mem_append_right _ (List.mem_map_of_mem (f := Flotsam.located) hf))
      rw [if_neg (by simp [hcoin]), List.append_nil] at hmem
      rcases List.mem_append.mp hmem with hmem | hmem
      · have := inputSide_lt hbound _ hmem
        simp only [Flotsam.located, Nat.zero_add] at this
        omega
      · obtain ⟨info, -, heq⟩ := List.mem_map.mp hmem
        have := congrArg Prod.snd heq
        simp only [Flotsam.located] at this
        omega
    have hreward := hreward hcoin
    have hsum : (s.reward + f.offset).val = s.reward.val + f.offset.val := by
      rw [Fin.val_add, Nat.mod_eq_of_lt (by omega)]
    have hsub : (s.reward + f.offset - run.outputValue).val =
        s.reward.val + f.offset.val - run.outputValue.val := by
      rw [Fin.coe_sub_iff_le.mpr (Fin.le_def.mpr (by rw [hsum]; omega)), hsum]
    simp only [Function.comp, Flotsam.located, Prod.mk.injEq, true_and]
    simp only [Fin.val_zero, Nat.zero_add] at hout
    rw [hsub]
    omega

theorem inputSide_nil (h : ∀ ref body, resolver.get ref = some body → body.inscriptions = []) {total : Nat}
    {inputs : List TxIn} : inputSide deps resolver height total inputs = [] := by
  induction inputs generalizing total with
  | nil => rfl
  | cons txin inputs ih =>
    unfold inputSide
    split
    · exact ih
    · split
      · rfl
      · rename_i body hget
        rw [h _ body hget, ih]
        rfl

/-- The value of inputs that are all outputs, as the weights of the references. -/
theorem inputValue_eq {live : Table TxoRef TxoBody} (hnull : OutPoint.null ∉ spent tx)
    (hlive : ∀ ref ∈ spent tx, live.get ref = resolver.get ref) :
    inputValue deps resolver height tx.input =
      ((spent tx).map (Table.weightAt (fun _ body => body.raw.value.val) live)).sum := by
  unfold inputValue spent
  rw [List.map_map]
  congr 1
  refine List.map_congr_left (fun txin htxin => ?_)
  have hmem : txin.previousOutput ∈ spent tx := List.mem_map_of_mem htxin
  have hne : txin.previousOutput.isNull = false := by
    unfold OutPoint.isNull
    simp only [decide_eq_false_iff_not]
    intro heq
    exact hnull (heq ▸ hmem)
  simp only [hne, Bool.false_eq_true, if_false, Function.comp]
  unfold Table.weightAt
  rw [hlive _ hmem]
  cases resolver.get txin.previousOutput <;> rfl

theorem Produced.value {placed : List (List (U64 × InscriptionId))}
    {transfers : Table InscriptionId (Ticker × U128)} {bodies : List TxoBody}
    (h : Produced height tx placed transfers bodies) :
    (bodies.map fun body => body.raw.value.val).sum = outputTotal tx.output := by
  unfold outputTotal
  rw [← h.raw, List.map_map]
  rfl

/-- Bodies produced within the outputs keep their offsets below their values. -/
theorem Produced.bound {placed : List (List (U64 × InscriptionId))}
    {transfers : Table InscriptionId (Ticker × U128)} {bodies : List TxoBody}
    (h : Produced height tx placed transfers bodies) (hwithin : WithinOutputs tx.output placed) :
    ∀ body ∈ bodies, body.Bound := by
  intro body hbody e he
  obtain ⟨i, hi⟩ := List.mem_iff_getElem?.mp hbody
  refine hwithin i body.raw body.inscriptions ?_ ?_ e he
  · rw [← h.raw, List.getElem?_map, hi]
    rfl
  · rw [← h.inscriptions, List.getElem?_map, hi]
    rfl

end

/-! ## Blocks -/

/-- The output that a reference from outside is resolved to. -/
def Node.lookup (n : Node) (ref : TxoRef) : Option TxoBody := (n.mem.get ref).or (n.db.tables.txos.get ref)

/-- What the network guarantees of the coins of a block, and an earlier block of the outputs it
spends. -/
structure ValidCoins (deps : Deps) (cfg : Config) (n : Node) (height : Nat) (block : Block) : Prop where
  /-- Offsets lie below values, and there are no inscriptions before the first height. -/
  bodies : ∀ ref ∈ externalRefs block, ∀ body ∈ n.lookup ref,
    body.Bound ∧ (height < cfg.firstInscriptionHeight → body.inscriptions = [])
  /-- The subsidy and the coins the block spends are below `2 ^ 64`. -/
  coins : (deps.subsidy (height % 2 ^ 32)).val +
    ((externalRefs block).map fun ref => ((n.lookup ref).map fun body => body.raw.value.val).getD 0).sum < 2 ^ 64
  /-- No transaction pays more than it takes. -/
  pays : ∀ step ∈ blockSteps deps cfg n height block, isCoinbase step.1 = false →
    outputTotal step.1.output ≤ inputValue deps step.2.resolver height step.1.input
  coinbase : ∀ tx ∈ block.txdata, isCoinbase tx = true → outputTotal tx.output < 2 ^ 64

/-- The inscriptions of one step of a block: what `index_inscriptions` returns accounts for all of
them, and the resolved outputs have them. -/
def StepConserved (deps : Deps) (cfg : Config) (height : Nat) (step : Transaction × BlockState)
    (resolver : Table TxoRef TxoBody) : Prop :=
  (cfg.firstInscriptionHeight ≤ height → ∃ r i,
    indexInscriptions deps cfg step.2.resolver step.1 step.1.txid height step.2.inscriptions = .ok (r, i) ∧
    Accounted deps height step.1 step.2.resolver step.2.inscriptions r i ∧
    ∀ vout l, r.outputInscriptions[vout]? = some l →
      (resolver.get ⟨step.1.txid, vout⟩).map TxoBody.inscriptions = some l) ∧
  (height < cfg.firstInscriptionHeight →
    inputSide deps step.2.resolver height 0 step.1.input = [] ∧
    ∀ vout, vout < step.1.output.length →
      (resolver.get ⟨step.1.txid, vout⟩).map TxoBody.inscriptions = some [])

section

variable {deps : Deps} {cfg : Config} {height : Nat}

theorem StepConserved.insertAll {step : Transaction × BlockState} {resolver : Table TxoRef TxoBody}
    (h : StepConserved deps cfg height step resolver) {txid : Txid} (hne : step.1.txid ≠ txid)
    (bodies : List TxoBody) :
    StepConserved deps cfg height step (resolver.insertAll (numbered txid 0 bodies)) := by
  have hget : ∀ vout, (resolver.insertAll (numbered txid 0 bodies)).get ⟨step.1.txid, vout⟩ =
      resolver.get ⟨step.1.txid, vout⟩ := by
    intro vout
    exact Table.get_insertAll_of_notMem (fun hmem => hne (numbered_keys.mp hmem).1)
  unfold StepConserved
  simp only [hget]
  exact h

theorem get_numbered {txid : Txid} {bodies : List TxoBody} {vout : Nat} {body : TxoBody}
    {resolver : Table TxoRef TxoBody} (h : bodies[vout]? = some body) :
    (resolver.insertAll (numbered txid 0 bodies)).get ⟨txid, vout⟩ = some body :=
  Table.get_insertAll_of_mem (numbered_nodup _ _ _) (mem_numbered.mpr ⟨rfl, vout, by simp, h⟩)

/-- **One step of a block**: its inscriptions are accounted for, and its outputs are within bounds. -/
theorem conserved_step {tx : Transaction} {s : BlockState} {placed : List (List (U64 × InscriptionId))}
    {transfers : Table InscriptionId (Ticker × U128)} {messages : List (InscriptionId × BRC20Message)}
    {i : InscriptionState} {bodies : List TxoBody}
    (hins : InscriptionsStep deps cfg height tx s.resolver s.inscriptions placed transfers messages i)
    (hprod : Produced height tx placed transfers bodies)
    (hbodies : ∀ ref body, s.resolver.get ref = some body →
      body.Bound ∧ (height < cfg.firstInscriptionHeight → body.inscriptions = []))
    (hinputs : inputValue deps s.resolver height tx.input < 2 ^ 64)
    (hreward : isCoinbase tx = false →
      s.inscriptions.reward.val + inputValue deps s.resolver height tx.input < 2 ^ 64)
    (houtputs : outputTotal tx.output < 2 ^ 64) (hlen : tx.output.length < 2 ^ 32) :
    StepConserved deps cfg height (tx, s) (s.resolver.insertAll (numbered tx.txid 0 bodies)) ∧
      ∀ body ∈ bodies, body.Bound ∧ (height < cfg.firstInscriptionHeight → body.inscriptions = []) := by
  cases hins with
  | @indexed r i hheight hindex =>
    obtain ⟨run⟩ := indexInscriptions_ok hindex
    have hacc := run.accounted (fun ref body hget => (hbodies ref body hget).1) hinputs hreward houtputs hlen
    refine ⟨⟨fun _ => ⟨r, i, hindex, hacc, ?_⟩, fun hlow => by omega⟩, ?_⟩
    · intro vout l hl
      rw [← hprod.inscriptions, List.getElem?_map] at hl
      obtain ⟨body, hbody, rfl⟩ := Option.map_eq_some_iff.mp hl
      simp only
      rw [get_numbered hbody]
      rfl
    · obtain ⟨-, -, -, -, hwithin, -⟩ := hacc
      exact fun body hbody => ⟨hprod.bound hwithin body hbody, fun hlow => by omega⟩
  | skipped hheight =>
    have hnone : ∀ body ∈ bodies, body.inscriptions = [] := by
      intro body hbody
      have hmem : body.inscriptions ∈ bodies.map TxoBody.inscriptions := List.mem_map_of_mem hbody
      rw [hprod.inscriptions] at hmem
      obtain ⟨o, -, ho⟩ := List.mem_map.mp hmem
      exact ho.symm
    refine ⟨⟨fun hhigh => by omega, fun _ => ⟨?_, ?_⟩⟩, ?_⟩
    · exact inputSide_nil (fun ref body hget => (hbodies ref body hget).2 hheight)
    · intro vout hvout
      have hlen' : bodies.length = tx.output.length := by rw [← hprod.raw, List.length_map]
      have hget := List.getElem?_eq_getElem (l := bodies) (i := vout) (by rw [hlen']; exact hvout)
      simp only
      rw [get_numbered hget, Option.map_some, hnone _ (List.getElem_mem _)]
    · intro body hbody
      rw [TxoBody.Bound, hnone body hbody]
      exact ⟨fun e he => (List.not_mem_nil he).elim, fun _ => rfl⟩

/-- The reward grows by the fee, when inscriptions are indexed. -/
theorem reward_step {tx : Transaction} {s : BlockState} {placed : List (List (U64 × InscriptionId))}
    {transfers : Table InscriptionId (Ticker × U128)} {messages : List (InscriptionId × BRC20Message)}
    {i : InscriptionState}
    (hins : InscriptionsStep deps cfg height tx s.resolver s.inscriptions placed transfers messages i)
    (hcoin : isCoinbase tx = false)
    (hreward : s.inscriptions.reward.val + inputValue deps s.resolver height tx.input < 2 ^ 64)
    (hpays : outputTotal tx.output ≤ inputValue deps s.resolver height tx.input) :
    i.reward.val = s.inscriptions.reward.val + if cfg.firstInscriptionHeight ≤ height then
      inputValue deps s.resolver height tx.input - outputTotal tx.output else 0 := by
  cases hins with
  | skipped hheight => rw [if_neg (by omega), Nat.add_zero]
  | indexed hheight hindex =>
    rw [if_pos hheight]
    obtain ⟨run⟩ := indexInscriptions_ok hindex
    obtain ⟨htotal, -, -⟩ := run.inputs_eq
    rw [Nat.mod_eq_of_lt (by omega)] at htotal
    obtain ⟨hout, -, -⟩ := sweep_offsets (sortFlotsam_sorted _) (fun f _ => Fin.zero_le _)
      (by simp only [Fin.val_zero, Nat.zero_add]; omega) run.sweeps
    simp only [Fin.val_zero, Nat.zero_add] at hout
    rcases run.rest_cases with ⟨htrue, -⟩ | ⟨-, -, -, -, -, hrew⟩
    · rw [hcoin] at htrue
      cases htrue
    · have hfee : (run.inputs.totalInputValue - run.outputValue).val =
          inputValue deps s.resolver height tx.input - outputTotal tx.output := by
        rw [Fin.coe_sub_iff_le.mpr (Fin.le_def.mpr (by omega)), htotal, hout]
      rw [hrew, Fin.val_add, hfee, Nat.mod_eq_of_lt (by omega)]

/-- The outputs read from outside are live at the start of a valid block. -/
theorem ProcessedBlock.liveResolver {n : Node} {block : Block} {final : BlockState}
    (run : ProcessedBlock deps cfg n.db.tables.txos height block
      (initialState deps n.db.tables height n.memory) final)
    (hvalid : ValidBlock n.db.tables height block) :
    LiveBlock run.coinbase run.txs run.started.resolver run.started := by
  have hresolver := run.started_resolver rfl
  have hdrop : block.txdata.drop 1 = run.txs := by rw [run.txdata]; rfl
  have hunspent := hvalid.unspent
  rw [hdrop] at hunspent
  refine ⟨?_, ?_, ?_, fun ref _ body hget => hget⟩
  · refine hunspent.restrict (fun ref href hspent => Table.mem_keys.mpr ?_)
    obtain ⟨body, hbody⟩ := Table.mem_keys.mp href
    have hexternal : ref ∈ externalRefs block := by
      refine mem_externalRefs.mpr ⟨by rw [hdrop]; exact hspent, ?_⟩
      exact hvalid.unproduced (ref, body) (Table.mem_entries.mpr hbody)
    rw [hresolver, if_pos hexternal, hbody]
    cases (initialState deps n.db.tables height n.memory).mem.get ref with
    | none => exact ⟨body, rfl⟩
    | some b => exact ⟨b, rfl⟩
  · intro tx htx vout
    rw [hresolver, if_neg]
    intro hmem
    refine (mem_externalRefs.mp hmem).2 ?_
    unfold txIds
    rw [run.txdata]
    exact List.mem_map_of_mem htx
  · have htxids := hvalid.txids
    unfold txIds at htxids
    rw [run.txdata] at htxids
    exact htxids

/-- What holds between the transactions of a block: the steps so far are conserved, the resolved
outputs are within bounds, and the reward with the live outputs is in range. -/
def ConservedUpTo (deps : Deps) (cfg : Config) (height : Nat) (live : Table TxoRef TxoBody)
    (done : List (Transaction × BlockState)) (s : BlockState) : Prop :=
  (∀ step ∈ done, StepConserved deps cfg height step s.resolver) ∧
  (∀ ref body, s.resolver.get ref = some body →
    body.Bound ∧ (height < cfg.firstInscriptionHeight → body.inscriptions = [])) ∧
  s.inscriptions.reward.val + Table.total (fun _ body => body.raw.value.val) live < 2 ^ 64

/-- The value of the live outputs after a transaction. -/
theorem afterTx_value {live : Table TxoRef TxoBody} {tx : Transaction} {idx : Nat} {s s₁ : BlockState}
    (ptx : ProcessedTx deps cfg height idx tx s s₁) (hlive : LiveTx live tx s)
    (hnull : OutPoint.null ∉ spent tx) :
    ∃ kept, Table.total (fun _ body => body.raw.value.val) live =
        kept + inputValue deps s.resolver height tx.input ∧
      Table.total (fun _ body => body.raw.value.val) (afterTx live tx ptx.bodies) =
        kept + outputTotal tx.output := by
  have hinputs : ∀ ref ∈ spent tx, live.get ref = s.resolver.get ref := by
    intro ref href
    obtain ⟨body, hlive', hres⟩ := hlive.inputs ref href
    rw [hlive', hres]
  obtain ⟨kept, hbefore, hafter⟩ := hlive.total_afterTx (fun body => body.raw.value.val) ptx.bodies
  rw [ptx.produced.value] at hafter
  have hvalue : inputValue deps s.resolver height tx.input = _ := inputValue_eq hnull hinputs
  rw [← hvalue] at hbefore
  exact ⟨kept, hbefore, hafter⟩

theorem ConservedUpTo.step {live : Table TxoRef TxoBody} {done : List (Transaction × BlockState)}
    {tx : Transaction} {idx : Nat} {s s₁ : BlockState} (h : ConservedUpTo deps cfg height live done s)
    (ptx : ProcessedTx deps cfg height idx tx s s₁) (hlive : LiveTx live tx s)
    (hcoin : isCoinbase tx = false) (hnull : OutPoint.null ∉ spent tx)
    (hpays : outputTotal tx.output ≤ inputValue deps s.resolver height tx.input)
    (hlen : tx.output.length < 2 ^ 32) (hne : ∀ step ∈ done, step.1.txid ≠ tx.txid) :
    ConservedUpTo deps cfg height (afterTx live tx ptx.bodies) (done ++ [(tx, s)]) s₁ := by
  obtain ⟨hdone, hbodies, hreward⟩ := h
  obtain ⟨kept, hbefore, hafter⟩ := afterTx_value ptx hlive hnull
  have hrange : s.inscriptions.reward.val + inputValue deps s.resolver height tx.input < 2 ^ 64 := by
    omega
  obtain ⟨hnow, hbounds⟩ := conserved_step ptx.inscriptions ptx.produced hbodies (by omega)
    (fun _ => hrange) (by omega) hlen
  refine ⟨?_, ?_, ?_⟩
  · rw [ptx.resolver_eq]
    intro step hstep
    rcases List.mem_append.mp hstep with hstep | hstep
    · exact (hdone step hstep).insertAll (hne step hstep) _
    · rw [List.mem_singleton.mp hstep]
      exact hnow
  · intro ref body hget
    rw [ptx.resolver_eq] at hget
    rcases Table.get_insertAll hget with hget | ⟨-, hget⟩
    · obtain ⟨-, i, -, hb⟩ := mem_numbered.mp hget
      exact hbounds body (List.mem_of_getElem? hb)
    · exact hbodies ref body hget
  · have hfee := reward_step ptx.inscriptions hcoin hrange hpays
    rw [ptx.inscriptions_eq, hfee]
    split <;> omega

/-- A valid block starts with nothing to account for, and with all coins in range. -/
theorem ProcessedBlock.conserved_start {n : Node} {block : Block} {final : BlockState}
    (run : ProcessedBlock deps cfg n.db.tables.txos height block
      (initialState deps n.db.tables height n.memory) final)
    (hcoins : ValidCoins deps cfg n height block) :
    ConservedUpTo deps cfg height run.started.resolver [] run.started := by
  have hresolver := run.started_resolver rfl
  refine ⟨fun step hstep => (List.not_mem_nil hstep).elim, ?_, ?_⟩
  · intro ref body hget
    rw [hresolver] at hget
    split at hget
    · rename_i href
      exact hcoins.bodies ref href body hget
    · cases hget
  · have hkeys : ∀ ref body, run.started.resolver.get ref = some body → ref ∈ externalRefs block := by
      intro ref body hget
      rw [hresolver] at hget
      split at hget
      · assumption
      · cases hget
    have hsum : (externalRefs block).map
        (Table.weightAt (fun _ (body : TxoBody) => body.raw.value.val) run.started.resolver) =
        (externalRefs block).map fun ref => ((n.lookup ref).map fun body => body.raw.value.val).getD 0 := by
      refine List.map_congr_left (fun ref href => ?_)
      have hlookup : run.started.resolver.get ref = n.lookup ref := by
        rw [hresolver, if_pos href]
        rfl
      unfold Table.weightAt
      rw [hlookup]
      cases n.lookup ref <;> rfl
    rw [Table.total_of_keys _ (externalRefs_nodup block) hkeys, hsum, run.started_inscriptions.1]
    exact hcoins.coins

/-- **Inscriptions are neither lost nor duplicated, and keep their satoshis**, in every transaction
of every valid block. -/
theorem inscriptions_conserved {n : Node} {block : Block} {final : BlockState}
    (h : resolveAndProcess deps cfg n.db.tables.txos height block
      (initialState deps n.db.tables height n.memory) = .ok ⟨⟩ final)
    (hvalid : ValidBlock n.db.tables height block) (hcoins : ValidCoins deps cfg n height block) :
    (blockSteps deps cfg n height block).map Prod.fst = block.txdata.drop 1 ++ block.txdata.take 1 ∧
      ∀ step ∈ blockSteps deps cfg n height block, StepConserved deps cfg height step final.resolver := by
  obtain ⟨run, hsteps⟩ := resolveAndProcess_ok h
  obtain ⟨hcoin, hothers⟩ := hvalid.coinbase.isCoinbase run.txdata
  obtain ⟨hcbSpent, hnull⟩ := hvalid.coinbase.not_null run.txdata
  have hfst : run.steps.map Prod.fst = run.txs := by
    rw [run.processes.map_fst, List.zipIdx_map_fst]
  have htxids : (run.steps.map fun step => step.1.txid).Nodup ∧
      ∀ step ∈ run.steps, step.1.txid ≠ run.coinbase.txid := by
    have hn := hvalid.txids
    unfold txIds at hn
    rw [run.txdata, List.map_cons, List.nodup_cons, ← hfst, List.map_map] at hn
    exact ⟨hn.2, fun step hstep heq => hn.1 (List.mem_map.mpr ⟨step, hstep, heq⟩)⟩
  have hstep : ∀ live done tx idx s s₁ (ptx : ProcessedTx deps cfg height idx tx s s₁),
      (tx, idx) ∈ run.txs.zipIdx 1 → (done ++ [(tx, s)]) <+: run.steps → LiveTx live tx s →
      ResolvedTx final.resolver tx s ptx.bodies →
      ConservedUpTo deps cfg height live done s →
      ConservedUpTo deps cfg height (afterTx live tx ptx.bodies) (done ++ [(tx, s)]) s₁ := by
    intro live done tx idx s s₁ ptx hidx hpre hlive _ hup
    have htx : tx ∈ run.txs := List.fst_mem_of_mem_zipIdx hidx
    have hmem : (tx, s) ∈ blockSteps deps cfg n height block := by
      rw [hsteps]
      exact List.mem_append_left _ (hpre.subset (by simp))
    refine hup.step ptx hlive (hothers tx htx) (hnull tx htx) (hcoins.pays (tx, s) hmem (hothers tx htx))
      (hvalid.outputs tx (by rw [run.txdata]; exact List.mem_cons_of_mem _ htx)) ?_
    have hsub := List.Nodup.sublist (hpre.sublist.map fun step => step.1.txid) htxids.1
    rw [List.map_append, List.nodup_append] at hsub
    exact fun step hstep => hsub.2.2 _ (List.mem_map_of_mem hstep) _ (by simp)
  obtain ⟨live, ⟨hdone, hbodies, -⟩, -⟩ := run.live_induct (run.liveResolver hvalid)
    (run.conserved_start hcoins) hstep
  -- the coinbase is the last step
  have hcbInputs : inputValue deps run.closed.resolver height run.coinbase.input < 2 ^ 64 := by
    obtain ⟨txin, hinput, hprev⟩ := List.map_eq_singleton_iff.mp hcbSpent
    unfold inputValue
    rw [hinput]
    simp only [List.map_cons, List.map_nil, List.sum_cons, List.sum_nil, Nat.add_zero, hprev]
    rw [if_pos (by simp [OutPoint.isNull])]
    exact Fin.isLt _
  have hcbMem : run.coinbase ∈ block.txdata := by rw [run.txdata]; exact List.mem_cons_self
  obtain ⟨hlast, -⟩ := conserved_step run.inscriptions run.produced hbodies hcbInputs
    (fun hfalse => by rw [hcoin] at hfalse; cases hfalse) (hcoins.coinbase _ hcbMem hcoin)
    (hvalid.outputs _ hcbMem)
  rw [run.resolver_eq, hsteps, List.map_append, hfst, run.txdata]
  refine ⟨rfl, fun step hmem => ?_⟩
  rcases List.mem_append.mp hmem with hmem | hmem
  · exact (hdone step hmem).insertAll (htxids.2 step hmem) _
  · rw [List.mem_singleton.mp hmem]
    exact hlast

end

/-- Transaction 12 reveals an inscription on the second of its outputs, the first being of value 0. -/
def revealedOnSecond : List Call := [
  callOf 0 1 0 [coinbaseTx 10 [2500000000, 2500000000]],
  callOf 1 2 1 [coinbaseTx 11 [5000000000],
    spendTx 12 ⟨10, 0⟩ [3, 111, 114, 100, 81, 1, 97, 0, 1, 98] [0, 1000, 2499999000]]]

/-- The node after these blocks. -/
def revealedNode : Node := (performed emptyScripts fromFirstBlock (Node.open_ true) revealedOnSecond).2

/-- A block in which it is moved to the middle of an output, and then paid to the fee. -/
def movedAndPaid : Block := ⟨3, 2, [coinbaseTx 13 [5000001000],
  ⟨14, [⟨⟨12, 2⟩, []⟩, ⟨⟨12, 1⟩, []⟩], [⟨2499999500, []⟩, ⟨500, []⟩]⟩,
  ⟨15, [⟨⟨14, 1⟩, []⟩, ⟨⟨14, 0⟩, []⟩], [⟨2499999000, []⟩]⟩]⟩

/-- The inscription is conserved where it moves and where it is paid as a fee. -/
theorem inscriptions_conserved_moved_and_paid :
    ∃ final : BlockState,
      resolveAndProcess emptyScripts fromFirstBlock revealedNode.db.tables.txos 2 movedAndPaid
        (initialState emptyScripts revealedNode.db.tables 2 revealedNode.memory) = .ok ⟨⟩ final ∧
      ∀ step ∈ blockSteps emptyScripts fromFirstBlock revealedNode 2 movedAndPaid,
        StepConserved emptyScripts fromFirstBlock 2 step final.resolver := by
  have hok : Effect.completed (resolveAndProcess emptyScripts fromFirstBlock revealedNode.db.tables.txos 2 movedAndPaid
      (initialState emptyScripts revealedNode.db.tables 2 revealedNode.memory)) = true := by decide +kernel
  obtain ⟨⟨⟩, final, hfinal⟩ := Effect.exists_of_completed hok
  exact ⟨final, hfinal, (inscriptions_conserved hfinal (by decide +kernel)
    ⟨by decide +kernel, by decide +kernel, by decide +kernel, by decide +kernel⟩).2⟩

end DogeIndexer.Compressor
