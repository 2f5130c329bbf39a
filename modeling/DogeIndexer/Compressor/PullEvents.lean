import DogeIndexer.Compressor.Pull
import DogeIndexer.Compressor.Reports
import Mathlib.Data.List.Chain

/-!
# The events of the pull stage

What a call of `schedule` sends, against the chain that the events sent before result in.  The headers of the last
page are always on this chain; a point from the database, from the configuration or the genesis block may have
been left by a rollback that the database has not seen yet, and then the events of the call do not fit.

* `rollForwards_resulting` — the blocks of a page extend the chain that ends where they follow.
* `Ready.rollbacks_iff` — the rollbacks of a call lead to the point that the headers follow exactly if the points it
  goes by are on the chain.
* `Ready.schedule` — exactly then the events of the call fit, and the worker is ready for the next.
-/

set_option autoImplicit false

namespace DogeIndexer.Compressor

/-! ## Chains of contiguous heights -/

/-- The heights count from one. -/
def Contiguous (chain : List Point) : Prop := chain.map Prod.fst = List.range' 1 chain.length

section

variable {genesisHash : BlockHash} {chain chain' : List Point}

theorem Contiguous.nil : Contiguous [] := rfl

theorem Contiguous.height_pos (h : Contiguous chain) {p : Point} (hp : p ∈ chain) : 1 ≤ p.1 := by
  have hmem : p.1 ∈ chain.map Prod.fst := List.mem_map_of_mem hp
  rw [h, List.mem_range'_1] at hmem
  exact hmem.1

theorem Contiguous.ascending (h : Contiguous chain) : chain.Pairwise fun p q => p.1 < q.1 := by
  have hpairs : (chain.map Prod.fst).Pairwise (· < ·) := by
    rw [h]
    exact List.pairwise_lt_range'
  exact List.pairwise_map.mp hpairs

theorem contiguous_snoc_iff {p : Point} : Contiguous (chain ++ [p]) ↔ Contiguous chain ∧ p.1 = chain.length + 1 := by
  unfold Contiguous
  rw [List.map_append, List.length_append, List.length_singleton, List.range'_concat, List.map_singleton]
  constructor
  · intro h
    obtain ⟨hchain, hp⟩ := List.append_inj h (by simp)
    refine ⟨hchain, ?_⟩
    have := (List.cons.inj hp).1
    omega
  · rintro ⟨hchain, hp⟩
    rw [hchain, hp, Nat.one_mul, Nat.add_comm 1]

theorem Contiguous.left (h : Contiguous (chain ++ chain')) : Contiguous chain := by
  induction chain' using List.reverseRecOn with
  | nil => simpa using h
  | append_singleton chain' p ih =>
    rw [← List.append_assoc] at h
    exact ih (contiguous_snoc_iff.mp h).1

theorem Contiguous.chainTip_height (h : Contiguous chain) (genesisHash : BlockHash) :
    (chainTip genesisHash chain).1 = chain.length := by
  induction chain using List.reverseRecOn with
  | nil => rfl
  | append_singleton chain p _ =>
    unfold chainTip
    rw [List.getLast?_concat, List.length_append]
    exact (contiguous_snoc_iff.mp h).2

theorem chainTip_of_last {p : Point} (h : chain.getLast? = some p) : chainTip genesisHash chain = p := by
  unfold chainTip
  rw [h]
  rfl

theorem chainTip_snoc (p : Point) : chainTip genesisHash (chain ++ [p]) = p := by
  unfold chainTip
  rw [List.getLast?_concat]
  rfl

/-- A rollback cuts the chain behind its point. -/
theorem Contiguous.cut (h : Contiguous chain) {p : Point} (hp : p ∈ chain) :
    ∃ front removed, chain = front ++ [p] ++ removed ∧ (chain.filter fun q => q.1 ≤ p.1) = front ++ [p] := by
  obtain ⟨front, removed, rfl⟩ := List.append_of_mem hp
  refine ⟨front, removed, by simp, ?_⟩
  have hpairs := List.pairwise_append.mp h.ascending
  rw [List.filter_append, List.filter_cons_of_pos (by simp), List.filter_eq_self.mpr, List.filter_eq_nil_iff.mpr]
  · intro q hq
    have := (List.pairwise_cons.mp hpairs.2.1).1 q hq
    simp only [decide_eq_true_eq]
    omega
  · intro q hq
    have := hpairs.2.2 q hq p List.mem_cons_self
    simp only [decide_eq_true_eq]
    omega

theorem after_rollBack {height : Nat} {hash : BlockHash} {tip : Point} :
    (PullEvent.rollBack height hash tip).after genesisHash chain =
      if (height, hash) ∈ chain then some (chain.filter fun p => p.1 ≤ height) else none := rfl

/-- The heights stay contiguous. -/
theorem Contiguous.after (h : Contiguous chain) {unit : PullEvent}
    (hafter : unit.after genesisHash chain = some chain') : Contiguous chain' := by
  cases unit with
  | rollForward height hash block tip =>
    simp only [PullEvent.after] at hafter
    split at hafter
    · rename_i hfits
      cases hafter
      refine contiguous_snoc_iff.mpr ⟨h, ?_⟩
      rw [← h.chainTip_height genesisHash]
      exact (Prod.mk.inj hfits.2).1
    · cases hafter
  | rollBack height hash tip =>
    rw [after_rollBack] at hafter
    split at hafter
    · rename_i hp
      cases hafter
      obtain ⟨front, removed, hsplit, hcut⟩ := h.cut hp
      rw [hcut]
      rw [hsplit] at h
      exact h.left
    · cases hafter

theorem resulting_append {events events' : List PullEvent} :
    resulting genesisHash chain (events ++ events') =
      (resulting genesisHash chain events).bind fun chain => resulting genesisHash chain events' :=
  List.foldlM_append

theorem resulting_cons {unit : PullEvent} {events : List PullEvent} :
    resulting genesisHash chain (unit :: events) =
      (unit.after genesisHash chain).bind fun chain => resulting genesisHash chain events :=
  List.foldlM_cons

theorem Contiguous.resulting (h : Contiguous chain) {events : List PullEvent}
    (hresult : Compressor.resulting genesisHash chain events = some chain') : Contiguous chain' := by
  induction events generalizing chain with
  | nil =>
    cases hresult
    exact h
  | cons unit events ih =>
    rw [resulting_cons] at hresult
    obtain ⟨next, hnext, hresult⟩ := Option.bind_eq_some_iff.mp hresult
    exact ih (h.after hnext) hresult

end

/-! ## The events of a page -/

/-- The points of headers that follow height `k`. -/
def headerPoints (k : Nat) (headers : List Header) : List Point :=
  (headers.zipIdx (k + 1)).map fun x => (x.2, x.1.hash)

theorem headerPoints_cons (k : Nat) (first : Header) (headers : List Header) :
    headerPoints k (first :: headers) = (k + 1, first.hash) :: headerPoints (k + 1) headers := rfl

theorem headerPoints_lower {k : Nat} {headers : List Header} :
    (headerPoints k headers).Pairwise (fun p q => p.1 < q.1) ∧ ∀ p ∈ headerPoints k headers, k < p.1 := by
  induction headers generalizing k with
  | nil => exact ⟨List.Pairwise.nil, fun p hp => (List.not_mem_nil hp).elim⟩
  | cons first headers ih =>
    rw [headerPoints_cons]
    obtain ⟨hpairs, hlower⟩ := @ih (k + 1)
    refine ⟨List.pairwise_cons.mpr ⟨hlower, hpairs⟩, fun p hp => ?_⟩
    rcases List.mem_cons.mp hp with rfl | hp
    · exact Nat.lt_succ_self k
    · exact lt_trans (Nat.lt_succ_self k) (hlower p hp)

/-- The recent headers of a page, newest first. -/
theorem recent_eq {headers : List Header} {blocks : List Block} (h : blocks.map Block.header = headers) (k : Nat) :
    recent ((headers.zip blocks).zipIdx (k + 1)) = (headerPoints k headers).reverse.take 50 := by
  have hmap : ((headers.zip blocks).zipIdx (k + 1)).map (fun x => ((x.2, x.1.1.hash) : Point)) =
      headerPoints k headers := by
    induction blocks generalizing headers k with
    | nil =>
      subst h
      rfl
    | cons block blocks ih =>
      subst h
      rw [List.map_cons, List.zip_cons_cons, List.zipIdx_cons, List.map_cons, ih rfl]
      rfl
  unfold recent
  rw [List.map_take, List.map_reverse, hmap]

section

variable {genesisHash : BlockHash} {chain : List Point}

/-- **The blocks of a page** extend a chain that ends where they follow, and fit no other. -/
theorem rollForwards_resulting {headers : List Header} {blocks : List Block}
    (hblocks : blocks.map Block.header = headers)
    (hlinked : headers.IsChain fun a b => b.prevBlockhash = a.hash) (k : Nat) (tip : Point) :
    ∃ tip' events, rollForwards tip ((headers.zip blocks).zipIdx (k + 1)) = (tip', some events) ∧
      (∀ chain, (∀ first, headers.head? = some first → chainTip genesisHash chain = (k, first.prevBlockhash)) →
        resulting genesisHash chain events = some (chain ++ headerPoints k headers)) ∧
      ∀ chain first, headers.head? = some first → chainTip genesisHash chain ≠ (k, first.prevBlockhash) →
        resulting genesisHash chain events = none := by
  induction headers generalizing blocks k tip with
  | nil =>
    refine ⟨tip, [], rfl, fun chain _ => ?_, fun chain first hfirst => by cases hfirst⟩
    rw [headerPoints, List.zipIdx_nil, List.map_nil, List.append_nil]
    rfl
  | cons first headers ih =>
    cases blocks with
    | nil => cases hblocks
    | cons block blocks =>
      obtain ⟨rfl, hrest⟩ := List.cons.inj hblocks
      rw [List.isChain_cons] at hlinked
      obtain ⟨tip', events, hrolls, hextends, -⟩ := ih hrest hlinked.2 (k + 1)
        (if k + 1 > tip.1 then (k + 1, block.hash) else tip)
      have hafter : ∀ chain, (PullEvent.rollForward (k + 1) block.hash block
          (if k + 1 > tip.1 then (k + 1, block.hash) else tip)).after genesisHash chain =
            if chainTip genesisHash chain = (k, block.prevBlockhash) then some (chain ++ [(k + 1, block.hash)])
            else none := by
        intro chain
        have hiff : (block.hash = block.hash ∧ (k + 1, block.prevBlockhash) =
            ((chainTip genesisHash chain).1 + 1, (chainTip genesisHash chain).2)) ↔
              chainTip genesisHash chain = (k, block.prevBlockhash) := by
          simp only [Prod.ext_iff, true_and, Nat.add_right_cancel_iff]
          exact ⟨fun h => ⟨h.1.symm, h.2.symm⟩, fun h => ⟨h.1.symm, h.2.symm⟩⟩
        exact if_congr hiff rfl rfl
      refine ⟨tip', .rollForward (k + 1) block.hash block (if k + 1 > tip.1 then (k + 1, block.hash) else tip) :: events,
        ?_, fun chain hfits => ?_, fun chain next hnext hunfit => ?_⟩
      · rw [List.zip_cons_cons, List.zipIdx_cons]
        unfold rollForwards
        simp only [Block.header, ne_eq, not_true_eq_false, if_false, hrolls, Option.map_some]
      · have hfits : chainTip genesisHash chain = (k, block.prevBlockhash) := hfits _ rfl
        rw [resulting_cons, hafter, if_pos hfits, Option.bind_some, hextends, headerPoints_cons,
          List.append_assoc]
        · rfl
        · -- the next header follows this block
          intro next hnext
          rw [chainTip_snoc, hlinked.1 next hnext]
          rfl
      · cases hnext
        have hunfit : chainTip genesisHash chain ≠ (k, block.prevBlockhash) := hunfit
        rw [resulting_cons, hafter, if_neg hunfit, Option.bind_none]

/-- A rollback to a point of the chain makes it the tip, and keeps what is below. -/
theorem Contiguous.rolledBack (h : Contiguous chain) (genesisHash : BlockHash) {p : Point} (hp : p ∈ chain)
    (tip : Point) :
    ∃ chain', (PullEvent.rollBack p.1 p.2 tip).after genesisHash chain = some chain' ∧
      chain'.getLast? = some p ∧ (∀ q, q ∈ chain' ↔ q ∈ chain ∧ q.1 ≤ p.1) := by
  obtain ⟨front, removed, -, hcut⟩ := h.cut hp
  refine ⟨chain.filter fun q => q.1 ≤ p.1, ?_, ?_, fun q => by simp⟩
  · rw [after_rollBack, if_pos hp]
  · rw [hcut, List.getLast?_concat]

theorem rollBack_unfit {p tip : Point} (hp : p ∉ chain) :
    (PullEvent.rollBack p.1 p.2 tip).after genesisHash chain = none := by
  rw [after_rollBack, if_neg hp]

end

/-! ## One call -/

/-- What the worker's locator is made of: after a start of the genesis block or the stored points, and of the page
and lower points afterwards, with the tip of the chain first. -/
inductive Ready (genesisHash : BlockHash) (chain page : List Point) : PullWorker → Prop
  | empty (rest : List Point) (tip : Point) (hpage : page = []) :
      Ready genesisHash chain page ⟨(0, genesisHash) :: rest, tip, false⟩
  | stored (first : Point) (rest : List Point) (tip : Point) (hpos : 1 ≤ first.1)
      (hlower : ∀ p ∈ rest, p.1 < first.1) (hpage : page = []) :
      Ready genesisHash chain page ⟨first :: rest, tip, false⟩
  | running (first : Point) (rest : List Point) (tip : Point) (hlast : chain.getLast? = some first)
      (hlower : ∀ p ∈ rest, p.1 < first.1) (hpage : ∀ p ∈ page, p ∈ chain) :
      Ready genesisHash chain page ⟨first :: rest, tip, true⟩

/-- **The points that a call goes by are on the chain**: after a start the last stored point, and the point that
the headers follow, unless it is one of the last page.  The genesis block counts while the chain is empty. -/
structure Current (stage : PullStage) (chain page : List Point) (w : PullWorker) (answer : Answer) : Prop where
  started : w.init = false → ∀ p, w.cursor.head? = some p → p.1 ≠ 0 → p ∈ chain
  followed : ∀ first height, (answer.page stage).head? = some first → w.heightOf first.prevBlockhash = some height →
    (height, first.prevBlockhash) ∈ page ∨ (height, first.prevBlockhash) ∈ chain ∨
      (height, first.prevBlockhash) = (0, stage.genesisHash) ∧ chain = []

section

variable {genesisHash : BlockHash} {chain page : List Point} {w : PullWorker}

theorem resulting_singleton (unit : PullEvent) : resulting genesisHash chain [unit] = unit.after genesisHash chain := by
  rw [resulting_cons]
  exact Option.bind_fun_some _

/-- The rollback to the point that the headers follow, from a chain whose tip is the first point of the locator. -/
theorem behind_iff (hchain : Contiguous chain) {first : Point} {rest : List Point} (hcursor : w.cursor = first :: rest)
    (hlower : ∀ p ∈ rest, p.1 < first.1) (hlast : chain.getLast? = some first) {k : Nat} {parent : BlockHash}
    (hmem : (k, parent) ∈ w.cursor) :
    (∃ chain', resulting genesisHash chain (w.behind k parent) = some chain' ∧
        chainTip genesisHash chain' = (k, parent)) ↔ (k, parent) ∈ chain := by
  have htip : chainTip genesisHash chain = first := chainTip_of_last hlast
  have hbehind : w.behind k parent = if k ≠ first.1 then [.rollBack k parent w.tip] else [] := by
    unfold PullWorker.behind
    rw [hcursor]
    rfl
  rw [hbehind]
  by_cases hk : k = first.1
  · -- only the first point is at this height
    have hfirst : (k, parent) = first := by
      rcases List.mem_cons.mp (hcursor ▸ hmem) with heq | hrest
      · exact heq
      · exact absurd hk (Nat.ne_of_lt (hlower _ hrest))
    rw [if_neg (not_not.mpr hk), hfirst]
    exact iff_of_true ⟨chain, rfl, htip⟩ (List.mem_of_getLast? hlast)
  · rw [if_pos hk, resulting_singleton]
    constructor
    · rintro ⟨chain', hresult, -⟩
      by_contra hp
      rw [rollBack_unfit (p := (k, parent)) hp] at hresult
      cases hresult
    · intro hp
      obtain ⟨chain', hafter, hlast', -⟩ := hchain.rolledBack genesisHash hp w.tip
      exact ⟨chain', hafter, chainTip_of_last hlast'⟩

/-- **The rollbacks of a call** lead to the point that the headers follow exactly if the points are on the chain. -/
theorem Ready.rollbacks_iff (h : Ready genesisHash chain page w) (hchain : Contiguous chain) {k : Nat}
    {parent : BlockHash} (hmem : (k, parent) ∈ w.cursor) :
    (∃ chain', resulting genesisHash chain (w.starting ++ w.behind k parent) = some chain' ∧
        chainTip genesisHash chain' = (k, parent)) ↔
      (w.init = false → ∀ p, w.cursor.head? = some p → p.1 ≠ 0 → p ∈ chain) ∧
        ((k, parent) ∈ page ∨ (k, parent) ∈ chain ∨ (k, parent) = (0, genesisHash) ∧ chain = []) := by
  cases h with
  | empty rest tip hpage =>
    subst hpage
    have hstarting : PullWorker.starting ⟨(0, genesisHash) :: rest, tip, false⟩ = [] := rfl
    have hstarted : (PullWorker.init ⟨(0, genesisHash) :: rest, tip, false⟩ = false → ∀ p,
        (PullWorker.cursor ⟨(0, genesisHash) :: rest, tip, false⟩).head? = some p → p.1 ≠ 0 → p ∈ chain) := by
      rintro - p hp hne
      cases hp
      exact absurd rfl hne
    rw [hstarting, List.nil_append, and_iff_right hstarted]
    by_cases hk : k = 0
    · subst hk
      constructor
      · rintro ⟨chain', hresult, htip⟩
        cases hresult
        have hlength := hchain.chainTip_height genesisHash
        rw [htip] at hlength
        obtain rfl : chain = [] := List.length_eq_zero_iff.mp hlength.symm
        exact .inr (.inr ⟨htip.symm, rfl⟩)
      · rintro (hp | hp | ⟨hgenesis, rfl⟩)
        · exact (List.not_mem_nil hp).elim
        · exact absurd (hchain.height_pos hp) (by simp)
        · exact ⟨[], rfl, hgenesis.symm⟩
    · have hbehind : PullWorker.behind ⟨(0, genesisHash) :: rest, tip, false⟩ k parent = [.rollBack k parent tip] :=
        if_pos hk
      rw [hbehind, resulting_singleton]
      constructor
      · rintro ⟨chain', hresult, -⟩
        refine .inr (.inl ?_)
        by_contra hp
        rw [rollBack_unfit (p := (k, parent)) hp] at hresult
        cases hresult
      · rintro (hp | hp | ⟨hgenesis, -⟩)
        · exact (List.not_mem_nil hp).elim
        · obtain ⟨chain', hafter, hlast, -⟩ := hchain.rolledBack genesisHash hp tip
          exact ⟨chain', hafter, chainTip_of_last hlast⟩
        · exact absurd (Prod.mk.inj hgenesis).1 hk
  | stored first rest tip hpos hlower hpage =>
    subst hpage
    have hne : first.1 ≠ 0 := Nat.ne_of_gt hpos
    have hstarting : PullWorker.starting ⟨first :: rest, tip, false⟩ = [.rollBack first.1 first.2 tip] := if_pos hne
    rw [hstarting, List.singleton_append, resulting_cons]
    by_cases hp : first ∈ chain
    · obtain ⟨chain₁, hafter, hlast, hmem₁⟩ := hchain.rolledBack genesisHash hp tip
      have hle : k ≤ first.1 := by
        rcases List.mem_cons.mp hmem with heq | hrest
        · exact le_of_eq (congrArg Prod.fst heq)
        · exact Nat.le_of_lt (hlower _ hrest)
      rw [hafter, Option.bind_some, behind_iff (hchain.after hafter) rfl hlower hlast hmem, hmem₁]
      constructor
      · rintro ⟨hk, -⟩
        refine ⟨fun _ q hq _ => ?_, .inr (.inl hk)⟩
        cases hq
        exact hp
      · rintro ⟨-, hk | hk | ⟨-, rfl⟩⟩
        · exact (List.not_mem_nil hk).elim
        · exact ⟨hk, hle⟩
        · exact (List.not_mem_nil hp).elim
    · rw [rollBack_unfit hp]
      refine iff_of_false ?_ fun hcurrent => hp (hcurrent.1 rfl first rfl hne)
      rintro ⟨chain', hresult, -⟩
      cases hresult
  | running first rest tip hlast hlower hpage =>
    have hstarting : PullWorker.starting ⟨first :: rest, tip, true⟩ = [] := rfl
    rw [hstarting, List.nil_append, behind_iff hchain rfl hlower hlast hmem]
    constructor
    · intro hk
      refine ⟨fun hinit => ?_, .inr (.inl hk)⟩
      cases hinit
    · rintro ⟨-, hk | hk | ⟨-, rfl⟩⟩
      · exact hpage _ hk
      · exact hk
      · cases hlast

end

section

variable {stage : PullStage} {blocks : Table Nat (BlockHash × Block)} {chain page : List Point} {w : PullWorker}
  {answer : Answer}

theorem heightOf_mem {hash : BlockHash} {height : Nat} (h : w.heightOf hash = some height) :
    (height, hash) ∈ w.cursor := by
  obtain ⟨p, hp, rfl⟩ := Option.map_eq_some_iff.mp h
  have hmem := List.mem_reverse.mp (List.mem_of_find?_eq_some hp)
  have hhash : p.2 = hash := by simpa using List.find?_some hp
  rw [← hhash]
  exact hmem

theorem heightOf_isSome {p : Point} (h : p ∈ w.cursor) : ∃ height, w.heightOf p.2 = some height := by
  have hfound : (w.cursor.reverse.find? fun q => q.2 = p.2).isSome = true := by
    rw [List.find?_isSome]
    exact ⟨p, List.mem_reverse.mpr h, by simp⟩
  obtain ⟨q, hq⟩ := Option.isSome_iff_exists.mp hfound
  exact ⟨q.1, by unfold PullWorker.heightOf; rw [hq]; rfl⟩

/-- **The events of a call** that is answered in order, and the worker after it. -/
theorem schedule_eq (hanswer : Answers stage w answer)
    (hoptions : (intersectOptions stage.genesisHash blocks).isSome = true) :
    ∃ first k tip events cursor, (answer.page stage).head? = some first ∧
      w.heightOf first.prevBlockhash = some k ∧
      rollForwards w.tip (((answer.page stage).zip answer.blocks).zipIdx (k + 1)) = (tip, some events) ∧
      extendCursor stage blocks ((headerPoints k (answer.page stage)).reverse.take 50) = some cursor ∧
      w.schedule stage blocks answer = .ok (w.starting ++ w.behind k first.prevBlockhash ++ events)
        ⟨cursor ++ [(0, stage.genesisHash)], tip, true⟩ := by
  obtain ⟨first, rest, hpage, p, hp, hparent⟩ := hanswer.follows
  obtain ⟨k, hk⟩ := heightOf_isSome hp
  rw [hparent] at hk
  have hhead : (answer.page stage).head? = some first := by rw [hpage]; rfl
  obtain ⟨tip, events, hrolls, -⟩ :=
    @rollForwards_resulting stage.genesisHash _ _ hanswer.blocks hanswer.linked k w.tip
  obtain ⟨options, hoptions⟩ := Option.isSome_iff_exists.mp hoptions
  have hextended : ∃ cursor, extendCursor stage blocks ((headerPoints k (answer.page stage)).reverse.take 50) =
      some cursor := by
    unfold extendCursor
    rw [hoptions]
    split
    · exact ⟨_, rfl⟩
    · exact ⟨_, rfl⟩
  obtain ⟨cursor, hcursor⟩ := hextended
  have hinit : (w.init || w.cursor.head?.isSome) = true := by
    rw [List.isSome_head?.mpr (List.ne_nil_of_mem hp), Bool.or_true]
  have hlength : (answer.page stage).length = answer.blocks.length := by
    rw [← hanswer.blocks, List.length_map]
  refine ⟨first, k, tip, events, cursor, hhead, hk, hrolls, hcursor, ?_⟩
  unfold PullWorker.schedule
  have hk' : PullWorker.heightOf ⟨w.cursor, w.tip, true⟩ first.prevBlockhash = some k := hk
  simp only [hlength, ne_eq, not_true_eq_false, if_false, hhead, hk', recent_eq hanswer.blocks, hcursor, hrolls, hinit]
  rfl

/-- A cursor that starts with the highest point still does when it is extended. -/
theorem extendCursor_lower {first : Point} {others cursor : List Point} (hlower : ∀ p ∈ others, p.1 < first.1)
    (h : extendCursor stage blocks (first :: others) = some cursor) :
    ∃ more, cursor = first :: others ++ more ∧ ∀ p ∈ more, p.1 < first.1 := by
  unfold extendCursor at h
  split at h
  · obtain ⟨options, -, rfl⟩ := Option.map_eq_some_iff.mp h
    obtain ⟨last, hlast⟩ := Option.isSome_iff_exists.mp (List.getLast?_isSome.mpr (List.cons_ne_nil first others))
    rw [hlast]
    refine ⟨_, rfl, fun p hp => ?_⟩
    have hbelow : p.1 < last.1 := by simpa using (List.mem_filter.mp hp).2
    rcases List.mem_cons.mp (List.mem_of_getLast? hlast) with heq | hmem
    · exact heq ▸ hbelow
    · exact lt_trans hbelow (hlower last hmem)
  · cases h
    exact ⟨[], by simp, fun p hp => (List.not_mem_nil hp).elim⟩

/-- The locator after a call: the recent headers of the page, and lower points. -/
theorem next_cursor {headers : List Header} {k : Nat} {cursor : List Point} (hne : headers ≠ [])
    (h : extendCursor stage blocks ((headerPoints k headers).reverse.take 50) = some cursor) :
    ∃ first rest, cursor ++ [(0, stage.genesisHash)] = first :: rest ∧
      (headerPoints k headers).getLast? = some first ∧ (∀ p ∈ rest, p.1 < first.1) ∧
      ∀ p ∈ (cursor ++ [(0, stage.genesisHash)]).take (min 50 headers.length), p ∈ headerPoints k headers := by
  have hpoints : headerPoints k headers ≠ [] := by
    obtain ⟨first, rest, rfl⟩ := List.exists_cons_of_ne_nil hne
    rw [headerPoints_cons]
    exact List.cons_ne_nil _ _
  obtain ⟨front, first, hsplit⟩ := List.eq_nil_or_concat' (headerPoints k headers) |>.resolve_left hpoints
  obtain ⟨hpairs, hlow⟩ := @headerPoints_lower k headers
  have hlength : (headerPoints k headers).length = headers.length := by simp [headerPoints]
  rw [hsplit] at h hpairs hlow hlength ⊢
  have htake : ((front ++ [first]).reverse.take 50) = first :: front.reverse.take 49 := by
    rw [List.reverse_append, List.reverse_singleton, List.singleton_append]
    rfl
  have hothers : ∀ p ∈ front.reverse.take 49, p.1 < first.1 := fun p hp =>
    (List.pairwise_append.mp hpairs).2.2 p (List.mem_reverse.mp (List.mem_of_mem_take hp)) first List.mem_cons_self
  have hpos : 1 ≤ first.1 := Nat.lt_of_le_of_lt (Nat.zero_le k) (hlow first (by simp))
  rw [htake] at h
  obtain ⟨more, rfl, hmore⟩ := extendCursor_lower hothers h
  refine ⟨first, front.reverse.take 49 ++ more ++ [(0, stage.genesisHash)], by simp, List.getLast?_concat, ?_, ?_⟩
  · intro p hp
    rcases List.mem_append.mp hp with hp | hp
    · rcases List.mem_append.mp hp with hp | hp
      · exact hothers p hp
      · exact hmore p hp
    · rw [List.mem_singleton.mp hp]
      exact hpos
  · intro p hp
    have hcount : (first :: front.reverse.take 49).length = min 50 headers.length := by
      rw [← htake, List.length_take, List.length_reverse, hlength]
    rw [← hcount, List.append_assoc, List.take_left] at hp
    rw [← htake] at hp
    exact List.mem_reverse.mp (List.mem_of_mem_take hp)

/-- **One call of `schedule`**: its events fit the chain exactly if the points it goes by are on it, and then the
worker is ready for the next. -/
theorem Ready.schedule (hready : Ready stage.genesisHash chain page w) (hchain : Contiguous chain)
    (hanswer : Answers stage w answer) (hoptions : (intersectOptions stage.genesisHash blocks).isSome = true) :
    ∃ units w', w.schedule stage blocks answer = .ok units w' ∧
      ((∃ chain', resulting stage.genesisHash chain units = some chain') ↔ Current stage chain page w answer) ∧
      ∀ chain', resulting stage.genesisHash chain units = some chain' →
        Ready stage.genesisHash chain' (w'.cursor.take (min 50 (answer.page stage).length)) w' := by
  obtain ⟨first, k, tip, events, cursor, hhead, hk, hrolls, hcursor, hrun⟩ := schedule_eq hanswer hoptions
  obtain ⟨tip', events', hrolls', hfits, hunfit⟩ :=
    @rollForwards_resulting stage.genesisHash _ _ hanswer.blocks hanswer.linked k w.tip
  obtain ⟨rfl, rfl⟩ : tip = tip' ∧ events = events' := by
    rw [hrolls] at hrolls'
    exact ⟨(Prod.mk.inj hrolls').1, Option.some.inj (Prod.mk.inj hrolls').2⟩
  have hrollbacks := hready.rollbacks_iff hchain (heightOf_mem hk)
  -- the blocks fit the chain that the rollbacks leave exactly if it ends at the parent
  have hresult : ∀ chain', resulting stage.genesisHash chain
      (w.starting ++ w.behind k first.prevBlockhash ++ events) = some chain' ↔
        ∃ chain₁, (resulting stage.genesisHash chain (w.starting ++ w.behind k first.prevBlockhash) = some chain₁ ∧
          chainTip stage.genesisHash chain₁ = (k, first.prevBlockhash)) ∧
          chain' = chain₁ ++ headerPoints k (answer.page stage) := by
    intro chain'
    rw [resulting_append, Option.bind_eq_some_iff]
    constructor
    · rintro ⟨chain₁, hchain₁, hevents⟩
      by_cases htip : chainTip stage.genesisHash chain₁ = (k, first.prevBlockhash)
      · rw [hfits chain₁ (fun next hnext => by cases hhead.symm.trans hnext; exact htip)] at hevents
        exact ⟨chain₁, ⟨hchain₁, htip⟩, (Option.some.inj hevents).symm⟩
      · rw [hunfit chain₁ first hhead htip] at hevents
        cases hevents
    · rintro ⟨chain₁, ⟨hchain₁, htip⟩, rfl⟩
      exact ⟨chain₁, hchain₁, hfits chain₁ (fun next hnext => by cases hhead.symm.trans hnext; exact htip)⟩
  refine ⟨_, _, hrun, ?_, ?_⟩
  · have hcurrent : Current stage chain page w answer ↔
        (w.init = false → ∀ p, w.cursor.head? = some p → p.1 ≠ 0 → p ∈ chain) ∧
          ((k, first.prevBlockhash) ∈ page ∨ (k, first.prevBlockhash) ∈ chain ∨
            (k, first.prevBlockhash) = (0, stage.genesisHash) ∧ chain = []) := by
      constructor
      · rintro ⟨hstarted, hfollowed⟩
        exact ⟨hstarted, hfollowed first k hhead hk⟩
      · rintro ⟨hstarted, hfollowed⟩
        refine ⟨hstarted, fun next height hnext hheight => ?_⟩
        cases hhead.symm.trans hnext
        cases hk.symm.trans hheight
        exact hfollowed
    rw [hcurrent, ← hrollbacks]
    constructor
    · rintro ⟨chain', h⟩
      obtain ⟨chain₁, h₁, -⟩ := (hresult chain').mp h
      exact ⟨chain₁, h₁⟩
    · rintro ⟨chain₁, h₁⟩
      exact ⟨_, (hresult _).mpr ⟨chain₁, h₁, rfl⟩⟩
  · intro chain' h
    obtain ⟨chain₁, -, rfl⟩ := (hresult chain').mp h
    have hne : answer.page stage ≠ [] := by
      intro hnil
      rw [hnil] at hhead
      cases hhead
    obtain ⟨newest, rest, hcons, hlast, hlower, hrecent⟩ := next_cursor hne hcursor
    simp only [hcons] at hrecent ⊢
    refine .running newest rest tip ?_ hlower fun p hp => List.mem_append_right _ (hrecent p hp)
    rw [List.getLast?_append, hlast]
    rfl

end

end DogeIndexer.Compressor
