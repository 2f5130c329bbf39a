import DogeIndexer.Compressor.Pull
import Mathlib.Order.WellFounded
import Mathlib.Tactic.Ring

/-!
# The locator

The points of the database that the pull stage sends to its peer (`ChainDB::intersect_options`), for a database that
holds every height up to its tip: how far below the tip each of them is, and so how far a fork can make the peer
overshoot.

* `mem_intersectIndexes` — the heights of the locator are those at fixed distances below the tip.
* `locator_tight` — below a fork of any depth there is a point at most twice as deep.
* `intersectLoop_eq` — on 64-bit heights the loop ends, and its step never overflows.
-/

set_option autoImplicit false

namespace DogeIndexer.Compressor

/-! ## The loop on machine integers -/

/-- The step after an entry: it is doubled from the tenth on. -/
def intersectStep (checks : Bool) (indexes : Nat) (step : U64) : Option U64 :=
  if indexes ≥ 10 then Machine.mul checks step 2 else some step

/-- The loop of `ChainDB::intersect_options` on `u64` heights; `none` when it is not over after `fuel` rounds, or when
the step overflows. -/
def intersectLoop (checks : Bool) : Nat → List U64 → U64 → U64 → Option (List U64)
  | 0, _, _, _ => none
  | fuel + 1, indexes, step, index => do
    let indexes := indexes ++ [index]
    let step ← intersectStep checks indexes.length step
    let index := Machine.saturatingSub index step
    if index = 0 then some indexes else intersectLoop checks fuel indexes step index

/-! ## Distances below the tip -/

/-- How far below the tip the entry with `n` entries before it is: one by one for ten entries, then in steps that
double. -/
def distance (n : Nat) : Nat := if n ≤ 9 then n else 7 + 2 ^ (n - 8)

/-- The step with which the loop leaves an entry that has `n` entries before it, before it is doubled. -/
def stepAt (n : Nat) : Nat := if n ≤ 9 then 1 else 2 ^ (n - 9)

theorem stepAt_succ (n : Nat) : (if n + 1 ≥ 10 then stepAt n * 2 else stepAt n) = stepAt (n + 1) := by
  unfold stepAt
  rcases Nat.lt_trichotomy n 9 with h | rfl | h
  · rw [if_neg (by omega), if_pos (by omega), if_pos (by omega)]
  · rfl
  · rw [if_pos (by omega), if_neg (by omega), if_neg (by omega), show n + 1 - 9 = (n - 9) + 1 by omega, Nat.pow_succ]

theorem distance_succ (n : Nat) : distance (n + 1) = distance n + stepAt (n + 1) := by
  unfold distance stepAt
  rcases Nat.lt_trichotomy n 9 with h | rfl | h
  · rw [if_pos (by omega), if_pos (by omega), if_pos (by omega)]
  · rfl
  · obtain ⟨k, rfl⟩ : ∃ k, n = k + 10 := ⟨n - 10, by omega⟩
    rw [if_neg (by omega), if_neg (by omega), if_neg (by omega), show k + 10 + 1 - 8 = (k + 2) + 1 by omega,
      show k + 10 - 8 = k + 2 by omega, show k + 10 + 1 - 9 = k + 2 by omega, Nat.pow_succ]
    ring

theorem stepAt_pos (n : Nat) : 1 ≤ stepAt n := by
  unfold stepAt
  split
  · exact le_refl 1
  · exact Nat.one_le_two_pow

theorem distance_lt_succ (n : Nat) : distance n < distance (n + 1) := by
  rw [distance_succ]
  exact Nat.lt_add_of_pos_right (stepAt_pos (n + 1))

theorem distance_strictMono : StrictMono distance := strictMono_nat_of_lt_succ distance_lt_succ

/-- Each distance is at most twice the one before it and two. -/
theorem distance_succ_le (n : Nat) : distance (n + 1) ≤ 2 * (distance n + 1) := by
  unfold distance
  by_cases h : n ≤ 9
  · rcases Nat.lt_or_eq_of_le h with h' | rfl
    · rw [if_pos (by omega), if_pos h]
      omega
    · decide
  · rw [if_neg (by omega), if_neg h, show n + 1 - 8 = (n - 8) + 1 by omega, Nat.pow_succ]
    omega

/-- **Some distance is at least any depth and at most twice it.** -/
theorem exists_distance (d : Nat) : ∃ n, d ≤ distance n ∧ distance n ≤ 2 * d := by
  have hex : ∃ n, d ≤ distance n := ⟨d, distance_strictMono.le_apply⟩
  have hfirst : d ≤ distance (Nat.find hex) := Nat.find_spec hex
  refine ⟨Nat.find hex, hfirst, ?_⟩
  cases hn : Nat.find hex with
  | zero => simp [distance]
  | succ n =>
    -- the entry before the first that is deep enough is not
    have hbefore : ¬ d ≤ distance n := Nat.find_min hex (by omega)
    have hle := distance_succ_le n
    omega

/-! ## The heights of the locator -/

/-- **The heights that the loop lists**, from an entry on, are those at the distances below the tip. -/
theorem mem_intersectIndexes {fuel n index tip x : Nat} (hindex : 1 ≤ index) (hfuel : index ≤ fuel)
    (htip : index + distance n = tip) :
    x ∈ intersectIndexes fuel n (stepAt n) index ↔ ∃ m, n ≤ m ∧ distance m < tip ∧ x + distance m = tip := by
  induction fuel generalizing n index with
  | zero => omega
  | succ fuel ih =>
    have hnext := distance_succ n
    unfold intersectIndexes
    dsimp only
    rw [stepAt_succ, List.mem_cons]
    by_cases hlast : index - stepAt (n + 1) = 0
    · rw [if_pos hlast]
      constructor
      · rintro (rfl | hx)
        · exact ⟨n, le_refl n, by omega, htip⟩
        · exact (List.not_mem_nil hx).elim
      · rintro ⟨m, hm, hlt, hx⟩
        rcases Nat.lt_or_eq_of_le hm with hm | rfl
        · have hle := distance_strictMono.monotone hm
          rw [Nat.succ_eq_add_one] at hle
          omega
        · exact .inl (by omega)
    · rw [if_neg hlast, ih (by omega) (by have := stepAt_pos (n + 1); omega) (by omega)]
      constructor
      · rintro (rfl | ⟨m, hm, hlt, hx⟩)
        · exact ⟨n, le_refl n, by omega, htip⟩
        · exact ⟨m, by omega, hlt, hx⟩
      · rintro ⟨m, hm, hlt, hx⟩
        rcases Nat.lt_or_eq_of_le hm with hm | rfl
        · exact .inr ⟨m, hm, hlt, hx⟩
        · exact .inl (by omega)

/-- More rounds than heights change nothing. -/
theorem intersectIndexes_fuel {fuel fuel' n step index : Nat} (hstep : 1 ≤ step) (hindex : 1 ≤ index)
    (hfuel : index ≤ fuel) (hfuel' : index ≤ fuel') :
    intersectIndexes fuel n step index = intersectIndexes fuel' n step index := by
  induction fuel generalizing fuel' n step index with
  | zero => omega
  | succ fuel ih =>
    obtain ⟨fuel', rfl⟩ : ∃ k, fuel' = k + 1 := ⟨fuel' - 1, by omega⟩
    unfold intersectIndexes
    dsimp only
    generalize hnext : (if n + 1 ≥ 10 then step * 2 else step) = next
    have hpos : 1 ≤ next := by
      subst hnext
      split <;> omega
    split
    · rfl
    · have hrest : intersectIndexes fuel (n + 1) next (index - next) = intersectIndexes fuel' (n + 1) next (index - next) :=
        ih hpos (by omega) (by omega) (by omega)
      rw [hrest]

/-- The step is doubled within 64 bits, as long as there is an entry that far below the tip. -/
theorem double_step (checks : Bool) {n : Nat} {step : U64} (hstep : step.val = stepAt n) (hn : distance n < 2 ^ 64) :
    ∃ next, intersectStep checks (n + 1) step = some next ∧ next.val = stepAt (n + 1) := by
  unfold intersectStep
  rw [← stepAt_succ n]
  by_cases h : n + 1 ≥ 10
  · have hroom : step.val * (2 : U64).val < 2 ^ 64 := by
      show step.val * 2 < 2 ^ 64
      rw [hstep]
      unfold stepAt
      unfold distance at hn
      split at hn
      · rw [if_pos (by assumption)]
        omega
      · rw [if_neg (by assumption), ← Nat.pow_succ, show (n - 9).succ = n - 8 by omega]
        omega
    rw [if_pos h, if_pos h, Machine.mul_of_lt checks hroom]
    exact ⟨_, rfl, by rw [← hstep]; rfl⟩
  · rw [if_neg h, if_neg h]
    exact ⟨step, rfl, hstep⟩

/-- **The loop on machine integers** ends within as many rounds as the tip is high, without an overflow, and lists the
same heights. -/
theorem intersectLoop_eq (checks : Bool) {fuel : Nat} {indexes : List U64} {step index : U64} (hindex : 1 ≤ index.val)
    (hfuel : index.val ≤ fuel) (hstep : step.val = stepAt indexes.length)
    (htip : index.val + distance indexes.length < 2 ^ 64) :
    ∃ l, intersectLoop checks fuel indexes step index = some l ∧
      l.map Fin.val = indexes.map Fin.val ++ intersectIndexes fuel indexes.length (stepAt indexes.length) index.val := by
  induction fuel generalizing indexes step index with
  | zero => omega
  | succ fuel ih =>
    have hnext := distance_succ indexes.length
    have hpos := stepAt_pos (indexes.length + 1)
    have hlen : (indexes ++ [index]).length = indexes.length + 1 := by simp
    obtain ⟨next, hdouble, hval⟩ := double_step checks hstep (by omega)
    unfold intersectLoop intersectIndexes
    dsimp only
    rw [hlen, hdouble, stepAt_succ, ← hval]
    have hleft : (Machine.saturatingSub index next).val = index.val - next.val := rfl
    have hzero : Machine.saturatingSub index next = 0 ↔ index.val - next.val = 0 := by
      rw [← hleft, Fin.ext_iff]
      rfl
    show ∃ l, (if Machine.saturatingSub index next = 0 then some (indexes ++ [index])
      else intersectLoop checks fuel (indexes ++ [index]) next (Machine.saturatingSub index next)) = some l ∧ _
    by_cases hlast : index.val - next.val = 0
    · rw [if_pos (hzero.mpr hlast), if_pos hlast]
      exact ⟨_, rfl, by simp⟩
    · rw [if_neg (mt hzero.mp hlast), if_neg hlast]
      have hrest := @ih (indexes ++ [index]) next (Machine.saturatingSub index next) (by omega) (by omega)
        (by rw [hlen, hval]) (by rw [hlen]; omega)
      obtain ⟨l, hl, hmap⟩ := hrest
      refine ⟨l, hl, ?_⟩
      rw [hmap, hlen, hleft, hval]
      simp

/-! ## The locator of a whole chain -/

section

variable {genesisHash : BlockHash} {blocks : Table Nat (BlockHash × Block)} {tip : Nat}

/-- With every height up to a tip stored, the last entry is the tip. -/
theorem lastEntry_of_heights (h : blocks.entries.map Prod.fst = List.range' 1 tip) (htip : 1 ≤ tip) :
    ∃ v, blocks.lastEntry = some (tip, v) := by
  obtain ⟨e, he⟩ : ∃ e, blocks.entries.getLast? = some e := by
    refine Option.isSome_iff_exists.mp (List.getLast?_isSome.mpr fun hnil => ?_)
    rw [hnil] at h
    have := congrArg List.length h
    rw [List.length_range'] at this
    exact absurd this (by simp; omega)
  have hlast := congrArg List.getLast? h
  rw [List.getLast?_map, he, Option.map_some, List.getLast?_range', if_neg (by omega)] at hlast
  refine ⟨e.2, ?_⟩
  unfold Table.lastEntry
  rw [he, show (tip, e.2) = e from Prod.ext (by have := Option.some.inj hlast; simp at this ⊢; omega) rfl]

/-- **The points of a whole chain**: the heights at the distances below the tip, newest first, and the genesis
block. -/
theorem intersectOptions_points (h : blocks.entries.map Prod.fst = List.range' 1 tip) (htip : 1 ≤ tip) :
    ∃ stored, intersectOptions genesisHash blocks = some (stored ++ [(0, genesisHash)]) ∧
      stored.map Prod.fst = intersectIndexes (tip + 1) 0 1 tip ∧
      ∀ p ∈ stored, (blocks.get p.1).map Prod.fst = some p.2 := by
  obtain ⟨v, hlast⟩ := lastEntry_of_heights h htip
  have hlen : (points blocks).length = tip := by
    have := congrArg List.length h
    simpa [points] using this
  have hsome : (intersectOptions genesisHash blocks).isSome = true :=
    intersectOptions_isSome genesisHash (by rw [hlen, ← h]; simp [points, Function.comp_def])
  unfold intersectOptions at hsome ⊢
  rw [hlast] at hsome ⊢
  dsimp only at hsome ⊢
  rw [Option.isSome_map] at hsome
  obtain ⟨stored, hstored⟩ := Option.isSome_iff_exists.mp hsome
  exact ⟨stored, by rw [hstored, Option.map_some], stored_points hstored⟩

/-- **The locator of a chain database that holds the heights up to its tip** starts at the tip, goes down strictly and
ends with the genesis block, with the stored hash at every other height.  Whatever the depth of a fork, one of its
points is at least that deep and at most twice.  The loop over 64-bit heights that makes it ends without an
overflow. -/
theorem locator_tight (checks : Bool) (genesisHash : BlockHash) (blocks : Table Nat (BlockHash × Block)) (tip : U64)
    (h : blocks.entries.map Prod.fst = List.range' 1 tip.val) :
    ∃ out, intersectOptions genesisHash blocks = some out ∧
      (out.head?.map Prod.fst = some tip.val ∧ out.getLast? = some (0, genesisHash) ∧
        out.Pairwise fun p q => p.1 > q.1) ∧
      (∀ p ∈ out, p ≠ (0, genesisHash) → (blocks.get p.1).map Prod.fst = some p.2) ∧
      (∀ d, 1 ≤ d → d ≤ tip.val → ∃ p ∈ out, p.1 + d ≤ tip.val ∧ tip.val ≤ p.1 + 2 * d) ∧
      (1 ≤ tip.val → ∀ fuel, tip.val < fuel → ∃ indexes, intersectLoop checks fuel [] 1 tip = some indexes ∧
        out.map Prod.fst = indexes.map Fin.val ++ [0]) := by
  by_cases htip : 1 ≤ tip.val
  · obtain ⟨stored, hout, hheights, hhashes⟩ := @intersectOptions_points genesisHash _ _ h htip
    have hstart : tip.val + distance 0 = tip.val := rfl
    have hmem : ∀ x, x ∈ stored.map Prod.fst ↔ ∃ m, 0 ≤ m ∧ distance m < tip.val ∧ x + distance m = tip.val := by
      intro x
      rw [hheights]
      exact mem_intersectIndexes htip (Nat.le_succ _) hstart
    obtain ⟨hdown, hrange⟩ := @intersectIndexes_lower (tip.val + 1) 0 1 tip.val (le_refl 1) htip
    rw [← hheights] at hdown hrange
    refine ⟨stored ++ [(0, genesisHash)], hout, ⟨?_, by simp, ?_⟩, fun p hp hne => ?_, fun d hd hle => ?_,
      fun _ fuel hfuel => ?_⟩
    · obtain ⟨rest, hrest⟩ := intersectIndexes_head tip.val 0 1 tip.val
      rw [hrest] at hheights
      cases stored with
      | nil => cases hheights
      | cons first stored => exact congrArg some (List.cons.inj hheights).1
    · refine List.pairwise_append.mpr ⟨List.pairwise_map.mp hdown, List.pairwise_singleton _ _, fun p hp q hq => ?_⟩
      rw [List.mem_singleton.mp hq]
      exact (hrange p.1 (List.mem_map_of_mem hp)).1
    · rcases List.mem_append.mp hp with hp | hp
      · exact hhashes p hp
      · exact absurd (List.mem_singleton.mp hp) hne
    · obtain ⟨n, hdeep, htwice⟩ := exists_distance d
      by_cases hn : distance n < tip.val
      · obtain ⟨p, hp, hheight⟩ := List.mem_map.mp ((hmem (tip.val - distance n)).mpr ⟨n, Nat.zero_le n, hn, by omega⟩)
        exact ⟨p, List.mem_append_left _ hp, by omega, by omega⟩
      · exact ⟨(0, genesisHash), List.mem_append_right _ (List.mem_singleton.mpr rfl), by simpa using hle, by simp; omega⟩
    · obtain ⟨l, hl, hmap⟩ := @intersectLoop_eq checks fuel [] 1 tip htip (Nat.le_of_lt hfuel) rfl tip.isLt
      refine ⟨l, hl, ?_⟩
      rw [List.map_append, hheights, hmap, List.map_nil, List.nil_append,
        intersectIndexes_fuel (stepAt_pos _) htip (Nat.le_of_lt hfuel) (Nat.le_succ _)]
      rfl
  · -- an empty database: the locator is the genesis block
    have hzero : tip.val = 0 := by omega
    have hempty : blocks.lastEntry = none := by
      rw [hzero] at h
      unfold Table.lastEntry
      rw [List.map_eq_nil_iff.mp h]
      rfl
    refine ⟨[(0, genesisHash)], intersectOptions_of_empty genesisHash hempty, ⟨by simp [hzero], rfl,
      List.pairwise_singleton _ _⟩, fun p hp hne => absurd (List.mem_singleton.mp hp) hne, fun d hd hle => ?_,
      fun hpos => absurd hpos htip⟩
    omega

/-- Twelve blocks from height one on. -/
def twelveBlocks : Table Nat (BlockHash × Block) :=
  Table.empty.insertAll ((List.range' 1 12).map fun x =>
    (x, (Fin.ofNat _ x, ⟨Fin.ofNat _ x, Fin.ofNat _ (x - 1), []⟩)))

/-- The locator of twelve blocks has a point between four and eight blocks below the tip. -/
theorem locator_tight_twelve :
    twelveBlocks.entries.map Prod.fst = List.range' 1 12 ∧
      ∃ out, intersectOptions 0 twelveBlocks = some out ∧ ∃ p ∈ out, p.1 + 4 ≤ 12 ∧ 12 ≤ p.1 + 8 := by
  have hheights : twelveBlocks.entries.map Prod.fst = List.range' 1 12 := by decide
  obtain ⟨out, hout, -, -, htight, -⟩ := locator_tight true 0 twelveBlocks 12 hheights
  exact ⟨hheights, out, hout, htight 4 (by decide) (by decide)⟩

end

end DogeIndexer.Compressor
