import DogeIndexer.Polyphony.Views
import Mathlib.Algebra.Ring.Int.Defs

/-!
# Counters that are netted in batches

A batch adds to a counter what its actions add up to.  Between two of its actions the counter need
not be in range: the deltas of a batch are merged before they are executed, so that only what a
block leaves has to be.

* `net`, `gross` — what actions add up to, and what they add and take together.
* `Steady` — the counter is in range after every block, and its deltas are small in between.
* `Steady.executed` — in any batching such a counter ends at its sum, and no decrement exceeds what
  is stored.
* `ExecutedFit` — no action that batches execute exceeds what is stored.
-/

set_option autoImplicit false

namespace DogeIndexer.Polyphony

open StorageAction (Family Decodes)

/-! ## What is executed -/

/-- Every action that the batches execute on the chosen keys stays in range of the value that is stored. -/
def ExecutedFit (checks : Bool) (on : Key → Prop) : Store → List (HashOrder × List (List StorageAction)) → Prop
  | _, [] => True
  | store, batch :: batches =>
    ∃ b flushed r, batch.2.foldlM (SyncBatcher.pushActions checks) (SyncBatcher.new 0 0) = some b ∧
      applyActions checks store (b.getBatchActions batch.1) false = some (flushed, r) ∧
      (∀ a ∈ b.getBatchActions batch.1, on a.key → a.Fits (store.get a.key)) ∧ ExecutedFit checks on flushed batches

/-- At one key: what each batch is merged to stays in range. -/
def FitsAt (checks : Bool) : List (List StorageAction) → Option Value → Prop
  | [], _ => True
  | l :: batches, o =>
    (∀ m, Keyed.at_ (mergeEffect checks) l none = some (some m) → m.Fits o) ∧
      ∀ p, batchAt checks l o = some p → FitsAt checks batches p

theorem executedFit_of_at {checks : Bool} {on : Key → Prop} {store store' : Store}
    {batches : List (HashOrder × List (List StorageAction))}
    (hcommit : executeBatches checks store batches = some store')
    (h : ∀ k, on k → FitsAt checks (atKey batches k) (store.get k)) : ExecutedFit checks on store batches := by
  induction batches generalizing store with
  | nil => exact trivial
  | cons batch batches ih =>
    obtain ⟨b, flushed, r, hb, happly, hrest⟩ := executeBatches_cons.mp hcommit
    refine ⟨b, flushed, r, hb, happly, fun a ha hon => ?_, ih hrest fun k hon => ?_⟩
    · obtain ⟨hw, hmerged⟩ := merged_at hb
      obtain ⟨k, hk⟩ := mem_values.mp ha
      obtain rfl := hw k a hk
      refine (h a.key hon).1 a ?_
      rw [hmerged a.key, hk]
    · exact (h k hon).2 _ (batchAt_of_flush hb happly k)

/-! ## Merged deltas -/

/-- What actions add up to. -/
def net (l : List StorageAction) : Int := (l.map StorageAction.delta).sum

@[simp] theorem net_nil : net [] = 0 := rfl

@[simp] theorem net_cons (a : StorageAction) (l : List StorageAction) : net (a :: l) = a.delta + net l := by
  simp [net]

@[simp] theorem net_append (l₁ l₂ : List StorageAction) : net (l₁ ++ l₂) = net l₁ + net l₂ := by
  simp [net]

/-- What actions add and take, together. -/
def gross (l : List StorageAction) : Nat := (l.map fun a => a.delta.natAbs).sum

@[simp] theorem gross_cons (a : StorageAction) (l : List StorageAction) : gross (a :: l) = a.delta.natAbs + gross l := by
  simp [gross]

@[simp] theorem gross_append (l₁ l₂ : List StorageAction) : gross (l₁ ++ l₂) = gross l₁ + gross l₂ := by
  simp [gross]

theorem natAbs_net_le (l : List StorageAction) : (net l).natAbs ≤ gross l := by
  induction l with
  | nil => exact Nat.le_refl _
  | cons a l ih =>
    rw [net_cons, gross_cons]
    exact (Int.natAbs_add_le _ _).trans (Nat.add_le_add_left ih _)

/-- A part of actions adds no more than they do together. -/
theorem natAbs_net_part {l l₁ l₂ : List StorageAction} (h : l = l₁ ++ l₂) : (net l₁).natAbs ≤ gross l := by
  rw [h, gross_append]
  exact (natAbs_net_le l₁).trans (Nat.le_add_right _ _)

/-- What the merged action adds. -/
def heldDelta (held : Option StorageAction) : Int := (held.map StorageAction.delta).getD 0

section

variable (checks : Bool) {f : Family} {k : Key} {l : List StorageAction} {o : Option Value}

/-- **Merged actions add up**, while no part of them leaves the range of the counter. -/
theorem exists_merged (hf : f ≠ .writes) (hl : ∀ a ∈ l, a.inFamily f = true ∧ a.key = k)
    {held : Option StorageAction} (hheld : ∀ m, held = some m → m.inFamily f = true ∧ m.key = k)
    (hrange : ∀ l₁ l₂, l = l₁ ++ l₂ →
      -(256 ^ f.width : Int) < heldDelta held + net l₁ ∧ heldDelta held + net l₁ < 256 ^ f.width) :
    ∃ held', Keyed.at_ (mergeEffect checks) l held = some held' ∧ heldDelta held' = heldDelta held + net l ∧
      ∀ m, held' = some m → m.inFamily f = true ∧ m.key = k := by
  induction l generalizing held with
  | nil => exact ⟨held, rfl, (Int.add_zero _).symm, hheld⟩
  | cons a l ih =>
    obtain ⟨hfam, hkey⟩ := hl a List.mem_cons_self
    obtain ⟨hlo, hhi⟩ := hrange [a] l rfl
    rw [net_cons, net_nil, Int.add_zero] at hlo hhi
    have hpush : ∃ c, mergeEffect checks a held = some (some c) ∧ c.delta = heldDelta held + a.delta ∧
        c.inFamily f = true ∧ c.key = k := by
      cases held with
      | none => exact ⟨a, rfl, (Int.zero_add _).symm, hfam, hkey⟩
      | some m =>
        obtain ⟨hmfam, hmkey⟩ := hheld m rfl
        obtain ⟨c, hc, hcfam, hdelta⟩ := StorageAction.merge_counter checks hf hmfam hfam (hmkey.trans hkey.symm) hlo hhi
        exact ⟨c, by rw [mergeEffect, hc]; rfl, hdelta, hcfam, (StorageAction.merge_key hc).trans hmkey⟩
    obtain ⟨c, hc, hdelta, hcfam, hckey⟩ := hpush
    rw [Keyed.at_cons, hc, Option.bind_some]
    have hsum : heldDelta (some c) = heldDelta held + a.delta := hdelta
    have hheld' : ∀ m, some c = some m → m.inFamily f = true ∧ m.key = k := by
      intro m hm
      cases hm
      exact ⟨hcfam, hckey⟩
    obtain ⟨held', hrun, hnet, hheld'⟩ := ih (fun b hb => hl b (List.mem_cons_of_mem _ hb)) hheld' fun l₁ l₂ heq => by
      have := hrange (a :: l₁) l₂ (by rw [heq]; rfl)
      rw [net_cons, ← Int.add_assoc] at this
      rw [hsum]
      exact this
    exact ⟨held', hrun, by rw [hnet, hsum, net_cons, Int.add_assoc], hheld'⟩

/-- **A batch adds what its actions add up to**, and does not leave the range. -/
theorem exists_batchAt (hf : f ≠ .writes) (hl : ∀ a ∈ l, a.inFamily f = true ∧ a.key = k)
    (hdecodes : Decodes f.width o)
    (hrange : ∀ l₁ l₂, l = l₁ ++ l₂ → -(256 ^ f.width : Int) < net l₁ ∧ net l₁ < 256 ^ f.width)
    (hlo : 0 ≤ (counterValue f.width o : Int) + net l) (hhi : (counterValue f.width o : Int) + net l < 256 ^ f.width) :
    ∃ p, batchAt checks l o = some p ∧ (counterValue f.width p : Int) = counterValue f.width o + net l ∧
      Decodes f.width p ∧ ∀ m, Keyed.at_ (mergeEffect checks) l none = some (some m) → m.Fits o := by
  have hnone : ∀ m : StorageAction, none = some m → m.inFamily f = true ∧ m.key = k := fun m hm => by cases hm
  obtain ⟨held, hmerged, hnet, hheld⟩ := exists_merged checks hf hl hnone
    fun l₁ l₂ heq => by
      have hstart : heldDelta none = 0 := rfl
      rw [hstart, Int.zero_add]
      exact hrange l₁ l₂ heq
  have hnet : heldDelta held = net l := hnet.trans (Int.zero_add _)
  unfold batchAt
  rw [hmerged]
  cases held with
  | none =>
    have hzero : net l = 0 := hnet.symm
    refine ⟨o, rfl, by omega, hdecodes, fun m hm => by cases hm⟩
  | some m =>
    have hdelta : m.delta = net l := hnet
    obtain ⟨hfam, -⟩ := hheld m rfl
    have hfits : m.Fits o := by
      rw [StorageAction.fits_iff hf hfam, hdelta]
      exact ⟨hlo, hhi⟩
    obtain ⟨p, heffect, hvalue, hzero, hread⟩ := StorageAction.effect_counter checks hf hfam (fun _ => hdecodes) hfits
    refine ⟨p, heffect, by rw [hvalue, hdelta], ?_, fun m' hm' => ?_⟩
    · cases hz : m.isZeroDelta with
      | true =>
        rw [hzero hz]
        exact hdecodes
      | false => exact hread hz
    · cases hm'
      exact hfits

end

/-! ## Steady counters -/

/-- A counter that starts at `v` is in range after every list, and in between moves within `bound`. -/
structure Steady (bound v : Int) (lists : List (List StorageAction)) : Prop where
  between : ∀ l₁ l₂, lists.flatten = l₁ ++ l₂ → -bound < v + net l₁ ∧ v + net l₁ < bound
  after : ∀ ls₁ ls₂, lists = ls₁ ++ ls₂ → 0 ≤ v + net ls₁.flatten

namespace Steady

variable {bound v : Int} {l : List StorageAction} {lists : List (List StorageAction)}

theorem nil (hlo : 0 ≤ v) (hhi : v < bound) : Steady bound v [] := by
  refine ⟨fun l₁ l₂ heq => ?_, fun ls₁ ls₂ heq => ?_⟩
  · obtain ⟨rfl, -⟩ := List.append_eq_nil_iff.mp heq.symm
    rw [net_nil]
    omega
  · obtain ⟨rfl, -⟩ := List.append_eq_nil_iff.mp heq.symm
    exact hlo.trans (Int.le_of_eq (Int.add_zero _).symm)

/-- A block before blocks that are steady. -/
theorem cons (hstart : 0 ≤ v) (hl : ∀ l₁ l₂, l = l₁ ++ l₂ → -bound < v + net l₁ ∧ v + net l₁ < bound)
    (h : Steady bound (v + net l) lists) : Steady bound v (l :: lists) := by
  refine ⟨fun l₁ l₂ heq => ?_, fun ls₁ ls₂ heq => ?_⟩
  · rw [List.flatten_cons] at heq
    rcases List.append_eq_append_iff.mp heq with ⟨m, rfl, hrest⟩ | ⟨m, hleft, -⟩
    · have := h.between m l₂ hrest
      rwa [net_append, ← Int.add_assoc]
    · exact hl l₁ m hleft
  · cases ls₁ with
    | nil => exact hstart.trans (Int.le_of_eq (Int.add_zero _).symm)
    | cons l' ls₁ =>
      injection heq with hhead htail
      have := h.after ls₁ ls₂ htail
      rw [List.flatten_cons, net_append, ← Int.add_assoc, ← hhead]
      exact this

theorem tail (h : Steady bound v (l :: lists)) : Steady bound (v + net l) lists := by
  refine ⟨fun l₁ l₂ heq => ?_, fun ls₁ ls₂ heq => ?_⟩
  · have := h.between (l ++ l₁) l₂ (by rw [List.flatten_cons, heq, List.append_assoc])
    rwa [net_append, ← Int.add_assoc] at this
  · have := h.after (l :: ls₁) ls₂ (by rw [heq]; rfl)
    rwa [List.flatten_cons, net_append, ← Int.add_assoc] at this

/-- Blocks that are batched remain steady. -/
theorem batched {groups : List (List (List StorageAction))} (h : Steady bound v groups.flatten) :
    Steady bound v (groups.map List.flatten) := by
  refine ⟨fun l₁ l₂ heq => h.between l₁ l₂ ?_, fun ls₁ ls₂ heq => ?_⟩
  · rw [← heq, List.flatten_flatten]
  · obtain ⟨gs₁, gs₂, rfl, rfl, rfl⟩ := List.map_eq_append_iff.mp heq
    have := h.after gs₁.flatten gs₂.flatten List.flatten_append
    rwa [List.flatten_flatten] at this

variable (checks : Bool) {f : Family} {k : Key} {o : Option Value}

/-- **A steady counter ends at its sum, in any batching**, and no executed action leaves its range. -/
theorem executed (hf : f ≠ .writes) (hbound : 2 * bound ≤ 256 ^ f.width)
    (hl : ∀ a ∈ lists.flatten, a.inFamily f = true ∧ a.key = k) (hdecodes : Decodes f.width o)
    (h : Steady bound (counterValue f.width o) lists) :
    ∃ o', executedAt checks lists o = some o' ∧
      (counterValue f.width o' : Int) = counterValue f.width o + net lists.flatten ∧ Decodes f.width o' ∧
      FitsAt checks lists o := by
  induction lists generalizing o with
  | nil => exact ⟨o, rfl, (Int.add_zero _).symm, hdecodes, trivial⟩
  | cons l lists ih =>
    rw [List.flatten_cons] at hl
    have hstart := h.between [] _ rfl
    rw [net_nil, Int.add_zero] at hstart
    have hend := h.between l _ List.flatten_cons
    have hafter := h.after [l] lists rfl
    rw [List.flatten_singleton] at hafter
    obtain ⟨p, hbatch, hvalue, hread, hfits⟩ := exists_batchAt checks hf
      (fun a ha => hl a (List.mem_append_left _ ha)) hdecodes (fun l₁ l₂ heq => by
        have hpart := h.between l₁ (l₂ ++ lists.flatten) (by rw [List.flatten_cons, heq, List.append_assoc])
        omega) hafter (by omega)
    obtain ⟨o', hrest, hvalue', hread', hfits'⟩ := ih (fun a ha => hl a (List.mem_append_right _ ha)) hread (by
      rw [hvalue]
      exact h.tail)
    refine ⟨o', ?_, ?_, hread', hfits, fun q hq => ?_⟩
    · rw [executedAt, hbatch]
      exact hrest
    · rw [hvalue', hvalue, List.flatten_cons, net_append, Int.add_assoc]
    · rw [hbatch] at hq
      cases hq
      exact hfits'

/-- **A counter that the blocks of a chain keep steady**, in any batching of them. -/
theorem executed_batches {batches : List (HashOrder × List (List StorageAction))} (hf : f ≠ .writes)
    (hbound : 2 * bound ≤ 256 ^ f.width)
    (hblocks : ((batches.map Prod.snd).flatten.map fun l => Keyed.of StorageAction.key l k) = lists)
    (hl : ∀ a ∈ lists.flatten, a.inFamily f = true ∧ a.key = k) (hdecodes : Decodes f.width o)
    (h : Steady bound (counterValue f.width o) lists) :
    ∃ o', executedAt checks (atKey batches k) o = some o' ∧
      (counterValue f.width o' : Int) = counterValue f.width o + net lists.flatten ∧
      FitsAt checks (atKey batches k) o := by
  rw [List.map_flatten] at hblocks
  subst hblocks
  obtain ⟨o', hexecuted, hvalue, -, hfits⟩ := h.batched.executed checks hf hbound
    (by rw [List.flatten_flatten] at hl; exact hl) hdecodes
  rw [← atKey_eq] at hexecuted hfits
  exact ⟨o', hexecuted, by rw [List.flatten_flatten]; exact hvalue, hfits⟩

end Steady

/-- A key that no block writes. -/
theorem executed_nil (checks : Bool) {lists : List (List StorageAction)} (h : ∀ l ∈ lists, l = []) (o : Option Value) :
    executedAt checks lists o = some o ∧ FitsAt checks lists o := by
  induction lists with
  | nil => exact ⟨rfl, trivial⟩
  | cons l lists ih =>
    obtain ⟨hexecuted, hfits⟩ := ih fun l' hl' => h l' (List.mem_cons_of_mem _ hl')
    rw [h l List.mem_cons_self]
    refine ⟨hexecuted, ⟨fun m hm => (by cases hm), fun p hp => ?_⟩⟩
    cases hp
    exact hfits

end DogeIndexer.Polyphony
