import DogeIndexer.Lib.Machine
import DogeIndexer.Lib.Sorting
import Mathlib.Data.Prod.Lex

/-!
# The garbage collection safepoint

Model of `tikv-gc`: `get_instance_chaintips` and `get_earliest_chaintip_ts` of
`invariants/earliest_chaintip.rs`, `fetch_entry_map` and `get_new_safepoint` of `worker.rs`, and of
the commands on the cursor entries in Redis by which an indexer instance records a commit
(`storage/tikv.rs` of `polyphony-xdg`).

Principal results: `chaintip_spec` — the entry chosen for an instance; `safepoint_spec` — what the
safepoint is below, and what pruning keeps; `Step.safe` — what runs and new entries keep;
`gc_keeps_chaintips` — no run finds an instance without an entry of a block.
-/

set_option autoImplicit false

namespace DogeIndexer.TikvGc

/-- `Timestamp`: ordered by the physical, then by the logical part. -/
abbrev Timestamp := Int ×ₗ Int

def Timestamp.mk (physical logical : Int) : Timestamp := toLex (physical, logical)

def Timestamp.physical (ts : Timestamp) : Int := (ofLex ts).1

structure RedisKey where
  dataplane : Byte
  inst : Fin (2 ^ 16)
  deriving DecidableEq

/-- The part of a `RedisEntry` that is read.  The line of text it is stored as has the version of the commit timestamp,
which `from_version` of the `tikv_client` crate makes a timestamp again. -/
structure RedisEntry where
  height : U64
  blockHash : Fin (2 ^ 256)
  wasMempool : Bool
  commitTs : Timestamp
  deriving DecidableEq

/-- The sort key of `get_instance_chaintips`. -/
def RedisEntry.rank (e : RedisEntry) : Nat ×ₗ Timestamp := toLex (e.height.val, e.commitTs)

/-- The sorted sets of the cursor entries, with the set of their keys.  The members stand in the order in which
`zrangebyscore` returns them. -/
structure Redis where
  /-- `tikv-timestamps-keys`. -/
  keys : List RedisKey
  /-- `tikv-timestamps:<dataplane>:<instance>`, scored by the physical part of the commit timestamp: a version has 46
  bits for it, so that the score, a double, is exact. -/
  entries : RedisKey → List RedisEntry

inductive Panic where
  /-- `no non-mempool entry found`. -/
  | noNonMempoolEntry (key : RedisKey)
  /-- `unwrap` on the first chaintip of an empty map. -/
  | noInstance
  /-- `version()` of a timestamp that is not the timestamp of a version. -/
  | version
  deriving DecidableEq

abbrev EntryMap := List (RedisKey × List RedisEntry)

/-- `fetch_entry_map`: the instances that have entries. -/
def fetchEntryMap (r : Redis) : EntryMap :=
  (r.keys.map fun key => (key, r.entries key)).filter fun e => !e.2.isEmpty

/-- The most recent entry of a block that is not a mempool block. -/
def chaintip (blockOptions : List RedisEntry) : Option RedisEntry :=
  (sortByKey RedisEntry.rank (blockOptions.filter fun b => !b.wasMempool)).getLast?

def getInstanceChaintips (entryMap : EntryMap) : Except Panic (List (RedisKey × RedisEntry)) :=
  entryMap.mapM fun e =>
    match chaintip e.2 with
    | some tip => .ok (e.1, tip)
    | none => .error (.noNonMempoolEntry e.1)

def getEarliestChaintipTs (entryMap : EntryMap) : Except Panic Timestamp := do
  let chaintips ← getInstanceChaintips entryMap
  match (sortByKey (fun c => c.2.commitTs) chaintips).head? with
  | some (_, earliest) => .ok earliest.commitTs
  | none => .error .noInstance

abbrev I64 := { x : Int // -2 ^ 63 ≤ x ∧ x ≤ 2 ^ 63 - 1 }

/-- `i64::saturating_sub`. -/
def saturatingSub (a b : Int) : Int := max (-2 ^ 63) (min (2 ^ 63 - 1) (a - b))

/-- The first of the candidates, sorted. -/
def earlier (a b : Timestamp) : Timestamp := if a ≤ b then a else b

/-- `zrembyscore` up to the millisecond before the safepoint, for each key of the map. -/
def prune (r : Redis) (entryMap : EntryMap) (safepoint : Timestamp) : Redis where
  keys := r.keys
  entries := fun key =>
    if key ∈ entryMap.map Prod.fst then
      (r.entries key).filter fun e => !decide (e.commitTs.physical ≤ safepoint.physical - 1)
    else r.entries key

/-- `get_new_safepoint` at `current_ts` milliseconds after the epoch; `version` is `TimestampExt::version`, `none` where
it panics. -/
def getNewSafepoint (version : Timestamp → Option U64) (currentTs : Fin (2 ^ 63)) (safeZoneMillis : I64) (r : Redis) :
    Except Panic (Timestamp × Redis) := do
  let entryMap := fetchEntryMap r
  let earliestChaintipTs ← getEarliestChaintipTs entryMap
  let safeZoneTs := Timestamp.mk (saturatingSub currentTs.val safeZoneMillis.val) 0
  let newSafepoint := earlier earliestChaintipTs safeZoneTs
  match version newSafepoint with
  | some _ => .ok (newSafepoint, prune r entryMap newSafepoint)
  | none => .error .version

/-! ## The chaintip of an instance -/

/-- The highest entry of a block, the latest one if there are several. -/
structure IsChaintip (entries : List RedisEntry) (tip : RedisEntry) : Prop where
  mem : tip ∈ entries
  block : tip.wasMempool = false
  highest : ∀ e ∈ entries, e.wasMempool = false → e.rank ≤ tip.rank

theorem chaintip_spec {entries : List RedisEntry} {tip : RedisEntry} (h : chaintip entries = some tip) :
    IsChaintip entries tip := by
  obtain ⟨hmem, hmax⟩ := sortByKey_getLast h
  simp only [List.mem_filter, Bool.not_eq_true'] at hmem hmax
  exact ⟨hmem.1, hmem.2, fun e he hblock => hmax e ⟨he, hblock⟩⟩

theorem exists_chaintip {entries : List RedisEntry} (h : ∃ e ∈ entries, e.wasMempool = false) :
    ∃ tip, chaintip entries = some tip := by
  obtain ⟨e, he, hblock⟩ := h
  cases hc : chaintip entries with
  | some tip => exact ⟨tip, rfl⟩
  | none =>
    rw [chaintip, List.getLast?_eq_none_iff, sortByKey_eq_nil, List.filter_eq_nil_iff] at hc
    exact absurd (by simp [hblock]) (hc e he)

/-- Chaintips of one instance have one timestamp. -/
theorem IsChaintip.commitTs_eq {entries : List RedisEntry} {tip tip' : RedisEntry} (h : IsChaintip entries tip)
    (h' : IsChaintip entries tip') : tip.commitTs = tip'.commitTs := by
  have heq : tip.rank = tip'.rank :=
    le_antisymm (h'.highest tip h.mem h.block) (h.highest tip' h'.mem h'.block)
  exact congrArg (fun r => (ofLex r).2) heq

/-! ## One run -/

/-- There is an instance, and every instance with entries has an entry of a block. -/
structure Safe (r : Redis) : Prop where
  instances : ∃ key ∈ r.keys, r.entries key ≠ []
  blocks : ∀ key, r.entries key ≠ [] → ∃ e ∈ r.entries key, e.wasMempool = false

theorem mem_fetchEntryMap {r : Redis} {key : RedisKey} {entries : List RedisEntry} :
    (key, entries) ∈ fetchEntryMap r ↔ key ∈ r.keys ∧ entries = r.entries key ∧ entries ≠ [] := by
  simp only [fetchEntryMap, List.mem_filter, List.mem_map, Prod.mk.injEq, Bool.not_eq_true', List.isEmpty_eq_false_iff]
  constructor
  · rintro ⟨⟨_, hk, rfl, rfl⟩, hne⟩
    exact ⟨hk, rfl, hne⟩
  · rintro ⟨hk, rfl, hne⟩
    exact ⟨⟨key, hk, rfl, rfl⟩, hne⟩

/-- Every instance of the map gets its chaintip. -/
theorem getInstanceChaintips_ok {entryMap : EntryMap} (h : ∀ e ∈ entryMap, ∃ b ∈ e.2, b.wasMempool = false) :
    ∃ chaintips, getInstanceChaintips entryMap = .ok chaintips ∧
      ∀ e ∈ entryMap, ∃ tip, (e.1, tip) ∈ chaintips ∧ IsChaintip e.2 tip := by
  induction entryMap with
  | nil => exact ⟨[], rfl, fun e he => nomatch he⟩
  | cons e entryMap ih =>
    obtain ⟨tip, htip⟩ := exists_chaintip (h e List.mem_cons_self)
    obtain ⟨chaintips, hrest, hall⟩ := ih fun x hx => h x (List.mem_cons_of_mem e hx)
    refine ⟨(e.1, tip) :: chaintips, ?_, fun x hx => ?_⟩
    · unfold getInstanceChaintips at hrest ⊢
      rw [List.mapM_cons, htip, hrest]
      rfl
    · rcases List.mem_cons.mp hx with rfl | hx
      · exact ⟨tip, List.mem_cons_self, chaintip_spec htip⟩
      · obtain ⟨tip', hmem, hspec⟩ := hall x hx
        exact ⟨tip', List.mem_cons_of_mem _ hmem, hspec⟩

/-- The earliest chaintip is not later than any. -/
theorem getEarliestChaintipTs_ok {entryMap : EntryMap} (hne : entryMap ≠ [])
    (h : ∀ e ∈ entryMap, ∃ b ∈ e.2, b.wasMempool = false) :
    ∃ ts, getEarliestChaintipTs entryMap = .ok ts ∧
      ∀ e ∈ entryMap, ∀ tip, IsChaintip e.2 tip → ts ≤ tip.commitTs := by
  obtain ⟨chaintips, hok, hall⟩ := getInstanceChaintips_ok h
  unfold getEarliestChaintipTs
  rw [hok]
  cases hhead : (sortByKey (fun c : RedisKey × RedisEntry => c.2.commitTs) chaintips).head? with
  | none =>
    rw [List.head?_eq_none_iff, sortByKey_eq_nil] at hhead
    obtain ⟨e, he⟩ := List.exists_mem_of_ne_nil entryMap hne
    obtain ⟨tip, hmem, -⟩ := hall e he
    rw [hhead] at hmem
    cases hmem
  | some earliest =>
    refine ⟨earliest.2.commitTs, ?_, fun e he tip htip => ?_⟩
    · simp only [bind, Except.bind, hhead]
    obtain ⟨tip', hmem, htip'⟩ := hall e he
    rw [htip.commitTs_eq htip']
    exact (sortByKey_head hhead).2 _ hmem

theorem earlier_le_left (a b : Timestamp) : earlier a b ≤ a := by
  unfold earlier
  split
  · exact le_rfl
  · rename_i h
    exact (not_le.mp h).le

theorem earlier_le_right (a b : Timestamp) : earlier a b ≤ b := by
  unfold earlier
  split
  · assumption
  · exact le_rfl

theorem Timestamp.physical_le {a b : Timestamp} (h : a ≤ b) : a.physical ≤ b.physical := by
  rcases Prod.Lex.le_iff.mp h with hlt | ⟨heq, -⟩
  · exact hlt.le
  · exact heq.le

/-- The difference is at most the exact one: the current time is not negative. -/
theorem saturatingSub_le (currentTs : Fin (2 ^ 63)) (safeZoneMillis : I64) :
    saturatingSub currentTs.val safeZoneMillis.val ≤ currentTs.val - safeZoneMillis.val := by
  obtain ⟨safeZoneMillis, hlow, hhigh⟩ := safeZoneMillis
  unfold saturatingSub
  have h0 : (0 : Int) ≤ (currentTs.val : Int) := Int.natCast_nonneg _
  simp only
  omega

/-- The safepoint that a run chooses when `ts` is the earliest chaintip. -/
def chosen (currentTs : Fin (2 ^ 63)) (safeZoneMillis : I64) (ts : Timestamp) : Timestamp :=
  earlier ts (Timestamp.mk (saturatingSub currentTs.val safeZoneMillis.val) 0)

theorem getNewSafepoint_eq {version : Timestamp → Option U64} {currentTs : Fin (2 ^ 63)} {safeZoneMillis : I64}
    {r : Redis} {ts : Timestamp} (h : getEarliestChaintipTs (fetchEntryMap r) = .ok ts) :
    getNewSafepoint version currentTs safeZoneMillis r =
      match version (chosen currentTs safeZoneMillis ts) with
      | some _ => .ok (chosen currentTs safeZoneMillis ts,
          prune r (fetchEntryMap r) (chosen currentTs safeZoneMillis ts))
      | none => .error .version := by
  unfold getNewSafepoint
  simp only [h, bind, Except.bind]
  rfl

theorem chosen_le (currentTs : Fin (2 ^ 63)) (safeZoneMillis : I64) (ts : Timestamp) :
    chosen currentTs safeZoneMillis ts ≤ Timestamp.mk (currentTs.val - safeZoneMillis.val) 0 := by
  refine (earlier_le_right _ _).trans (Prod.Lex.le_iff.mpr ?_)
  rcases (saturatingSub_le currentTs safeZoneMillis).lt_or_eq with hlt | heq
  · exact .inl hlt
  · exact .inr ⟨heq, le_rfl⟩

/-- What a run that completes has chosen, and what it has kept. -/
structure SafepointOk (currentTs : Fin (2 ^ 63)) (safeZoneMillis : I64) (r : Redis) (safepoint : Timestamp)
    (r' : Redis) : Prop where
  chaintips : ∀ key ∈ r.keys, ∀ tip, IsChaintip (r.entries key) tip → safepoint ≤ tip.commitTs
  safeZone : safepoint ≤ Timestamp.mk (currentTs.val - safeZoneMillis.val) 0
  keys : r'.keys = r.keys
  kept : ∀ key tip, IsChaintip (r.entries key) tip → tip ∈ r'.entries key
  pruned : ∀ key, r'.entries key ⊆ r.entries key

theorem entries_prune (r : Redis) (entryMap : EntryMap) (safepoint : Timestamp) (key : RedisKey) :
    (prune r entryMap safepoint).entries key =
      if key ∈ entryMap.map Prod.fst then
        (r.entries key).filter fun e => !decide (e.commitTs.physical ≤ safepoint.physical - 1)
      else r.entries key := rfl

/-- Pruning up to a safepoint that is not later than a chaintip keeps the chaintip. -/
theorem mem_prune {r : Redis} {entryMap : EntryMap} {safepoint : Timestamp} {key : RedisKey} {tip : RedisEntry}
    (hmem : tip ∈ r.entries key) (hle : key ∈ entryMap.map Prod.fst → safepoint ≤ tip.commitTs) :
    tip ∈ (prune r entryMap safepoint).entries key := by
  rw [entries_prune]
  split
  · rename_i hk
    have hphysical := Timestamp.physical_le (hle hk)
    rw [List.mem_filter]
    refine ⟨hmem, ?_⟩
    simp only [Bool.not_eq_true', decide_eq_false_iff_not]
    omega
  · exact hmem

theorem prune_subset (r : Redis) (entryMap : EntryMap) (safepoint : Timestamp) (key : RedisKey) :
    (prune r entryMap safepoint).entries key ⊆ r.entries key := by
  rw [entries_prune]
  split
  · exact List.filter_subset_self _
  · exact List.Subset.refl _

/-- **A run on a safe store** chooses a safepoint below every chaintip and keeps the chaintips, or stops at the version
of the safepoint with nothing pruned. -/
theorem safepoint_spec (version : Timestamp → Option U64) (currentTs : Fin (2 ^ 63)) (safeZoneMillis : I64) {r : Redis}
    (h : Safe r) :
    getNewSafepoint version currentTs safeZoneMillis r = .error .version ∨
      ∃ safepoint r', getNewSafepoint version currentTs safeZoneMillis r = .ok (safepoint, r') ∧
        SafepointOk currentTs safeZoneMillis r safepoint r' := by
  have hne : fetchEntryMap r ≠ [] := by
    obtain ⟨key, hk, hentries⟩ := h.instances
    exact List.ne_nil_of_mem (mem_fetchEntryMap.mpr ⟨hk, rfl, hentries⟩)
  have hblocks : ∀ e ∈ fetchEntryMap r, ∃ b ∈ e.2, b.wasMempool = false := by
    rintro ⟨key, entries⟩ he
    obtain ⟨-, rfl, hentries⟩ := mem_fetchEntryMap.mp he
    exact h.blocks key hentries
  obtain ⟨ts, hts, hle⟩ := getEarliestChaintipTs_ok hne hblocks
  have hchosen : ∀ key ∈ r.keys, ∀ tip, IsChaintip (r.entries key) tip →
      chosen currentTs safeZoneMillis ts ≤ tip.commitTs := by
    intro key hk tip htip
    have hmap := mem_fetchEntryMap.mpr ⟨hk, rfl, List.ne_nil_of_mem htip.mem⟩
    exact (earlier_le_left _ _).trans (hle (key, r.entries key) hmap tip htip)
  rw [getNewSafepoint_eq hts]
  cases version (chosen currentTs safeZoneMillis ts) with
  | none => exact .inl rfl
  | some v =>
    refine .inr ⟨_, _, rfl, hchosen, chosen_le currentTs safeZoneMillis ts, rfl, fun key tip htip => ?_,
      prune_subset r _ _⟩
    refine mem_prune htip.mem fun hk => ?_
    obtain ⟨⟨key', entries⟩, hmem, rfl⟩ := List.mem_map.mp hk
    exact hchosen key' (mem_fetchEntryMap.mp hmem).1 tip htip

/-! ## Runs and new entries -/

/-- A commit records an entry, the key of the instance is indexed, and the garbage collection runs; the first entry of
an instance is that of a block. -/
inductive Step (version : Timestamp → Option U64) : Redis → Redis → Prop where
  | zadd {r r' : Redis} (key : RedisKey) (e : RedisEntry) (first : r.entries key = [] → e.wasMempool = false)
      (keys : r'.keys = r.keys) (added : ∀ x, x ∈ r'.entries key ↔ x = e ∨ x ∈ r.entries key)
      (others : ∀ key' ≠ key, r'.entries key' = r.entries key') : Step version r r'
  | index {r r' : Redis} (key : RedisKey) (keys : ∀ x, x ∈ r'.keys ↔ x = key ∨ x ∈ r.keys)
      (entries : r'.entries = r.entries) : Step version r r'
  | gc {r r' : Redis} (currentTs : Fin (2 ^ 63)) (safeZoneMillis : I64) (safepoint : Timestamp)
      (run : getNewSafepoint version currentTs safeZoneMillis r = .ok (safepoint, r')) : Step version r r'

theorem Step.safe {version : Timestamp → Option U64} {r r' : Redis} (hstep : Step version r r') (h : Safe r) :
    Safe r' := by
  cases hstep with
  | zadd key e first keys added others =>
    refine ⟨?_, fun key' hne => ?_⟩
    · obtain ⟨key', hk, hentries⟩ := h.instances
      refine ⟨key', keys ▸ hk, ?_⟩
      by_cases heq : key' = key
      · subst heq
        exact List.ne_nil_of_mem ((added e).mpr (.inl rfl))
      · rw [others key' heq]
        exact hentries
    · by_cases heq : key' = key
      · subst heq
        by_cases hold : r.entries key' = []
        · exact ⟨e, (added e).mpr (.inl rfl), first hold⟩
        · obtain ⟨b, hb, hblock⟩ := h.blocks key' hold
          exact ⟨b, (added b).mpr (.inr hb), hblock⟩
      · rw [others key' heq] at hne ⊢
        exact h.blocks key' hne
  | index key keys entries =>
    refine ⟨?_, fun key' hne => ?_⟩
    · obtain ⟨key', hk, hentries⟩ := h.instances
      exact ⟨key', (keys key').mpr (.inr hk), entries ▸ hentries⟩
    · rw [entries] at hne ⊢
      exact h.blocks key' hne
  | gc currentTs safeZoneMillis safepoint run =>
    obtain herr | ⟨safepoint', r'', hok, hspec⟩ := safepoint_spec version currentTs safeZoneMillis h
    · rw [herr] at run
      cases run
    · rw [hok] at run
      cases run
      refine ⟨?_, fun key hne => ?_⟩
      · obtain ⟨key, hk, hentries⟩ := h.instances
        obtain ⟨tip, htip⟩ := exists_chaintip (h.blocks key hentries)
        exact ⟨key, hspec.keys ▸ hk, List.ne_nil_of_mem (hspec.kept key tip (chaintip_spec htip))⟩
      · have hentries : r.entries key ≠ [] := fun hnil => hne (List.subset_nil.mp (hnil ▸ hspec.pruned key))
        obtain ⟨tip, htip⟩ := exists_chaintip (h.blocks key hentries)
        exact ⟨tip, hspec.kept key tip (chaintip_spec htip), (chaintip_spec htip).block⟩

inductive Run (version : Timestamp → Option U64) : Redis → Redis → Prop where
  | refl (r : Redis) : Run version r r
  | step {r r' r'' : Redis} (run : Run version r r') (next : Step version r' r'') : Run version r r''

theorem Run.safe {version : Timestamp → Option U64} {r r' : Redis} (hrun : Run version r r') (h : Safe r) : Safe r' := by
  induction hrun with
  | refl => exact h
  | step run next ih => exact next.safe ih

/-- **Every instance stays readable at its tip.**  In every store reached from a safe one by runs and new entries every
instance has a chaintip; a further run either stops at the version of its safepoint, with the store as it was, or
chooses a safepoint that is neither later than any chaintip nor in the safe zone, and keeps the chaintips. -/
theorem gc_keeps_chaintips (version : Timestamp → Option U64) {r₀ r : Redis} (h₀ : Safe r₀) (hrun : Run version r₀ r)
    (currentTs : Fin (2 ^ 63)) (safeZoneMillis : I64) :
    (∀ key, r.entries key ≠ [] → ∃ tip, IsChaintip (r.entries key) tip) ∧
    (∀ key, getNewSafepoint version currentTs safeZoneMillis r ≠ .error (.noNonMempoolEntry key)) ∧
    (getNewSafepoint version currentTs safeZoneMillis r = .error .version ∨
      ∃ safepoint r', getNewSafepoint version currentTs safeZoneMillis r = .ok (safepoint, r') ∧
        SafepointOk currentTs safeZoneMillis r safepoint r') := by
  have h := hrun.safe h₀
  have hspec := safepoint_spec version currentTs safeZoneMillis h
  refine ⟨fun key hne => ?_, fun key herr => ?_, hspec⟩
  · obtain ⟨tip, htip⟩ := exists_chaintip (h.blocks key hne)
    exact ⟨tip, chaintip_spec htip⟩
  · obtain hversion | ⟨_, _, hok, -⟩ := hspec
    · rw [hversion] at herr
      cases herr
    · rw [hok] at herr
      cases herr

/-- One instance with a block and, above it, a mempool block. -/
def oneInstance : Redis where
  keys := [⟨0, 0⟩]
  entries := fun _ => [⟨2, 2, false, .mk 0 2⟩, ⟨3, 3, true, .mk 0 3⟩]

theorem oneInstance_safe : Safe oneInstance :=
  ⟨⟨⟨0, 0⟩, by decide, by decide⟩, fun _ _ => ⟨⟨2, 2, false, .mk 0 2⟩, List.mem_cons_self, rfl⟩⟩

/-- Before the first run the instance has a chaintip. -/
theorem gc_keeps_chaintips_one : oneInstance.entries ⟨0, 0⟩ ≠ [] ∧
    ∃ tip, IsChaintip (oneInstance.entries ⟨0, 0⟩) tip :=
  ⟨by decide,
    (gc_keeps_chaintips
      (fun ts => if 0 ≤ ts.physical then some (Fin.ofNat _ (ts.physical * 2 ^ 18 + (ofLex ts).2).toNat) else none)
      oneInstance_safe (.refl oneInstance) 1000 ⟨10, by decide⟩).1 ⟨0, 0⟩ (by decide)⟩

end DogeIndexer.TikvGc
