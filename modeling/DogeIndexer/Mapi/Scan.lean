import DogeIndexer.Lib.Base64
import DogeIndexer.Lib.Effect
import DogeIndexer.Lib.Table
import DogeIndexer.Timbre.Namespace

/-!
# Scans of a snapshot

Model of `Snapshot` and `Scanner` of `services/mapi-xdg/src/polyphony.rs`: point reads by reducer
key, and the scan loop that fetches a range in batches, goes on behind the last key fetched, drops
what the filter rejects, decodes the rest and stops at the wanted number.

The store answers a scan with the entries of the range in order, or with an error when the message
would be too large; the loop then asks for half as many entries.  Which calls are refused is a
parameter.

* `rest_behind` — the entries behind a key are those of the rest of the range.
* `round_collect`, `scanLoop_collect` — the loop collects the entries of the range, batch by batch.
* `Scanner.run_eq` — a scan of the snapshot returns the first entries of its range that are wanted.
-/

set_option autoImplicit false

namespace DogeIndexer.Mapi

open Timbre

/-! ## Errors -/

/-- `Error`, the part that the listings return, with the two ways of not returning at all. -/
inductive Error where
  | malformedRequest (text : String)
  | missingData (key : Bytes)
  | malformedData (bytes : Bytes) (cause : Option TimbreError)
  | internal (text : String)
  /-- The handler panics. -/
  | panicked
  /-- The handler has run for the given number of rounds without returning. -/
  | running
  deriving DecidableEq, Repr

abbrev MapiResult := Except Error

namespace MapiResult

variable {α β : Type}

@[simp] theorem ok_bind (a : α) (f : α → MapiResult β) : (Except.ok a >>= f : MapiResult β) = f a := rfl

@[simp] theorem error_bind (e : Error) (f : α → MapiResult β) :
    ((Except.error e : MapiResult α) >>= f) = .error e := rfl

end MapiResult

/-! ## Orders and ranges -/

inductive OrderParam where
  | asc
  | desc
  deriving DecidableEq, Repr

namespace OrderParam

/-- An ascending list in the order. -/
def arrange {α : Type} : OrderParam → List α → List α
  | asc, l => l
  | desc, l => l.reverse

def Precedes : OrderParam → Bytes → Bytes → Prop
  | asc, k, l => k < l
  | desc, k, l => l < k

instance (order : OrderParam) (k l : Bytes) : Decidable (order.Precedes k l) :=
  match order with
  | asc => inferInstanceAs (Decidable (k < l))
  | desc => inferInstanceAs (Decidable (l < k))

end OrderParam

/-- `Range<Vec<u8>>`. -/
structure Range where
  lower : Bytes
  upper : Bytes
  deriving DecidableEq

namespace Range

def Holds (r : Range) (k : Bytes) : Prop := ¬ k < r.lower ∧ k < r.upper

instance (r : Range) (k : Bytes) : Decidable (r.Holds k) := inferInstanceAs (Decidable (_ ∧ _))

/-- The range behind a key: ascending, the least key after it comes first; descending, the end of a range is not
part of it. -/
def behind (order : OrderParam) (k : Bytes) (r : Range) : Range :=
  match order with
  | .asc => ⟨k ++ [0], r.upper⟩
  | .desc => ⟨r.lower, k⟩

/-- The key is in the range or at its end. -/
def Admits (r : Range) (k : Bytes) : Prop := ¬ k < r.lower ∧ ¬ r.upper < k

instance (r : Range) (k : Bytes) : Decidable (r.Admits k) := inferInstanceAs (Decidable (_ ∧ _))

theorem Holds.admits {r : Range} {k : Bytes} (h : r.Holds k) : r.Admits k := ⟨h.1, h.2.not_gt⟩

theorem holds_behind {order : OrderParam} {k : Bytes} {r : Range} (hk : r.Admits k) (e : Bytes) :
    (r.behind order k).Holds e ↔ r.Holds e ∧ order.Precedes k e := by
  cases order with
  | asc =>
    have hnext : ¬ e < k ++ [0] ↔ k < e := not_lt_append_bot (fun a => Fin.not_lt_zero a) k e
    have hlower : k < e → ¬ e < r.lower := fun hke hel => hk.1 (hke.trans hel)
    simp only [behind, Holds, OrderParam.Precedes, hnext]
    tauto
  | desc =>
    have hupper : e < k → e < r.upper := fun hek => lt_of_lt_of_le hek (not_lt.mp hk.2)
    simp only [behind, Holds, OrderParam.Precedes]
    tauto

end Range

/-! ## Snapshots -/

end DogeIndexer.Mapi

namespace DogeIndexer.Timbre

/-- The type of the values of a reducer, for the reducers that the listings read. -/
def Reducer.value : Reducer → Option Ty
  | .etchingByRuneId => some EtchingByRuneId.value
  | .utxosByRuneId => some UtxosByRuneId.value
  | .utxosByScriptHash => some UtxosByScriptHash.value
  | .runesByUtxo => some RunesByUtxo.value
  | .scriptByScriptHash => some ScriptByScriptHash.value
  | .inscriptionsByUtxo => some InscriptionsByUtxo.value
  | .txsByScriptHash => some TxsByScriptHash.value
  | .balancesByRuneId => some u128
  | _ => none

end DogeIndexer.Timbre

namespace DogeIndexer.Mapi

open Timbre

/-- What a handler is compiled and started with: the sizes of the elements of vectors in memory, the coding of cursors
as text (of the `base64` crate), and the prefix of each reducer's instance (`PolyphonyEncoders`). -/
structure Server where
  size : Ty → Nat
  size_le : ∀ (reducer : Reducer) (t : Ty), reducer.value = some t → ∀ e ∈ t.elements, size e ≤ 2 ^ 31
  base64 : Base64
  encoder : Reducer → Namespace

/-- A snapshot of the store.  What stands under a reducer's prefix was written as a key and a value of that
reducer, and an answer with a single entry is never too large. -/
structure Snapshot where
  table : Table Bytes Bytes
  written : ∀ (ns : Namespace) (reducer : Reducer) (key value : Ty), reducer.key = some key →
    reducer.value = some value → ∀ e ∈ table.entries, ns.dataPrefix reducer <+: e.1 →
      ∃ k v, key.Sized k ∧ value.Sized v ∧ e = (ns.data reducer key k, value.encode v)
  oversized : OrderParam → Range → Nat → Bool
  oversized_one : ∀ order range, oversized order range 1 = false

namespace Snapshot

/-- `decode`, with its error reported for the bytes. -/
def decodeAs (srv : Server) (t : Ty) (bytes : Bytes) : MapiResult t.Val :=
  match t.decode srv.size bytes with
  | .ok (x, _) => .ok x
  | .err e => .error (.malformedData bytes (some e))
  | .panic => .error .panicked

/-- `get_reducer_key_maybe`. -/
def getReducerKeyMaybe (srv : Server) (s : Snapshot) (ns : Namespace) (reducer : Reducer) (A B : Ty) (key : A.Val) :
    MapiResult (Option B.Val) :=
  match s.table.get (ns.data reducer A key) with
  | some v => do
    let value ← decodeAs srv B v
    .ok (some value)
  | none => .ok none

/-- `get_reducer_key`. -/
def getReducerKey (srv : Server) (s : Snapshot) (ns : Namespace) (reducer : Reducer) (A B : Ty) (key : A.Val) :
    MapiResult B.Val := do
  match ← s.getReducerKeyMaybe srv ns reducer A B key with
  | some value => .ok value
  | none => .error (.missingData (ns.data reducer A key))

/-- The entries of a range, in order. -/
def rest (s : Snapshot) (order : OrderParam) (range : Range) : List (Bytes × Bytes) :=
  order.arrange (s.table.entries.filter (fun e => range.Holds e.1))

/-- `scan` and `scan_reverse`. -/
def scan (s : Snapshot) (order : OrderParam) (range : Range) (limit : Nat) : List (Bytes × Bytes) :=
  (s.rest order range).take limit

end Snapshot

/-! ## The scan loop -/

/-- `Scanner`. -/
structure Scanner where
  range : Range
  order : OrderParam
  count : Option Nat

namespace Scanner

/-- `Scanner::new`: ascending, without a limit. -/
def new (range : Range) : Scanner := ⟨range, .asc, none⟩

def withOrder (scanner : Scanner) (order : OrderParam) : Scanner := { scanner with order }

def withCount (scanner : Scanner) (count : Nat) : Scanner := { scanner with count := some count }

end Scanner

def KV_SCAN_BATCH_SIZE : Nat := 1000

/-- Which calls are refused because the answer would be too large: by the number of the call and what it asks for. -/
abbrev Refusals := Nat → OrderParam → Range → Nat → Bool

namespace Snapshot

/-- The refusals of the snapshot itself. -/
def refusals (s : Snapshot) : Refusals := fun _ => s.oversized

/-- As many calls as a scan of the snapshot may need: the size of a batch for the refusals, and its entries. -/
def calls (s : Snapshot) : Nat := 2 ^ 32 + s.table.entries.length

end Snapshot

section Loop

variable {α : Type} (visit : Bytes × Bytes → MapiResult (Option α))

/-- The inner loop: entries are decoded and pushed until there are enough; the flag says that there are. -/
def collect (count : Option Nat) : List (Bytes × Bytes) → List α → MapiResult (List α × Bool)
  | [], kvs => .ok (kvs, false)
  | kv :: l, kvs => do
    match ← visit kv with
    | none => collect count l kvs
    | some x =>
      let kvs := kvs ++ [x]
      match count with
      | some max => if max ≤ kvs.length then .ok (kvs, true) else collect count l kvs
      | none => collect count l kvs

variable (filter : Option (Bytes × Bytes → Bool))

/-- `retain`, if there is a filter. -/
def retain (l : List (Bytes × Bytes)) : List (Bytes × Bytes) :=
  match filter with
  | some f => l.filter f
  | none => l

/-- `'scan_loop` from a call on, for at most `fuel` calls. -/
def scanLoop (s : Snapshot) (order : OrderParam) (count : Option Nat) (refused : Refusals) :
    Nat → Nat → Range → Nat → List α → MapiResult (List α)
  | 0, _, _, _, _ => .error .running
  | fuel + 1, call, range, scanSize, kvs =>
    if refused call order range scanSize then
      scanLoop s order count refused fuel (call + 1) range (Nat.max (scanSize / 2) 1) kvs
    else
      let fetched := s.scan order range scanSize
      match fetched.getLast? with
      | none => .ok kvs
      | some last => do
        let (kvs, enough) ← collect visit count (retain filter fetched) kvs
        if enough then .ok kvs
        else if fetched.length < scanSize then .ok kvs
        else scanLoop s order count refused fuel (call + 1) (range.behind order last.1) scanSize kvs

/-- The loop with the first batch size, and the truncation after it. -/
def Scanner.run (s : Snapshot) (refused : Refusals) (fuel : Nat) (scanner : Scanner) (scanSize : Nat) :
    MapiResult (List α) := do
  let kvs ← scanLoop visit filter s scanner.order scanner.count refused fuel 0 scanner.range scanSize []
  match scanner.count with
  | some max => .ok (kvs.take max)
  | none => .ok kvs

end Loop

/-- A key without its prefix, decoded. -/
def decodeKey (srv : Server) (K : Ty) (kv : Bytes × Bytes) : MapiResult K.Val := do
  if kv.1.length < 5 then .error (.malformedData kv.1 none)
  Snapshot.decodeAs srv K (kv.1.drop 5)

/-- An entry without its prefix, decoded. -/
def decodeEntry (srv : Server) (K V : Ty) (kv : Bytes × Bytes) : MapiResult (K.Val × V.Val) := do
  let key ← decodeKey srv K kv
  let value ← Snapshot.decodeAs srv V kv.2
  .ok (key, value)

/-- The reads of `get_non_metaprotocol_utxos`: whether an output holds neither dunes nor inscriptions. -/
def noMetaprotocol (srv : Server) (s : Snapshot) (key : UtxosByScriptHash.key.Val) : MapiResult Bool := do
  let (_, _, utxoHash, utxoIndex) := key
  let dunes ← s.getReducerKeyMaybe srv (srv.encoder .runesByUtxo) .runesByUtxo RunesByUtxo.key RunesByUtxo.value
    (utxoHash, utxoIndex)
  let inscriptions ← s.getReducerKeyMaybe srv (srv.encoder .inscriptionsByUtxo) .inscriptionsByUtxo
    InscriptionsByUtxo.key InscriptionsByUtxo.value (utxoHash, utxoIndex)
  .ok (dunes.isNone && inscriptions.isNone)

/-- An output, decoded, if it holds neither dunes nor inscriptions. -/
def visitUtxo (srv : Server) (s : Snapshot) (kv : Bytes × Bytes) :
    MapiResult (Option (UtxosByScriptHash.key.Val × UtxosByScriptHash.value.Val)) := do
  let entry ← decodeEntry srv UtxosByScriptHash.key UtxosByScriptHash.value kv
  let keep ← noMetaprotocol srv s entry.1
  .ok (if keep then some entry else none)

/-- `as u32`. -/
def asU32 (n : Nat) : Nat := n % 2 ^ 32

namespace Scanner

variable (srv : Server) (s : Snapshot) (refused : Refusals) (fuel : Nat)

/-- `execute_keys_only`. -/
def executeKeysOnly (K : Ty) (scanner : Scanner) : MapiResult (List K.Val) :=
  let scanSize := asU32 (scanner.count.getD 1000)
  scanner.run (fun kv => some <$> decodeKey srv K kv) none s refused fuel scanSize

/-- `execute_with_filter`; `execute` is the case without a filter. -/
def executeWithFilter (K V : Ty) (filter : Option (Bytes × Bytes → Bool)) (scanner : Scanner) :
    MapiResult (List (K.Val × V.Val)) :=
  let scanSize := if filter.isNone then (scanner.count.map asU32).getD KV_SCAN_BATCH_SIZE else KV_SCAN_BATCH_SIZE
  scanner.run (fun kv => some <$> decodeEntry srv K V kv) filter s refused fuel scanSize

/-- `get_non_metaprotocol_utxos`. -/
def getNonMetaprotocolUtxos (filter : Option (Bytes × Bytes → Bool)) (scanner : Scanner) :
    MapiResult (List (UtxosByScriptHash.key.Val × UtxosByScriptHash.value.Val)) :=
  scanner.run (visitUtxo srv s) filter s refused fuel KV_SCAN_BATCH_SIZE

end Scanner

/-! ## What a scan returns -/

theorem OrderParam.Precedes.asymm {order : OrderParam} {k l : Bytes} (h : order.Precedes k l) :
    ¬ order.Precedes l k := by
  cases order with
  | asc => exact lt_asymm h
  | desc => exact lt_asymm h

/-- In a list that is sorted by a relation, what is behind an element comes after it. -/
theorem filter_behind {β : Type} {r : β → β → Prop} [DecidableRel r] (hasymm : ∀ a b, r a b → ¬ r b a) {l₁ l₂ : List β}
    {e : β} (h : (l₁ ++ e :: l₂).Pairwise r) : (l₁ ++ e :: l₂).filter (fun a => r e a) = l₂ := by
  rw [List.pairwise_append, List.pairwise_cons] at h
  obtain ⟨-, ⟨hbehind, -⟩, hbefore⟩ := h
  have hl₁ : l₁.filter (fun a => r e a) = [] := by
    rw [List.filter_eq_nil_iff]
    intro a ha hea
    exact hasymm a e (hbefore a ha e List.mem_cons_self) (of_decide_eq_true hea)
  have hl₂ : l₂.filter (fun a => r e a) = l₂ := by
    rw [List.filter_eq_self]
    exact fun a ha => decide_eq_true (hbehind a ha)
  have he : ¬ r e e := fun h => hasymm e e h h
  rw [List.filter_append, hl₁, List.filter_cons, if_neg (by simpa using he), hl₂, List.nil_append]

namespace Snapshot

variable (s : Snapshot) {order : OrderParam} {range : Range}

theorem pairwise_rest : (s.rest order range).Pairwise (fun a b => order.Precedes a.1 b.1) := by
  have hsorted : (s.table.entries.filter (fun e => range.Holds e.1)).Pairwise (fun a b => a.1 < b.1) :=
    List.Pairwise.filter _ s.table.sorted
  cases order with
  | asc => exact hsorted
  | desc => exact List.pairwise_reverse.mpr hsorted

theorem mem_rest {e : Bytes × Bytes} : e ∈ s.rest order range ↔ e ∈ s.table.entries ∧ range.Holds e.1 := by
  cases order <;> simp [rest, OrderParam.arrange]

theorem rest_length_le : (s.rest order range).length ≤ s.table.entries.length := by
  cases order with
  | asc => exact List.length_filter_le _ _
  | desc =>
    rw [rest, OrderParam.arrange, List.length_reverse]
    exact List.length_filter_le _ _

theorem rest_behind_eq_filter {k : Bytes} (hk : range.Admits k) :
    s.rest order (range.behind order k) = (s.rest order range).filter (fun e => order.Precedes k e.1) := by
  have hfilter : ∀ l : List (Bytes × Bytes), l.filter (fun e => (range.behind order k).Holds e.1) =
      (l.filter (fun e => range.Holds e.1)).filter (fun e => order.Precedes k e.1) := by
    intro l
    rw [List.filter_filter]
    refine List.filter_congr (fun e _ => ?_)
    rw [← Bool.decide_and, decide_eq_decide, Range.holds_behind hk, and_comm]
  unfold rest
  rw [hfilter]
  cases order with
  | asc => rfl
  | desc => exact List.filter_reverse.symm

/-- **Behind a key of the range lies the rest of its entries.** -/
theorem rest_behind {l₁ l₂ : List (Bytes × Bytes)} {e : Bytes × Bytes} (h : s.rest order range = l₁ ++ e :: l₂) :
    s.rest order (range.behind order e.1) = l₂ := by
  have he : e ∈ s.rest order range := h ▸ by simp
  rw [s.rest_behind_eq_filter (s.mem_rest.mp he).2.admits, h]
  refine filter_behind (r := fun a b : Bytes × Bytes => order.Precedes a.1 b.1) (fun a b hab => hab.asymm) ?_
  exact h ▸ s.pairwise_rest

end Snapshot

section Loop

variable {α : Type} {visit : Bytes × Bytes → MapiResult (Option α)} {found : Bytes × Bytes → Option α}
  {filter : Option (Bytes × Bytes → Bool)}

theorem collect_eq {max : Nat} {l : List (Bytes × Bytes)} {kvs : List α} (hvisit : ∀ e ∈ l, visit e = .ok (found e))
    (hmax : kvs.length < max) :
    collect visit (some max) l kvs = .ok (kvs ++ (l.filterMap found).take (max - kvs.length),
      decide (max ≤ kvs.length + (l.filterMap found).length)) := by
  induction l generalizing kvs with
  | nil =>
    have hnot : ¬ max ≤ kvs.length := by omega
    simp [collect, hnot]
  | cons e l ih =>
    have hl : ∀ a ∈ l, visit a = .ok (found a) := fun a ha => hvisit a (List.mem_cons_of_mem e ha)
    have hhead : visit e = .ok (found e) := hvisit e List.mem_cons_self
    rw [collect, hhead]
    cases hf : found e with
    | none =>
      rw [List.filterMap_cons_none hf]
      exact ih hl hmax
    | some x =>
      rw [List.filterMap_cons_some hf]
      have hlen : (kvs ++ [x]).length = kvs.length + 1 := by simp
      obtain ⟨n, hn⟩ : ∃ n, max - kvs.length = n + 1 := ⟨max - kvs.length - 1, by omega⟩
      change (if max ≤ (kvs ++ [x]).length then .ok (kvs ++ [x], true) else collect visit (some max) l (kvs ++ [x])) = _
      rw [hn, List.take_succ_cons, List.length_cons]
      by_cases hfull : max ≤ kvs.length + 1
      · have hzero : n = 0 := by omega
        rw [if_pos (by omega), hzero]
        have hle : max ≤ kvs.length + ((l.filterMap found).length + 1) := by omega
        simp [hle]
      · rw [if_neg (by omega), ih hl (by omega)]
        have hn' : max - (kvs ++ [x]).length = n := by omega
        rw [hn', hlen, List.append_assoc, List.singleton_append, Nat.add_assoc, Nat.add_comm 1]

theorem retain_append (l₁ l₂ : List (Bytes × Bytes)) : retain filter (l₁ ++ l₂) = retain filter l₁ ++ retain filter l₂ := by
  cases filter with
  | none => rfl
  | some f => exact List.filter_append ..

theorem mem_of_mem_retain {l : List (Bytes × Bytes)} {e : Bytes × Bytes} (h : e ∈ retain filter l) : e ∈ l := by
  cases filter with
  | none => exact h
  | some f => exact (List.mem_filter.mp h).1

/-- The first `count` elements, or all of them. -/
def firstOf {β : Type} (count : Option Nat) (l : List β) : List β :=
  match count with
  | some c => l.take c
  | none => l

theorem firstOf_of_length {β : Type} {count : Option Nat} {l : List β} (h : ∀ c ∈ count, l.length ≤ c) :
    firstOf count l = l := by
  cases count with
  | none => rfl
  | some c => exact List.take_of_length_le (h c rfl)

theorem length_firstOf {β : Type} {count : Option Nat} {l : List β} : ∀ c ∈ count, (firstOf count l).length ≤ c := by
  rintro c rfl
  exact List.length_take_le c l

/-- Collecting entries that all decode is taking the first of those found. -/
theorem collect_found {found : Bytes × Bytes → Option α} {count : Option Nat} (hcount : ∀ c ∈ count, 1 ≤ c)
    {l : List (Bytes × Bytes)} (hvisit : ∀ e ∈ l, visit e = .ok (found e)) :
    (collect visit count l []).map Prod.fst = .ok (firstOf count (l.filterMap found)) := by
  cases count with
  | some c =>
    rw [collect_eq hvisit (hcount c rfl)]
    rfl
  | none =>
    have hall : ∀ kvs : List α, collect visit none l kvs = .ok (kvs ++ l.filterMap found, false) := by
      induction l with
      | nil => intro kvs; simp [collect]
      | cons e l ih =>
        intro kvs
        rw [collect, hvisit e List.mem_cons_self]
        have htail := ih fun a ha => hvisit a (List.mem_cons_of_mem e ha)
        cases hf : found e with
        | none =>
          rw [List.filterMap_cons_none hf]
          exact htail kvs
        | some x =>
          rw [List.filterMap_cons_some hf]
          refine (htail (kvs ++ [x])).trans ?_
          rw [List.append_assoc]
          rfl
    rw [hall]
    rfl

/-- Entries are collected one after another, up to the one that makes enough. -/
theorem collect_append (count : Option Nat) (l₁ l₂ : List (Bytes × Bytes)) (kvs : List α) :
    collect visit count (l₁ ++ l₂) kvs = collect visit count l₁ kvs >>= fun r =>
      if r.2 then .ok r else collect visit count l₂ r.1 := by
  induction l₁ generalizing kvs with
  | nil => rfl
  | cons e l₁ ih =>
    rw [List.cons_append, collect, collect]
    cases visit e with
    | error err => rfl
    | ok found =>
      cases found with
      | none => exact ih kvs
      | some x =>
        cases count with
        | none => exact ih (kvs ++ [x])
        | some max =>
          show (if max ≤ (kvs ++ [x]).length then _ else _) = (if max ≤ (kvs ++ [x]).length then _ else _) >>= _
          by_cases hfull : max ≤ (kvs ++ [x]).length
          · rw [if_pos hfull, if_pos hfull]
            rfl
          · rw [if_neg hfull, if_neg hfull]
            exact ih (kvs ++ [x])

/-- Behind the last entry of a batch lies what was not fetched. -/
theorem rest_behind_scan {s : Snapshot} {order : OrderParam} {range : Range} {scanSize : Nat} {last : Bytes × Bytes}
    (hlast : (s.scan order range scanSize).getLast? = some last) :
    s.rest order (range.behind order last.1) = (s.rest order range).drop scanSize := by
  obtain ⟨l, hl⟩ := List.getLast?_eq_some_iff.mp hlast
  apply s.rest_behind
  calc s.rest order range = s.scan order range scanSize ++ (s.rest order range).drop scanSize :=
        (List.take_append_drop _ _).symm
    _ = l ++ last :: (s.rest order range).drop scanSize := by rw [hl, List.append_assoc, List.singleton_append]

/-- **Collecting a range batch by batch**: a batch, and then what is behind its last entry. -/
theorem collect_batch {s : Snapshot} {order : OrderParam} {range : Range} {scanSize : Nat} {last : Bytes × Bytes}
    (hlast : (s.scan order range scanSize).getLast? = some last) (count : Option Nat) (kvs : List α) :
    collect visit count (retain filter (s.rest order range)) kvs =
      collect visit count (retain filter (s.scan order range scanSize)) kvs >>= fun r =>
        if r.2 then .ok r
        else collect visit count (retain filter (s.rest order (range.behind order last.1))) r.1 := by
  rw [rest_behind_scan hlast, ← collect_append, ← retain_append]
  exact congrArg (fun l => collect visit count (retain filter l) kvs) (List.take_append_drop _ _).symm

theorem scan_getLast?_eq_none {s : Snapshot} {order : OrderParam} {range : Range} {scanSize : Nat}
    (hsize : 0 < scanSize) (h : (s.scan order range scanSize).getLast? = none) : s.rest order range = [] := by
  rw [List.getLast?_eq_none_iff] at h
  exact (List.take_eq_nil_iff.mp h).resolve_left (by omega)

/-- A batch that is not full is the last one. -/
theorem drop_of_scan_length_lt {s : Snapshot} {order : OrderParam} {range : Range} {scanSize : Nat}
    (h : (s.scan order range scanSize).length < scanSize) : (s.rest order range).drop scanSize = [] := by
  rw [Snapshot.scan, List.length_take] at h
  exact List.drop_eq_nil_of_le (by omega)

theorem collect_retain_nil (count : Option Nat) (kvs : List α) :
    collect visit count (retain filter []) kvs = .ok (kvs, false) := by
  cases filter with
  | none => rfl
  | some f => rfl

/-- **A round of the loop**, from what the next rounds collect. -/
theorem round_collect {s : Snapshot} {order : OrderParam} {count : Option Nat} {range : Range} {scanSize : Nat}
    (hsize : 0 < scanSize) (kvs : List α) (next : Range → List α → MapiResult (List α))
    (hnext : ∀ last, (s.scan order range scanSize).getLast? = some last →
      ¬ (s.scan order range scanSize).length < scanSize → ∀ kvs, next (range.behind order last.1) kvs =
        (collect visit count (retain filter (s.rest order (range.behind order last.1))) kvs).map Prod.fst) :
    (match (s.scan order range scanSize).getLast? with
      | none => .ok kvs
      | some last => do
        let (kvs, enough) ← collect visit count (retain filter (s.scan order range scanSize)) kvs
        if enough then .ok kvs
        else if (s.scan order range scanSize).length < scanSize then .ok kvs
        else next (range.behind order last.1) kvs) =
      (collect visit count (retain filter (s.rest order range)) kvs).map Prod.fst := by
  cases hlast : (s.scan order range scanSize).getLast? with
  | none =>
    rw [scan_getLast?_eq_none hsize hlast, collect_retain_nil]
    rfl
  | some last =>
    rw [collect_batch hlast]
    cases collect visit count (retain filter (s.scan order range scanSize)) kvs with
    | error e => rfl
    | ok r =>
      obtain ⟨kvs', enough⟩ := r
      cases enough with
      | true => rfl
      | false =>
        show (if (s.scan order range scanSize).length < scanSize then _ else _) = _
        by_cases hend : (s.scan order range scanSize).length < scanSize
        · rw [if_pos hend]
          show _ = (collect visit count (retain filter (s.rest order (range.behind order last.1))) kvs').map Prod.fst
          rw [rest_behind_scan hlast, drop_of_scan_length_lt hend, collect_retain_nil]
          rfl
        · rw [if_neg hend]
          exact hnext last hlast hend kvs'

/-- Refusals that come to an end: each of them lowers a potential, which no answer raises. -/
structure RunsOut (refused : Refusals) (potential : Nat → Nat → Nat) : Prop where
  refusal : ∀ call order range size, 0 < size → refused call order range size = true →
    potential (call + 1) (Nat.max (size / 2) 1) < potential call size
  answer : ∀ call size, potential (call + 1) size ≤ potential call size

/-- A single entry is never refused, and each refusal halves the size. -/
theorem Snapshot.refusals_runsOut (s : Snapshot) : RunsOut s.refusals (fun _ size => size) where
  refusal := by
    intro call order range size hsize hrefused
    have hone : size ≠ 1 := by
      rintro rfl
      rw [Snapshot.refusals, s.oversized_one] at hrefused
      cases hrefused
    exact Nat.max_lt.mpr ⟨by omega, by omega⟩
  answer := fun _ _ => le_refl _

/-- **The loop collects the range** if the refusals come to an end: in each round the potential falls or entries are
left behind. -/
theorem scanLoop_collect {s : Snapshot} {order : OrderParam} {count : Option Nat} {refused : Refusals}
    {potential : Nat → Nat → Nat} (hends : RunsOut refused potential) (fuel call : Nat) (range : Range) (scanSize : Nat)
    (kvs : List α) (hsize : 0 < scanSize) (hfuel : potential call scanSize + (s.rest order range).length < fuel) :
    scanLoop visit filter s order count refused fuel call range scanSize kvs =
      (collect visit count (retain filter (s.rest order range)) kvs).map Prod.fst := by
  induction fuel generalizing call range scanSize kvs with
  | zero => omega
  | succ fuel ih =>
    rw [scanLoop]
    by_cases hrefused : refused call order range scanSize = true
    · have hless := hends.refusal call order range scanSize hsize hrefused
      rw [if_pos hrefused]
      exact ih (call + 1) range _ kvs (Nat.le_max_right _ _) (by omega)
    · rw [if_neg hrefused]
      refine round_collect hsize kvs
        (fun range kvs => scanLoop visit filter s order count refused fuel (call + 1) range scanSize kvs) ?_
      intro last hlast hfull kvs'
      have hle := hends.answer call scanSize
      refine ih _ _ _ _ hsize ?_
      rw [Snapshot.scan, List.length_take] at hfull
      rw [rest_behind_scan hlast, List.length_drop]
      omega

/-- The truncation after the loop. -/
theorem Scanner.run_eq_firstOf (s : Snapshot) (refused : Refusals) (fuel : Nat) (scanner : Scanner) (scanSize : Nat) :
    scanner.run visit filter s refused fuel scanSize =
      firstOf scanner.count <$>
        scanLoop visit filter s scanner.order scanner.count refused fuel 0 scanner.range scanSize [] := by
  unfold Scanner.run
  cases scanLoop visit filter s scanner.order scanner.count refused fuel 0 scanner.range scanSize [] with
  | error e => rfl
  | ok kvs =>
    cases scanner.count with
    | none => rfl
    | some c => rfl

/-- **A scan of the snapshot returns the first entries of its range** that pass the filter and are found. -/
theorem Scanner.run_eq {s : Snapshot} {scanner : Scanner} {max scanSize : Nat} (hcount : scanner.count = some max)
    (hmax : 0 < max) (hsize : 0 < scanSize) (hbound : scanSize < 2 ^ 32)
    (hvisit : ∀ e ∈ s.rest scanner.order scanner.range, visit e = .ok (found e)) :
    scanner.run visit filter s s.refusals s.calls scanSize =
      .ok (((retain filter (s.rest scanner.order scanner.range)).filterMap found).take max) := by
  have hfuel : scanSize + (s.rest scanner.order scanner.range).length < s.calls := by
    have hle : (s.rest scanner.order scanner.range).length ≤ s.table.entries.length := s.rest_length_le
    unfold Snapshot.calls
    omega
  have hpositive : ∀ c ∈ some max, 1 ≤ c := by
    rintro c ⟨⟩
    exact hmax
  rw [Scanner.run_eq_firstOf, scanLoop_collect s.refusals_runsOut _ _ _ _ _ hsize hfuel, hcount,
    collect_found hpositive fun e he => hvisit e (mem_of_mem_retain he)]
  exact congrArg Except.ok (firstOf_of_length length_firstOf)

end Loop

end DogeIndexer.Mapi
