import DogeIndexer.Lib.Digits
import DogeIndexer.Lib.Effect
import DogeIndexer.Lib.Text
import DogeIndexer.Timbre.Text

/-!
# Cursor entries as text

Model of the `RedisEntry` of `tikv-gc` (`entry.rs`) and of the `RedisEntry` that `polyphony-xdg` writes for it
(`storage/mod.rs`): lines of fields with commas between them.  The first five fields are parsed alike by both; the
garbage collector goes on with three more and takes a default for each that is missing or malformed.

* `gc_reads_what_is_written` — what the indexer writes is read by the garbage collector and by the indexer.
-/

set_option autoImplicit false

namespace DogeIndexer.Entries

open Timbre (asBytes fromUtf8)

/-! ## Fields -/

/-- `[u8; 32]`. -/
abbrev Bytes32 := { bytes : List Byte // bytes.length = 32 }

/-- `redis::Value`: the text, the bytes, or a value of another type. -/
inductive Value where
  | simpleString (s : List Char)
  | bulkString (bytes : List Byte)
  | other

/-- `malformed`: an error that names what is malformed. -/
def orMalformed {α : Type} (what : String) : Option α → Except String α
  | some x => .ok x
  | none => .error what

/-- `to_string` of an integer. -/
def decimal (n : Nat) : List Char := Nat.toDigits 10 n

def parseU64 (s : List Char) : Option U64 := Digits.parseUInt (2 ^ 64) s

def boolText : Bool → List Char
  | true => "true".toList
  | false => "false".toList

/-- `parse` of a `bool`. -/
def parseBool (s : List Char) : Option Bool :=
  if s = "true".toList then some true else if s = "false".toList then some false else none

/-- `hex::decode` and `try_into`. -/
def parseHash (hex : Hex) (s : List Char) : Option Bytes32 :=
  (hex.decode s).bind fun bytes => if h : bytes.length = 32 then some ⟨bytes, h⟩ else none

/-- `from_redis_value` around the parser of a line. -/
def fromValue {α : Type} (parse : List Char → Except String α) : Value → Except String α
  | .simpleString s => parse s
  | .bulkString bytes => do
    let s ← orMalformed "utf-8 entry" (fromUtf8 bytes)
    parse s.toList
  | .other => .error "unexpected redis value type"

/-- The five fields that both parsers begin with. -/
structure Head (τ : Type) where
  height : U64
  blockHash : Bytes32
  wasMempool : Bool
  commitTs : τ
  network : List Char

/-- The first five fields of a line; `s.next()` is the next field, if there is one. -/
def parseHead {τ : Type} (hex : Hex) (m : CaseMapping) (fromVersion : U64 → τ) (fields : List (List Char)) :
    Except String (Head τ) := do
  let height ← orMalformed "height" (fields[0]?.bind parseU64)
  let blockHash ← orMalformed "block hash" (fields[1]?.bind (parseHash hex))
  let wasMempool ← orMalformed "was_mempool" (fields[2]?.bind parseBool)
  let commitTs ← orMalformed "commit timestamp" ((fields[3]?.bind parseU64).map fromVersion)
  return ⟨height, blockHash, wasMempool, commitTs, m.lowercase (fields[4]?.getD [])⟩

/-! ## The two entries -/

/-- `RedisEntry` of `polyphony-xdg`. -/
structure IndexerEntry (τ : Type) where
  height : U64
  blockHash : Bytes32
  wasMempool : Bool
  commitTs : τ
  network : List Char

/-- `RedisEntry` of `tikv-gc`. -/
structure GcEntry (τ : Type) where
  height : U64
  blockHash : Bytes32
  wasMempool : Bool
  commitTs : τ
  network : List Char
  chainTipHeight : U64
  chainTipHash : Bytes32
  mempoolViewTs : U64

/-- `parse` of `polyphony-xdg`. -/
def IndexerEntry.parse {τ : Type} (hex : Hex) (m : CaseMapping) (fromVersion : U64 → τ) (s : List Char) :
    Except String (IndexerEntry τ) := do
  let head ← parseHead hex m fromVersion (s.splitOn ',')
  return ⟨head.height, head.blockHash, head.wasMempool, head.commitTs, head.network⟩

/-- `parse` of `tikv-gc`. -/
def GcEntry.parse {τ : Type} (hex : Hex) (m : CaseMapping) (fromVersion : U64 → τ) (s : List Char) :
    Except String (GcEntry τ) := do
  let fields := s.splitOn ','
  let head ← parseHead hex m fromVersion fields
  let chainTipHeight := (fields[5]?.bind parseU64).getD 0
  let chainTipHash := (fields[6]?.bind (parseHash hex)).getD ⟨List.replicate 32 0, Machine.length_zeros⟩
  let mempoolViewTs := (fields[7]?.bind parseU64).getD 0
  return ⟨head.height, head.blockHash, head.wasMempool, head.commitTs, head.network, chainTipHeight, chainTipHash,
    mempoolViewTs⟩

/-- `to_string` of `polyphony-xdg`: the block is its own chain tip. -/
def IndexerEntry.toText {τ : Type} (hex : Hex) (m : CaseMapping) (version : τ → U64) (e : IndexerEntry τ) : List Char :=
  [','].intercalate [decimal e.height.val, hex.encode e.blockHash.val, boolText e.wasMempool,
    decimal (version e.commitTs).val, m.lowercase e.network, decimal e.height.val, hex.encode e.blockHash.val,
    decimal 0]

/-- `to_string` of `tikv-gc`. -/
def GcEntry.toText {τ : Type} (hex : Hex) (m : CaseMapping) (version : τ → U64) (e : GcEntry τ) : List Char :=
  [','].intercalate [decimal e.height.val, hex.encode e.blockHash.val, boolText e.wasMempool,
    decimal (version e.commitTs).val, m.lowercase e.network, decimal e.chainTipHeight.val,
    hex.encode e.chainTipHash.val, decimal e.mempoolViewTs.val]

/-! ## Fields are read back -/

theorem parseU64_decimal (n : U64) : parseU64 (decimal n.val) = some n := by
  unfold parseU64 decimal
  rw [Digits.parseUInt_of_lt (Digits.areDigits_toDigits _) Nat.toDigits_ne_nil (by rw [Digits.value_toDigits]; exact n.isLt)]
  exact congrArg some (Fin.ext (Digits.value_toDigits n.val))

theorem parseBool_boolText : ∀ b, parseBool (boolText b) = some b := by
  decide

theorem parseHash_encode (hex : Hex) (hash : Bytes32) : parseHash hex (hex.encode hash.val) = some hash := by
  unfold parseHash
  rw [hex.decode_encode, Option.bind_some, dif_pos hash.property]

/-- No field but the network can have a comma. -/
theorem comma_not_mem_decimal (n : Nat) : ',' ∉ decimal n := by
  intro h
  exact absurd (Digits.areDigits_toDigits n ',' h) (by decide)

theorem comma_not_mem_encode (hex : Hex) (bytes : List Byte) : ',' ∉ hex.encode bytes := by
  intro h
  exact absurd (hex.alphanum bytes ',' h) (by decide)

theorem comma_not_mem_boolText : ∀ b, ',' ∉ boolText b := by
  decide

theorem comma_not_mem_lowercase (m : CaseMapping) {s : List Char} (h : ',' ∉ s) : ',' ∉ m.lowercase s :=
  fun hmem => h (m.mem_of_mem_lowercase hmem (by decide) (by decide))

/-- What is written as bytes is read back as text. -/
theorem fromValue_bulkString {α : Type} (parse : List Char → Except String α) (s : List Char) :
    fromValue parse (.bulkString (asBytes (String.ofList s))) = parse s := by
  unfold fromValue
  dsimp only
  rw [Timbre.fromUtf8_asBytes, orMalformed, Fallible.ok_bind, String.toList_ofList]

/-! ## Lines are read back -/

section

variable {τ : Type} {hex : Hex} {m : CaseMapping} {version : τ → U64} {fromVersion : U64 → τ}

/-- The fields of a line. -/
theorem splitOn_toText {e : GcEntry τ} (hcomma : ',' ∉ e.network) :
    (e.toText hex m version).splitOn ',' =
      [decimal e.height.val, hex.encode e.blockHash.val, boolText e.wasMempool, decimal (version e.commitTs).val,
        m.lowercase e.network, decimal e.chainTipHeight.val, hex.encode e.chainTipHash.val,
        decimal e.mempoolViewTs.val] := by
  refine List.splitOn_intercalate ',' (fun field hfield => ?_) (by simp)
  simp only [List.mem_cons, List.not_mem_nil, or_false] at hfield
  rcases hfield with rfl | rfl | rfl | rfl | rfl | rfl | rfl | rfl
  · exact comma_not_mem_decimal _
  · exact comma_not_mem_encode hex _
  · exact comma_not_mem_boolText _
  · exact comma_not_mem_decimal _
  · exact comma_not_mem_lowercase m hcomma
  · exact comma_not_mem_decimal _
  · exact comma_not_mem_encode hex _
  · exact comma_not_mem_decimal _

/-- The first five fields of a line. -/
theorem parseHead_fields {e : GcEntry τ} (hversion : fromVersion (version e.commitTs) = e.commitTs)
    (rest : List (List Char)) :
    parseHead hex m fromVersion (decimal e.height.val :: hex.encode e.blockHash.val :: boolText e.wasMempool ::
        decimal (version e.commitTs).val :: m.lowercase e.network :: rest) =
      .ok ⟨e.height, e.blockHash, e.wasMempool, e.commitTs, m.lowercase e.network⟩ := by
  unfold parseHead
  simp only [List.getElem?_cons_zero, List.getElem?_cons_succ, Option.bind_some, parseU64_decimal, parseHash_encode,
    parseBool_boolText, Option.map_some, Option.getD_some, m.lowercase_idempotent, hversion, orMalformed,
    Fallible.ok_bind]
  rfl

/-- **An entry of the garbage collector is read back**, with its network in lower case. -/
theorem GcEntry.parse_toText {e : GcEntry τ} (hversion : fromVersion (version e.commitTs) = e.commitTs)
    (hcomma : ',' ∉ e.network) :
    GcEntry.parse hex m fromVersion (e.toText hex m version) = .ok { e with network := m.lowercase e.network } := by
  unfold GcEntry.parse
  rw [splitOn_toText hcomma]
  dsimp only
  rw [parseHead_fields hversion, Fallible.ok_bind]
  simp only [List.getElem?_cons_zero, List.getElem?_cons_succ, Option.bind_some, parseU64_decimal, parseHash_encode,
    Option.getD_some]
  rfl

/-- The indexer reads the first five fields of it. -/
theorem IndexerEntry.parse_toText {e : GcEntry τ} (hversion : fromVersion (version e.commitTs) = e.commitTs)
    (hcomma : ',' ∉ e.network) :
    IndexerEntry.parse hex m fromVersion (e.toText hex m version) =
      .ok ⟨e.height, e.blockHash, e.wasMempool, e.commitTs, m.lowercase e.network⟩ := by
  unfold IndexerEntry.parse
  rw [splitOn_toText hcomma, parseHead_fields hversion, Fallible.ok_bind]
  rfl

/-- What the garbage collector reads for an entry of the indexer: the block is its own chain tip. -/
def IndexerEntry.asTip (m : CaseMapping) (e : IndexerEntry τ) : GcEntry τ :=
  ⟨e.height, e.blockHash, e.wasMempool, e.commitTs, m.lowercase e.network, e.height, e.blockHash, 0⟩

end

/-- **The garbage collector reads what the indexer writes**, as text and as the bytes that are stored: the same block,
flag and timestamp, the network in lower case, the block as its own chain tip and no mempool view; and the indexer
reads the same first five fields. -/
theorem gc_reads_what_is_written {τ : Type} (hex : Hex) (m : CaseMapping) (version : τ → U64) (fromVersion : U64 → τ)
    (e : IndexerEntry τ) (hversion : fromVersion (version e.commitTs) = e.commitTs) (hcomma : ',' ∉ e.network) :
    (GcEntry.parse hex m fromVersion (e.toText hex m version) = .ok (e.asTip m) ∧
        fromValue (GcEntry.parse hex m fromVersion) (.bulkString (asBytes (String.ofList (e.toText hex m version)))) =
          .ok (e.asTip m)) ∧
      IndexerEntry.parse hex m fromVersion (e.toText hex m version) = .ok { e with network := m.lowercase e.network } ∧
      fromValue (IndexerEntry.parse hex m fromVersion) (.bulkString (asBytes (String.ofList (e.toText hex m version)))) =
        .ok { e with network := m.lowercase e.network } := by
  -- the line is the one that the garbage collector would write for the block as its own chain tip
  let asGc : GcEntry τ := ⟨e.height, e.blockHash, e.wasMempool, e.commitTs, e.network, e.height, e.blockHash, 0⟩
  have hline : e.toText hex m version = asGc.toText hex m version := rfl
  have hgc : GcEntry.parse hex m fromVersion (e.toText hex m version) = .ok (e.asTip m) := by
    rw [hline]
    exact GcEntry.parse_toText hversion hcomma
  have hindexer : IndexerEntry.parse hex m fromVersion (e.toText hex m version) =
      .ok { e with network := m.lowercase e.network } := by
    rw [hline]
    exact IndexerEntry.parse_toText hversion hcomma
  exact ⟨⟨hgc, by rw [fromValue_bulkString, hgc]⟩, hindexer, by rw [fromValue_bulkString, hindexer]⟩

/-- The version of a timestamp: 18 bits of it are the logical part. -/
def versionOf (ts : Nat × Nat) : U64 := Fin.ofNat (2 ^ 64) (ts.1 * 2 ^ 18 + ts.2)

/-- The timestamp of a version. -/
def ofVersion (v : U64) : Nat × Nat := (v.val / 2 ^ 18, v.val % 2 ^ 18)

/-- An entry for the main network, at version 456. -/
def mainnetEntry : IndexerEntry (Nat × Nat) := ⟨123, ⟨List.replicate 32 7, rfl⟩, true, (0, 456), "Mainnet".toList⟩

/-- The entry is read as its own chain tip, with the network in lower case. -/
theorem gc_reads_mainnet_entry :
    GcEntry.parse .lower CaseMapping.ascii ofVersion (mainnetEntry.toText .lower CaseMapping.ascii versionOf) =
      .ok (mainnetEntry.asTip CaseMapping.ascii) :=
  (gc_reads_what_is_written .lower CaseMapping.ascii versionOf ofVersion mainnetEntry (by decide) (by decide)).1.1

end DogeIndexer.Entries
