import DogeIndexer.Compressor.Types
import Mathlib.Data.List.Dedup
import Mathlib.Data.List.Sort

/-!
# Dunestones

Model of `compressor-xdg/src/storage/runes/dunes`: varints, edicts, the message of a
transaction and its deciphering, and the names that may be etched.
-/

set_option autoImplicit false

namespace DogeIndexer.Compressor

/-! ## Varints -/

namespace Varint

/-- The loop of `varint::decode`, from value `n` and position `i`. -/
def decodeFrom (n : U128) (i : Nat) : Bytes → U128 × Nat
  | [] => (n, i)
  | b :: bs =>
    let n := Machine.saturatingMul n 128
    if b.val < 128 then (Machine.saturatingAdd n (Fin.ofNat (2 ^ 128) b.val), i + 1)
    else decodeFrom (Machine.saturatingAdd n (Fin.ofNat (2 ^ 128) (b.val - 127))) (i + 1) bs

/-- `varint::decode`: the value and the number of bytes read. -/
def decode (buffer : Bytes) : U128 × Nat := decodeFrom 0 0 buffer

end Varint

/-! ## Names -/

/-- `Dune::STEPS`. -/
def Dune.STEPS : List Nat :=
  [0, 26, 702, 18278, 475254, 12356630, 321272406, 8353082582, 217180147158, 5646683826134,
    146813779479510, 3817158266467286, 99246114928149462, 2580398988131886038,
    67090373691429037014, 1744349715977154962390, 45353092615406029022166,
    1179180408000556754576342, 30658690608014475618984918, 797125955808376366093607894,
    20725274851017785518433805270, 538857146126462423479278937046,
    14010285799288023010461252363222, 364267430781488598271992561443798,
    9470953200318703555071806597538774, 246244783208286292431866971536008150,
    6402364363415443603228541259936211926, 166461473448801533683942072758341510102]

def RESERVED : Nat := 6402364363415443603228541259936211926
def CLAIM_BIT : Nat := 2 ^ 48
def MAX_LIMIT : Nat := 2 ^ 64 - 1
def MAX_DIVISIBILITY : Nat := 38
def MAX_SPACERS : Nat := 0b00000111_11111111_11111111_11111111

/-- `SUBSIDY_HALVING_INTERVAL_10X`. -/
def HalvingInterval.tenfold (halving : HalvingInterval) : Nat := halving.blocks * 10

/-- `INTERVAL`, the blocks per letter. -/
def HalvingInterval.interval (halving : HalvingInterval) : Nat := halving.tenfold / 12

inductive Chain where
  | mainnet
  | testnet
  | signet
  | regtest
  deriving DecidableEq

def Chain.firstDuneHeight : Chain → Nat
  | .mainnet => 5084000
  | .regtest => 0
  | .signet => 0
  | .testnet => 4250000

/-- `Dune::minimum_at_height`, at a `u32` height. -/
def Dune.minimumAtHeight (halving : HalvingInterval) (chain : Chain) (height : Nat) : Nat :=
  let offset := min (height + 1) (2 ^ 32 - 1)
  let interval := halving.interval
  let start := chain.firstDuneHeight
  let stop := start + halving.tenfold
  if offset < start then Dune.STEPS.getD 12 0
  else if offset ≥ stop then 0
  else
    let progress := offset - start
    let length := 12 - progress / interval
    let lower := Dune.STEPS.getD (length - 1) 0
    let upper := Dune.STEPS.getD length 0
    let remainder := progress % interval
    upper - (upper - lower) * remainder / interval

/-- `Dune::is_reserved`. -/
def Dune.isReserved (dune : U128) : Bool := dune.val ≥ RESERVED

/-- `Dune::reserved`; the sum of `RESERVED` and a `u64` fits. -/
def Dune.reserved (n : U64) : U128 := Fin.ofNat (2 ^ 128) (RESERVED + n.val)

/-- `claim`: the id that a claim edict names. -/
def claim (id : U128) : Option U128 :=
  if id.val.testBit 48 then some (Fin.ofNat (2 ^ 128) (id.val ^^^ CLAIM_BIT)) else none

/-! ## Messages -/

structure Edict where
  id : U128
  amount : U128
  output : U128
  deriving DecidableEq

/-- `Edict::from_integers`. -/
def Edict.fromIntegers (tx : Transaction) (id amount output : U128) : Option Edict :=
  match DuneId.tryFrom id with
  | none => none
  | some duneId =>
    if duneId.block = 0 ∧ duneId.tx > 0 then none
    else if output.val > tx.output.length then none
    else some ⟨id, amount, output⟩

inductive Tag where
  | body
  | flags
  | dune
  | limit
  | offsetEnd
  | pointer
  | heightStart
  | offsetStart
  | heightEnd
  | cap
  | premine
  | divisibility
  | spacers
  | symbol
  deriving DecidableEq

def Tag.toU128 : Tag → U128
  | .body => 0
  | .flags => 2
  | .dune => 4
  | .limit => 6
  | .offsetEnd => 8
  | .pointer => 12
  | .heightStart => 14
  | .offsetStart => 16
  | .heightEnd => 18
  | .cap => 20
  | .premine => 22
  | .divisibility => 1
  | .spacers => 3
  | .symbol => 5

/-- `Tag::take`. -/
def Tag.take (tag : Tag) (fields : Table U128 U128) : Option U128 × Table U128 U128 :=
  (fields.get tag.toU128, fields.erase tag.toU128)

structure Message where
  cenotaph : Bool
  fields : Table U128 U128
  edicts : List Edict

/-- The edicts after the body tag: triples with delta-encoded ids; a malformed one makes a
cenotaph. -/
def bodyEdicts (tx : Transaction) : U128 → List U128 → Bool × List Edict
  | id, a :: b :: c :: rest =>
    let id := Machine.saturatingAdd id a
    let (cenotaph, edicts) := bodyEdicts tx id rest
    match Edict.fromIntegers tx id b c with
    | some edict => (cenotaph, edict :: edicts)
    | none => (true, edicts)
  | _, _ => (false, [])

/-- `Message::from_integers`; the first value of a tag counts. -/
def Message.fromIntegers (tx : Transaction) (fields : Table U128 U128) : List U128 → Message
  | [] => ⟨false, fields, []⟩
  | tag :: rest =>
    if tag = Tag.body.toU128 then
      let (cenotaph, edicts) := bodyEdicts tx 0 rest
      ⟨cenotaph, fields, edicts⟩
    else
      match rest with
      | [] => ⟨false, fields, []⟩
      | value :: rest =>
        fromIntegers tx (if (fields.get tag).isSome then fields else fields.insert tag value) rest

/-! ## Dunestone -/

structure Terms where
  limit : Option U128
  cap : Option U128
  height : Option Nat × Option Nat
  offset : Option Nat × Option Nat
  deriving DecidableEq

structure Etching where
  divisibility : Option Nat
  terms : Option Terms
  premine : Option U128
  dune : Option U128
  spacers : Option Nat
  symbol : Option Char
  turbo : Bool
  deriving DecidableEq

structure Dunestone where
  edicts : List Edict
  etching : Option Etching
  pointer : Option Nat
  cenotaph : Bool
  deriving DecidableEq

/-- `uN::try_from(u128).ok()`. -/
def tryNat (bound : Nat) (n : U128) : Option Nat := if n.val < bound then some n.val else none

/-- `char::from_u32`. -/
def charFromU32 (n : Nat) : Option Char := if h : n.isValidChar then some (Char.ofNatAux n h) else none

/-- `Flag::take`, for the flag of bit `k`. -/
def takeFlag (k : Nat) (flags : Nat) : Bool × Nat :=
  (flags.testBit k, if flags.testBit k then flags - 2 ^ k else flags)

/-- The pushes of the remaining instructions. -/
def collectPushes : List (Option Instruction) → Option Bytes
  | [] => some []
  | none :: _ => none
  | some (.pushBytes bytes) :: rest => (collectPushes rest).map (bytes ++ ·)
  | some (.op _) :: rest => collectPushes rest

def OP_RETURN : Byte := 106

namespace Dunestone

/-- `Dunestone::payload`: the pushes of the first output that starts with `OP_RETURN "D"`;
`none` on a script error. -/
def payload (deps : Deps) : List TxOut → Option (Option Bytes)
  | [] => some none
  | output :: outputs =>
    match deps.instructions output.scriptPubkey with
    | none :: _ => none
    | [] => payload deps outputs
    | some i :: rest =>
      if i ≠ .op OP_RETURN then payload deps outputs
      else
        match rest with
        | none :: _ => none
        | [] => payload deps outputs
        | some j :: rest =>
          if j ≠ .pushBytes [68] then payload deps outputs else (collectPushes rest).map some

/-- The loop of `Dunestone::integers`; each turn reads at least one byte. -/
def integersFrom : Nat → Bytes → List U128
  | 0, _ => []
  | fuel + 1, payload =>
    if payload.isEmpty then []
    else
      let (integer, length) := Varint.decode payload
      integer :: integersFrom fuel (payload.drop length)

/-- `Dunestone::integers`. -/
def integers (payload : Bytes) : List U128 := integersFrom payload.length payload

/-- The dunestone of a message. -/
def ofMessage (message : Message) : Dunestone :=
  let (pointer, fields) := Tag.pointer.take message.fields
  let (divisibility, fields) := Tag.divisibility.take fields
  let (limit, fields) := Tag.limit.take fields
  let limit := limit.map fun limit => min limit (Fin.ofNat (2 ^ 128) MAX_LIMIT)
  let (dune, fields) := Tag.dune.take fields
  let (cap, fields) := Tag.cap.take fields
  let (premine, fields) := Tag.premine.take fields
  let edicts := if premine.getD 0 > 0 then message.edicts ++ [⟨0, premine.getD 0, 1⟩]
    else message.edicts
  let (spacers, fields) := Tag.spacers.take fields
  let (symbol, fields) := Tag.symbol.take fields
  let (heightStart, fields) := Tag.heightStart.take fields
  let (heightEnd, fields) := Tag.heightEnd.take fields
  let (offsetStart, fields) := Tag.offsetStart.take fields
  let (offsetEnd, fields) := Tag.offsetEnd.take fields
  let (flags, fields) := Tag.flags.take fields
  let (etch, flags) := takeFlag 0 (flags.getD 0).val
  let (terms, flags) := takeFlag 1 flags
  let (turbo, flags) := takeFlag 2 flags
  let overflow := (cap.getD 0).val * (limit.getD 0).val ≥ 2 ^ 128 ∨
    (premine.getD 0).val + (cap.getD 0).val * (limit.getD 0).val ≥ 2 ^ 128
  let etching := if etch then
      some {
        divisibility := (divisibility.bind (tryNat (2 ^ 8))).filter (· ≤ MAX_DIVISIBILITY)
        dune := dune
        spacers := (spacers.bind (tryNat (2 ^ 32))).filter (· ≤ MAX_SPACERS)
        symbol := (symbol.bind (tryNat (2 ^ 32))).bind charFromU32
        terms := if terms then
            some {
              cap := cap
              height := (heightStart.bind (tryNat (2 ^ 64)), heightEnd.bind (tryNat (2 ^ 64)))
              limit := limit
              offset := (offsetStart.bind (tryNat (2 ^ 64)), offsetEnd.bind (tryNat (2 ^ 64))) }
          else none
        premine := premine
        turbo := turbo }
    else none
  { cenotaph := message.cenotaph || decide overflow || flags != 0 ||
      fields.entries.any (fun e => e.1.val % 2 = 0)
    pointer := pointer.bind (tryNat (2 ^ 32))
    edicts := edicts
    etching := etching }

/-- `Dunestone::from_transaction`: `decipher`, with errors ignored. -/
def fromTransaction (deps : Deps) (tx : Transaction) : Option Dunestone :=
  ((payload deps tx.output).join).map fun payload =>
    ofMessage (Message.fromIntegers tx Table.empty (integers payload))

/-- The claims of a dunestone, sorted and without repetition. -/
def claims (dunestone : Dunestone) : List U128 :=
  ((dunestone.edicts.filterMap (fun edict => claim edict.id)).insertionSort (· ≤ ·)).dedup

end Dunestone

end DogeIndexer.Compressor
