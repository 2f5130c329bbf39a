import DogeIndexer.Compressor.Types

/-!
# Inscriptions and DRC-20 messages

Model of the inscription parser (`storage/inscriptions/inscription.rs`) and of the DRC-20
messages carried by inscriptions (`storage/inscriptions/brc20.rs`).
-/

set_option autoImplicit false

namespace DogeIndexer.Compressor

/-- Bytes of ASCII characters. -/
def ascii (chars : List Char) : Bytes := chars.map fun c => Fin.ofNat 256 c.toNat

/-! ## UTF-8 -/

/-- `std::str::from_utf8` succeeds: no overlong forms, surrogates or values above `10FFFF`. -/
def utf8Valid : Bytes → Bool
  | [] => true
  | a :: rest =>
    if a.val < 0x80 then utf8Valid rest
    else
      match rest with
      | b :: rest =>
        if 0xC2 ≤ a.val ∧ a.val ≤ 0xDF then (0x80 ≤ b.val && b.val ≤ 0xBF) && utf8Valid rest
        else
          match rest with
          | c :: rest =>
            if 0xE0 ≤ a.val ∧ a.val ≤ 0xEF then
              ((if a.val = 0xE0 then 0xA0 else 0x80) ≤ b.val &&
                b.val ≤ (if a.val = 0xED then 0x9F else 0xBF) &&
                0x80 ≤ c.val && c.val ≤ 0xBF) && utf8Valid rest
            else
              match rest with
              | d :: rest =>
                (0xF0 ≤ a.val && a.val ≤ 0xF4 && (if a.val = 0xF0 then 0x90 else 0x80) ≤ b.val &&
                  b.val ≤ (if a.val = 0xF4 then 0x8F else 0xBF) &&
                  0x80 ≤ c.val && c.val ≤ 0xBF && 0x80 ≤ d.val && d.val ≤ 0xBF) && utf8Valid rest
              | [] => false
          | [] => false
      | [] => false

/-! ## The parser -/

structure Inscription where
  body : Bytes
  contentType : Bytes
  deriving DecidableEq

inductive ParsedInscription where
  | none
  | partial_
  | complete (inscription : Inscription)
  deriving DecidableEq

namespace InscriptionParser

/-- A push of `len` bytes after a header of `header` bytes. -/
def takePush (header len : Nat) (bytes : Bytes) : Option (Bytes × Bytes) :=
  if bytes.length < header + len then none
  else some ((bytes.drop header).take len, bytes.drop (header + len))

/-- The first push of a non-empty script and the rest; the lengths of `op_pushdata2` and
`op_pushdata4` are decoded as the reference parser decodes them. -/
def nextPush (bytes : Bytes) : Option (Bytes × Bytes) :=
  match bytes with
  | [] => none
  | op :: _ =>
    if op.val = 0 then some ([], bytes.drop 1)
    else if 81 ≤ op.val ∧ op.val ≤ 96 then some ([Fin.ofNat 256 (op.val - 80)], bytes.drop 1)
    else if 1 ≤ op.val ∧ op.val ≤ 75 then takePush 1 op.val bytes
    else if op.val = 76 then
      if bytes.length < 2 then none else takePush 2 (bytes.getD 1 0).val bytes
    else if op.val = 77 then
      if bytes.length < 3 then none
      else takePush 3 ((bytes.getD 1 0).val * 2 ^ 8 + op.val) bytes
    else if op.val = 78 then
      if bytes.length < 5 then none
      else takePush 5 ((bytes.getD 3 0).val * 2 ^ 24 + (bytes.getD 2 0).val * 2 ^ 16 +
        (bytes.getD 1 0).val * 2 ^ 8 + op.val) bytes
    else none

/-- The loop of `decode_push_datas`; each turn consumes at least one byte. -/
def decodePushDatasFrom : Nat → Bytes → Option (List Bytes)
  | 0, _ => some []
  | fuel + 1, bytes =>
    if bytes.isEmpty then some []
    else (nextPush bytes).bind fun (push, rest) => (decodePushDatasFrom fuel rest).map (push :: ·)

/-- `decode_push_datas`. -/
def decodePushDatas (script : Bytes) : Option (List Bytes) := decodePushDatasFrom script.length script

/-- `push_data_to_number`: little-endian, at most eight bytes. -/
def pushDataToNumber (data : Bytes) : Option Nat :=
  if data.length > 8 then none else some (data.foldr (fun b acc => b.val + 256 * acc) 0)

/-- The inner loop: chunks that count down from `npieces - 1`. -/
def readChunks (npieces : Nat) (body : Bytes) : List Bytes → Nat × Bytes
  | number :: data :: rest =>
    if npieces = 0 then (0, body)
    else if pushDataToNumber number = some (npieces - 1) then readChunks (npieces - 1) (body ++ data) rest
    else (npieces, body)
  | _ => (npieces, body)

/-- The outer loop: over the scripts that follow the current one. -/
def readScripts (contentType : Bytes) (npieces : Nat) (body : Bytes) (pushDatas : List Bytes) :
    List Bytes → ParsedInscription
  | [] =>
    match readChunks npieces body pushDatas with
    | (0, body) => .complete ⟨body, contentType⟩
    | _ => .partial_
  | script :: scripts =>
    match readChunks npieces body pushDatas with
    | (0, body) => .complete ⟨body, contentType⟩
    | (npieces, body) =>
      match decodePushDatas script with
      | some (number :: data :: rest) =>
        if pushDataToNumber number = some (npieces - 1) then
          readScripts contentType npieces body (number :: data :: rest) scripts
        else .none
      | _ => .none

/-- `InscriptionParser::parse`. -/
def parse : List Bytes → ParsedInscription
  | [] => .none
  | script :: scripts =>
    match decodePushDatas script with
    | some (protocol :: pieces :: contentType :: rest) =>
      if protocol ≠ ascii ['o', 'r', 'd'] then .none
      else
        match pushDataToNumber pieces with
        | none => .none
        | some 0 => .none
        | some npieces => readScripts contentType npieces [] rest scripts
    | _ => .none

end InscriptionParser

namespace Inscription

/-- `Inscription::from_transactions`: the first inputs' scripts. -/
def fromTransactions (txs : List Transaction) : ParsedInscription :=
  match txs.mapM (fun tx => tx.input.head?) with
  | some inputs => InscriptionParser.parse (inputs.map TxIn.scriptSig)
  | none => .none

/-- `content_type`. -/
def contentTypeStr (i : Inscription) : Option Bytes :=
  if utf8Valid i.contentType then some i.contentType else none

end Inscription

/-! ## DRC-20 messages -/

namespace BRC20

def textPlain : Bytes := ascii ['t', 'e', 'x', 't', '/', 'p', 'l', 'a', 'i', 'n']

def applicationJson : Bytes :=
  ascii ['a', 'p', 'p', 'l', 'i', 'c', 'a', 't', 'i', 'o', 'n', '/', 'j', 's', 'o', 'n']

/-- `unparsed_message`. -/
def unparsedMessage (deps : Deps) (inscription : Inscription) : Option RawProtocolMessage :=
  match inscription.contentTypeStr with
  | none => none
  | some ct =>
    let ct := ct.takeWhile (fun b => b ≠ 59)
    if ct ≠ textPlain ∧ ct ≠ applicationJson then none
    else if utf8Valid inscription.body = false then none
    else
      match deps.fromJson inscription.body with
      | none => none
      | some raw => if raw.p = ascii ['d', 'r', 'c', '-', '2', '0'] then some raw else none

def isDigit (b : Byte) : Bool := 48 ≤ b.val && b.val ≤ 57

/-- Decimal value of digits. -/
def digitsVal (l : Bytes) : Nat := l.foldl (fun acc b => acc * 10 + (b.val - 48)) 0

/-- `str::parse` to an unsigned integer below `bound`, on digits. -/
def parseUnsigned (bound : Nat) (l : Bytes) : Option Nat :=
  if l.isEmpty then none else if digitsVal l < bound then some (digitsVal l) else none

/-- `parse_decimal`; with `dec ≤ 18` the result fits in a `u128`. -/
def parseDecimal (m : Bytes) (dec : Nat) : Option U128 :=
  if m.any (fun b => !(isDigit b || b = 46)) then none
  else if m.head? = some 46 ∨ m.getLast? = some 46 then none
  else
    match m.splitOn 46 with
    | [integer] => (parseUnsigned (2 ^ 64) integer).map fun i => Fin.ofNat (2 ^ 128) (i * 10 ^ dec)
    | [integer, decimal] =>
      (parseUnsigned (2 ^ 64) integer).bind fun i =>
        if decimal.length > dec then none
        else some (Fin.ofNat (2 ^ 128)
          (i * 10 ^ dec + digitsVal decimal * 10 ^ (dec - decimal.length)))
    | _ => none

structure DeployAction where
  ticker : Ticker
  max : U128
  limit : U128
  dec : Nat
  selfMint : Bool

/-- The decimals of a deployment, 18 by default. -/
def deployDec (raw : RawProtocolMessage) : Option Nat :=
  let dec := raw.dec.getD (ascii ['1', '8'])
  if dec.any (fun b => !isDigit b) then none
  else (parseUnsigned (2 ^ 8) dec).filter (· ≤ 18)

/-- `DeployAction::parse`. -/
def DeployAction.parse (deps : Deps) (raw : RawProtocolMessage) : Option DeployAction :=
  if raw.op ≠ ascii ['d', 'e', 'p', 'l', 'o', 'y'] then none
  else if raw.tick.length ≠ 4 then none
  else do
    let dec ← deployDec raw
    let max ← raw.max
    let max ← parseDecimal max dec
    if max = 0 then none
    else do
      let limit ← (match raw.lim with
        | some lim => (parseDecimal lim dec).filter (· ≠ 0)
        | none => some max)
      return ⟨deps.toLowercase raw.tick, max, limit, dec, false⟩

/-- `MintAction` and `TransferAction`. -/
structure AmountAction where
  ticker : Ticker
  amt : U128

/-- `MintAction::parse`. -/
def MintAction.parse (deps : Deps) (raw : RawProtocolMessage) (terms : BRC20Terms) : Option AmountAction :=
  if raw.op ≠ ascii ['m', 'i', 'n', 't'] then none
  else do
    let amt ← raw.amt
    let amt ← parseDecimal amt terms.dec
    if amt > terms.mintAmtLimit then none
    else if amt = 0 then none
    else some ⟨deps.toLowercase raw.tick, amt⟩

/-- `TransferAction::parse`. -/
def TransferAction.parse (deps : Deps) (raw : RawProtocolMessage) (terms : BRC20Terms) :
    Option AmountAction :=
  if raw.op ≠ ascii ['t', 'r', 'a', 'n', 's', 'f', 'e', 'r'] then none
  else do
    let amt ← raw.amt
    let amt ← parseDecimal amt terms.dec
    if amt = 0 then none else some ⟨deps.toLowercase raw.tick, amt⟩

end BRC20

end DogeIndexer.Compressor
