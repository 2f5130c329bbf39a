import DogeIndexer.Lib.Machine

/-!
# Base64

A coding of bytes as text, of which only the round trip is known, and the one with the URL-safe
alphabet without padding: three bytes are four digits of six bits, and one or two bytes at the end
are two or three digits whose last bits are zero.  A text with another letter, with one digit left
over or with other last bits is rejected.

* `Base64` — a coding.
* `urlSafe` — the coding with the URL-safe alphabet.
-/

set_option autoImplicit false

namespace DogeIndexer

/-- A coding of bytes as text: what is encoded is read back. -/
structure Base64 where
  encode : List Byte → String
  decode : String → Option (List Byte)
  decode_encode : ∀ bytes, decode (encode bytes) = some bytes

namespace Base64

/-- The digits, in order. -/
def alphabet : List Char := "ABCDEFGHIJKLMNOPQRSTUVWXYZabcdefghijklmnopqrstuvwxyz0123456789-_".toList

def symbol (i : Nat) : Char := alphabet.getD i 'A'

def digit (c : Char) : Option Nat := alphabet.idxOf? c

/-- The bytes `a`, `b`, `c` as digits. -/
def encodeList : List Byte → List Char
  | [] => []
  | [a] => [symbol (a.val / 4), symbol (a.val % 4 * 16)]
  | [a, b] => [symbol (a.val / 4), symbol (a.val % 4 * 16 + b.val / 16), symbol (b.val % 16 * 4)]
  | a :: b :: c :: l =>
    symbol (a.val / 4) :: symbol (a.val % 4 * 16 + b.val / 16) :: symbol (b.val % 16 * 4 + c.val / 64) ::
      symbol (c.val % 64) :: encodeList l

/-- A byte from bits that are already below 256. -/
def byte (n : Nat) : Byte := ⟨n % 256, Nat.mod_lt n (by decide)⟩

def decodeList : List Char → Option (List Byte)
  | [] => some []
  | [_] => none
  | [s, t] => do
    let i ← digit s
    let j ← digit t
    if j % 16 = 0 then some [byte (i * 4 + j / 16)] else none
  | [s, t, u] => do
    let i ← digit s
    let j ← digit t
    let k ← digit u
    if k % 4 = 0 then some [byte (i * 4 + j / 16), byte (j % 16 * 16 + k / 4)] else none
  | s :: t :: u :: v :: l => do
    let i ← digit s
    let j ← digit t
    let k ← digit u
    let m ← digit v
    let rest ← decodeList l
    some (byte (i * 4 + j / 16) :: byte (j % 16 * 16 + k / 4) :: byte (k % 4 * 64 + m) :: rest)

theorem digit_symbol {i : Nat} (h : i < 64) : digit (symbol i) = some i := by
  have hall : ∀ i : Fin 64, digit (symbol i.val) = some i.val := by decide +kernel
  exact hall ⟨i, h⟩

theorem byte_eq {n : Nat} {a : Byte} (h : n = a.val) : byte n = a := by
  subst h
  exact Fin.ext (Nat.mod_eq_of_lt a.isLt)

theorem decodeList_encodeList (l : List Byte) : decodeList (encodeList l) = some l := by
  induction l using encodeList.induct with
  | case1 => rfl
  | case2 a =>
    have ha := a.isLt
    simp only [encodeList, decodeList, digit_symbol (show a.val / 4 < 64 by omega),
      digit_symbol (show a.val % 4 * 16 < 64 by omega), Option.bind_eq_bind, Option.bind_some]
    rw [if_pos (by omega), byte_eq (a := a) (by omega)]
  | case3 a b =>
    have ha := a.isLt
    have hb := b.isLt
    simp only [encodeList, decodeList, digit_symbol (show a.val / 4 < 64 by omega),
      digit_symbol (show a.val % 4 * 16 + b.val / 16 < 64 by omega),
      digit_symbol (show b.val % 16 * 4 < 64 by omega), Option.bind_eq_bind, Option.bind_some]
    rw [if_pos (by omega), byte_eq (a := a) (by omega), byte_eq (a := b) (by omega)]
  | case4 a b c l ih =>
    have ha := a.isLt
    have hb := b.isLt
    have hc := c.isLt
    simp only [encodeList, decodeList, ih, digit_symbol (show a.val / 4 < 64 by omega),
      digit_symbol (show a.val % 4 * 16 + b.val / 16 < 64 by omega),
      digit_symbol (show b.val % 16 * 4 + c.val / 64 < 64 by omega), digit_symbol (show c.val % 64 < 64 by omega),
      Option.bind_eq_bind, Option.bind_some]
    rw [byte_eq (a := a) (by omega), byte_eq (a := b) (by omega), byte_eq (a := c) (by omega)]

/-- The coding with the URL-safe alphabet, without padding. -/
def urlSafe : Base64 where
  encode bytes := String.ofList (encodeList bytes)
  decode text := decodeList text.toList
  decode_encode bytes := by rw [String.toList_ofList, decodeList_encodeList]

end Base64

end DogeIndexer
