import Tac.Text.Decimal

/-!
# Binary log values

Sets are logged in a compact binary form: a missing value is one byte, a list is opened by a byte of
its own and closed by a break byte, and its items are unsigned integers or short texts.  An integer
takes one byte below 24 and otherwise a width byte followed by 1, 2, 4 or 8 bytes, most significant
first.
-/

namespace Tac.Wire

/-- Bytes, each in the range 0 to 255. -/
abbrev Bytes := List Nat

/-- The big-endian bytes of `n` in `width` bytes. -/
def bigEndian : Nat → Nat → Bytes
  | 0, _ => []
  | width + 1, n => bigEndian width (n / 256) ++ [n % 256]

/-- An integer `n` under the major kind `kind` (0 for numbers, 3 for texts). -/
def head (kind : Nat) (n : Nat) : Bytes :=
  let k := kind * 32
  if n < 24 then [k + n]
  else if n < 256 then (k + 24) :: bigEndian 1 n
  else if n < 65536 then (k + 25) :: bigEndian 2 n
  else if n < 4294967296 then (k + 26) :: bigEndian 4 n
  else (k + 27) :: bigEndian 8 n

/-- An unsigned integer. -/
def nat (n : Nat) : Bytes := head 0 n

/-- A text: its length in bytes, then its bytes. -/
def text (s : String) : Bytes :=
  head 3 s.utf8ByteSize ++ s.toUTF8.toList.map UInt8.toNat

/-- The missing value. -/
def null : Bytes := [0xF6]

/-- A list of encoded items, opened and closed. -/
def list (items : List Bytes) : Bytes := 0x9F :: items.flatten ++ [0xFF]

/-- Bytes as lower-case hexadecimal text. -/
def hex (bs : Bytes) : String := String.join (bs.map (Text.hexDigits 2))

end Tac.Wire
