import JavaMinus.BitSet
import JavaMinus.Diagnostic

/-!
# The binary log format

Log records are written in a compact binary form. An item starts with a head: a
tag in the upper three bits and a number in the lower five. Numbers below 24
stand in the head itself; larger ones follow it in one, two, four or eight
bytes, the most significant byte first.
-/

namespace JavaMinus.Wire

/-- The kinds of items. -/
inductive Tag where
  | nonneg
  | negative
  | text
  | array
  | map

/-- The upper bits of a head. -/
def Tag.bits : Tag → Nat
  | nonneg => 0x00
  | negative => 0x20
  | text => 0x60
  | array => 0x80
  | map => 0xa0

/-- A number in `count` bytes, the most significant byte first. -/
def bigEndian (count n : Nat) : List UInt8 :=
  (List.range count).reverse.map fun k => (n / Nat.pow 256 k).toUInt8

/-- A head with its number, in the shortest form. -/
def head (tag : Tag) (n : Nat) : List UInt8 :=
  if n < 24 then [(tag.bits + n).toUInt8]
  else if n < 0x100 then (tag.bits + 0x18).toUInt8 :: bigEndian 1 n
  else if n < 0x10000 then (tag.bits + 0x19).toUInt8 :: bigEndian 2 n
  else if n < 0x100000000 then (tag.bits + 0x1a).toUInt8 :: bigEndian 4 n
  else (tag.bits + 0x1b).toUInt8 :: bigEndian 8 n

/-- An integer. A negative one is written as one more than its absolute value. -/
def int (v : Int) : List UInt8 :=
  if 0 ≤ v then head .nonneg v.toNat else head .negative (-v + 1).toNat

/-- A text: its length in bytes, then its bytes. -/
def text (s : String) : List UInt8 :=
  head .text s.utf8ByteSize ++ s.toUTF8.toList

/-- The null value. -/
def null : List UInt8 := [0xf6]

/-- A set: the null value if it has no storage, else a list of unstated length. -/
def bitSet (s : BitSet) : List UInt8 :=
  if s.hasStorage then 0x9f :: s.toList.flatMap (fun i => int (Int.ofNat i)) ++ [0xff] else null

/-- A diagnostic: a map with five entries. -/
def diagnostic (d : Diagnostic) : List UInt8 :=
  head .map 5 ++
    text "stage" ++ text d.stage.text ++
    text "severity" ++ text d.severity.text ++
    text "line" ++ int d.line ++
    text "col" ++ int d.col ++
    text "msg" ++ text d.message

end JavaMinus.Wire
