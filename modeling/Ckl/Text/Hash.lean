/-!
# Hashes of texts

A hash of 64 bits for a text: its bytes are folded eight at a time, each pair of words multiplied to
128 bits whose halves are combined. Equal texts have equal hashes, and nothing else is asked of them:
where a text is kept in a table may depend on its hash, what the table holds does not.
-/

namespace Ckl.Text

/-- The halves of a product of 128 bits, combined. -/
def foldedProduct (x y : UInt64) : UInt64 :=
  let product := x.toNat * y.toNat
  UInt64.ofNat product ^^^ UInt64.ofNat (product / Nat.pow 2 64)

/-- The number that bytes write, the lowest first. -/
def littleEndian (bytes : List UInt8) : UInt64 :=
  bytes.foldr (fun byte word => word <<< 8 ||| byte.toUInt64) 0

/-- The two words that hashing starts from. -/
def hashSeeds : UInt64 × UInt64 := (0x243f6a8885a308d3, 0x13198a2e03707344)

/-- A word that keeps zeros in the text from making the product zero. -/
def hashGuard : UInt64 := 0xa4093822299f31d0

/-- The words after `blocks` blocks of sixteen bytes. -/
def hashBlocks : (blocks : Nat) → List UInt8 → UInt64 × UInt64 → UInt64 × UInt64
  | 0, _, words => words
  | blocks + 1, bytes, (first, second) =>
    let x := littleEndian (bytes.take 8)
    let y := littleEndian ((bytes.drop 8).take 8)
    hashBlocks blocks (bytes.drop 16) (second, foldedProduct (first ^^^ x) (hashGuard ^^^ y))

/-- Two words that stand for at most sixteen bytes: the ends of the text, which may overlap. -/
def shortWords (bytes : List UInt8) : UInt64 × UInt64 :=
  let size := bytes.length
  if 8 ≤ size then (littleEndian (bytes.take 8), littleEndian (bytes.drop (size - 8)))
  else if 4 ≤ size then (littleEndian (bytes.take 4), littleEndian (bytes.drop (size - 4)))
  else
    let byte (index : Nat) : UInt64 := (bytes[index]?.getD 0).toUInt64
    (byte 0, byte (size - 1) <<< 8 ||| byte (size / 2))

/-- The hash of bytes. -/
def hashBytes (bytes : List UInt8) : UInt64 :=
  let size := bytes.length
  let words := hashBlocks ((size - 1) / 16) bytes hashSeeds
  let last := if size ≤ 16 then shortWords bytes else shortWords (bytes.drop (size - 16))
  foldedProduct (words.1 ^^^ last.1) (words.2 ^^^ last.2) ^^^ UInt64.ofNat size

/-- The factor that spreads a hash to its upper bits. -/
def spreadFactor : UInt64 := 0xf1357aea2e62a9c5

/-- Marks the end of a text. -/
def endMark : UInt64 := 0xff

/-- The hash of a text: that of its UTF-8 bytes, spread, with the upper bits brought down. -/
def hash (text : String) : UInt64 :=
  let spread := (hashBytes text.toUTF8.toList * spreadFactor + endMark) * spreadFactor
  spread <<< 26 ||| spread >>> 38

end Ckl.Text
