import Ckl.Number.Shortest
import Ckl.Text.Blank

/-!
# Numbers as text

How numbers are written and read. An integer is its decimal digits. A double below `10 ^ 16` that has
no fraction is written with one digit after the point, all others with the fewest digits that read
back, always in positional notation. A key writes doubles without fraction as integers, so that equal
numbers of the two kinds have one key. `readWhole` and `readDecimal` read the texts of scripts.
-/

namespace Ckl.Number

/-- The decimal digits of a natural number. -/
def digitsOf (n : Nat) : List Char := Nat.toDigits 10 n

/-- The value of decimal digits. -/
def ofDigits (cs : List Char) : Nat := Nat.ofDigitChars 10 cs 0

/-- A minus sign for negative numbers. -/
def minus (negative : Bool) : List Char := if negative then ['-'] else []

/-- The digits of an integer behind its sign. -/
def wholeText (n : Int) : List Char := minus (n < 0) ++ digitsOf n.natAbs

/-- A decimal in positional notation. -/
def Scaled.positional (scaled : Scaled) : List Char :=
  let ds := digitsOf scaled.digits
  if 0 ≤ scaled.exponent then ds ++ List.replicate scaled.exponent.toNat '0'
  else
    let places := (-scaled.exponent).toNat
    if places < ds.length then
      ds.take (ds.length - places) ++ '.' :: ds.drop (ds.length - places)
    else '0' :: '.' :: (List.replicate (places - ds.length) '0' ++ ds)

/-- The shortest text of a size that is not zero. -/
def shortestText (mantissa : Nat) (exponent : Int) : List Char :=
  (shortest mantissa exponent).positional

/-- From this size on, doubles without fraction are written with their fewest digits alone. -/
def pointLimit : Nat := Nat.pow 10 16

/-- The canonical text of a double. -/
def decimalText (x : Float) : List Char :=
  match Binary64.ofFloat x with
  | .nan => "NaN".toList
  | .infinite negative => minus negative ++ "inf".toList
  | .finite negative mantissa exponent =>
    let size := Binary64.truncated mantissa exponent
    minus negative ++
      (if Binary64.integral mantissa exponent && size < pointLimit then digitsOf size ++ ['.', '0']
      else shortestText mantissa exponent)

/-- The text of a double in keys: exact digits when there is no fraction, and one zero. -/
def decimalKey (x : Float) : List Char :=
  match Binary64.ofFloat x with
  | .nan => "NaN".toList
  | .infinite negative => minus negative ++ "inf".toList
  | .finite negative mantissa exponent =>
    if mantissa = 0 then ['0']
    else minus negative ++
      (if Binary64.integral mantissa exponent then digitsOf (Binary64.truncated mantissa exponent)
      else shortestText mantissa exponent)

/-! ## Reading -/

/-- A sign in front, if there is one: whether it is a minus, and the rest. -/
def takeSign : List Char → Bool × List Char
  | '-' :: rest => (true, rest)
  | '+' :: rest => (false, rest)
  | cs => (false, cs)

/-- Whether the characters are decimal digits, at least one. -/
def areDigits (cs : List Char) : Bool := !cs.isEmpty && cs.all Char.isDigit

/-- Reads a number that is not negative: a plus sign, if any, and digits. -/
def readNatural (cs : List Char) : Option Nat :=
  let body := match cs with
    | '+' :: rest => rest
    | cs => cs
  if areDigits body then some (ofDigits body) else none

/-- An integer that 64 bits hold. -/
def whole? (n : Int) : Option Int64 :=
  if Int64.minValue.toInt ≤ n ∧ n ≤ Int64.maxValue.toInt then some (Int64.ofInt n) else none

theorem toInt_of_whole? {n : Int} {value : Int64} (h : whole? n = some value) : value.toInt = n := by
  unfold whole? at h
  split at h
  · next hfits =>
    cases h
    exact Int64.toInt_ofInt_of_le hfits.1 (Int.lt_add_one_of_le hfits.2)
  · cases h

/-- Reads an integer of 64 bits: a sign, if any, and digits. -/
def readWhole (cs : List Char) : Option Int64 :=
  let (negative, body) := takeSign cs
  if areDigits body then whole? (signed negative (ofDigits body)) else none

/-- Above this decimal exponent every double is infinite, below its opposite every one is zero. -/
def exponentLimit : Int := 400

/-- The double nearest to `digits * 10 ^ exponent`. -/
def nearest (digits : Nat) (exponent : Int) : Float :=
  let leading := exponent + (Nat.log2 digits : Int) * 30103 / 100000
  if digits = 0 then 0.0
  else if exponentLimit < leading then (Binary64.infinite false).toFloat
  else if leading < -exponentLimit then 0.0
  else if 0 ≤ exponent then Float.ofScientific digits false exponent.toNat
  else Float.ofScientific digits true (-exponent).toNat

/-- Reads an exponent mark with its integer, or nothing at the end of the text. -/
def readExponent : List Char → Option Int
  | [] => some 0
  | c :: rest =>
    if c = 'e' ∨ c = 'E' then
      let (negative, body) := takeSign rest
      if areDigits body then some (signed negative (ofDigits body)) else none
    else none

/-- Reads digits, with a point among them or at one of their ends, and an exponent. -/
def readPositional (cs : List Char) : Option Float :=
  let whole := cs.takeWhile Char.isDigit
  let afterWhole := cs.dropWhile Char.isDigit
  let (fraction, rest) := match afterWhole with
    | '.' :: more => (more.takeWhile Char.isDigit, more.dropWhile Char.isDigit)
    | more => ([], more)
  if whole.isEmpty && fraction.isEmpty then none
  else (readExponent rest).map fun exponent =>
    nearest (ofDigits (whole ++ fraction)) (exponent - fraction.length)

/-- Reads a double: a sign, if any, and a number or, in any case of letters, the name of an infinity
or of what is not a number. -/
def readDecimal (cs : List Char) : Option Float :=
  let (negative, body) := takeSign cs
  let size :=
    match body.map Char.toLower with
    | ['i', 'n', 'f'] | ['i', 'n', 'f', 'i', 'n', 'i', 't', 'y'] =>
      some (Binary64.infinite false).toFloat
    | ['n', 'a', 'n'] => some Binary64.nan.toFloat
    | _ => readPositional body
  size.map fun x => if negative then -x else x

end Ckl.Number
