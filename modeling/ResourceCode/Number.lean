/-!
Binary floating-point numbers as bit patterns. A `Binary` gives the widths of the fraction and of the
exponent; `Binary.datum` says which number a pattern stands for, as an integer times a power of two, and
`Binary.round` is the pattern nearest to such a number, a half going to the even pattern. All arithmetic
is on integers, so it is exact.

`Binary.shortest` finds the coarsest power of ten with a multiple that rounds to a given bit pattern, and the
multiple nearest to the number on it; a half goes up. The text of a number is always positional: no exponent,
and no point on a whole number.
-/

namespace ResourceCode

namespace Number

structure Binary where
  fraction : Nat
  exponent : Nat
  deriving DecidableEq, Repr

/-- The four-byte numbers. -/
def Binary.single : Binary := ⟨23, 8⟩

/-- The eight-byte numbers. -/
def Binary.double : Binary := ⟨52, 11⟩

/-- What a bit pattern stands for: `finite negative m e` is `m * 2 ^ e` with a sign. -/
inductive Datum where
  | undefined
  | infinite (negative : Bool)
  | finite (negative : Bool) (m : Nat) (e : Int)
  deriving DecidableEq, Repr

namespace Binary

def width (l : Binary) : Nat := 1 + l.exponent + l.fraction

def signBit (l : Binary) : Nat := Nat.pow 2 (l.exponent + l.fraction)

/-- The pattern of positive infinity, which is also the number of finite patterns of one sign. -/
def infinity (l : Binary) : Nat := (Nat.pow 2 l.exponent - 1) * Nat.pow 2 l.fraction

def quietNaN (l : Binary) : Nat := l.infinity + Nat.pow 2 (l.fraction - 1)

/-- The power of two of the last place of the smallest patterns. -/
def leastExponent (l : Binary) : Int := 2 - Nat.pow 2 (l.exponent - 1) - l.fraction

def isNegative (l : Binary) (bits : Nat) : Bool := l.signBit ≤ bits

def magnitude (l : Binary) (bits : Nat) : Nat := bits % l.signBit

def isNaN (l : Binary) (bits : Nat) : Bool := l.infinity < l.magnitude bits

/-- The number `m * 2 ^ e` of a finite pattern without its sign. -/
def finiteParts (l : Binary) (magnitude : Nat) : Nat × Int :=
  let field := magnitude / Nat.pow 2 l.fraction
  let rest := magnitude % Nat.pow 2 l.fraction
  if field = 0 then (rest, l.leastExponent)
  else (Nat.pow 2 l.fraction + rest, l.leastExponent + (field - 1 : Nat))

def datum (l : Binary) (bits : Nat) : Datum :=
  let magnitude := l.magnitude bits
  if magnitude < l.infinity then
    let (m, e) := l.finiteParts magnitude
    .finite (l.isNegative bits) m e
  else if magnitude = l.infinity then .infinite (l.isNegative bits)
  else .undefined

end Binary

/-- The integer nearest to `m / 2 ^ k`, a half going to the even one. -/
def shiftToEven (m k : Nat) : Nat :=
  let unit := Nat.pow 2 k
  let whole := m / unit
  let twice := 2 * (m % unit)
  if unit < twice ∨ (unit = twice ∧ whole % 2 = 1) then whole + 1 else whole

namespace Binary

/-- The pattern nearest to `m * 2 ^ e`; numbers past the largest finite one become infinite. -/
def roundMagnitude (l : Binary) (m : Nat) (e : Int) : Nat :=
  if m = 0 then 0
  else
    let place := max (e + m.log2 - l.fraction) l.leastExponent
    let n :=
      if place ≤ e then m * Nat.pow 2 (e - place).toNat else shiftToEven m (place - e).toNat
    min ((place - l.leastExponent).toNat * Nat.pow 2 l.fraction + n) l.infinity

def round (l : Binary) (negative : Bool) (m : Nat) (e : Int) : Nat :=
  (if negative then l.signBit else 0) + l.roundMagnitude m e

def ofDatum (l : Binary) : Datum → Nat
  | .undefined => l.quietNaN
  | .infinite negative => (if negative then l.signBit else 0) + l.infinity
  | .finite negative m e => l.round negative m e

def ofInt (l : Binary) (n : Int) : Nat := l.round (n < 0) n.natAbs 0

/-- Numeric equality: an undefined number equals nothing, and both zeros are equal. -/
def same (l : Binary) (a b : Nat) : Bool :=
  !l.isNaN a && !l.isNaN b && (a == b || (l.magnitude a == 0 && l.magnitude b == 0))

end Binary

/-- A four-byte number, known by its bits. -/
structure Single where
  bits : UInt32
  deriving DecidableEq, Repr

/-- An eight-byte number, known by its bits. -/
structure Double where
  bits : UInt64
  deriving DecidableEq, Repr

namespace Single

def datum (x : Single) : Datum := Binary.single.datum x.bits.toNat

def ofDatum (d : Datum) : Single := ⟨.ofNat (Binary.single.ofDatum d)⟩

def isNaN (x : Single) : Bool := Binary.single.isNaN x.bits.toNat

def same (x y : Single) : Bool := Binary.single.same x.bits.toNat y.bits.toNat

/-- Every four-byte number is an eight-byte number. -/
def toDouble (x : Single) : Double := ⟨.ofNat (Binary.double.ofDatum x.datum)⟩

def one : Single := ⟨0x3F800000⟩

/-- Farther from one than the step of the four-byte numbers right above one, `2 ^ -23`. -/
def isOffOne (x : Single) : Bool :=
  match x.datum with
  | .undefined => false
  | .infinite _ => true
  | .finite negative m e =>
    let scale := Nat.pow 2 (-e).toNat
    let value : Int := (if negative then -1 else 1) * (m * Nat.pow 2 e.toNat : Nat)
    scale < Nat.pow 2 23 * (value - scale).natAbs

end Single

namespace Double

def datum (x : Double) : Datum := Binary.double.datum x.bits.toNat

def ofDatum (d : Datum) : Double := ⟨.ofNat (Binary.double.ofDatum d)⟩

def isNaN (x : Double) : Bool := Binary.double.isNaN x.bits.toNat

def same (x y : Double) : Bool := Binary.double.same x.bits.toNat y.bits.toNat

/-- The nearest four-byte number. -/
def toSingle (x : Double) : Single := .ofDatum x.datum

/-- The nearest eight-byte number. -/
def ofInt (n : Int) : Double := ⟨.ofNat (Binary.double.ofInt n)⟩

def one : Double := ⟨0x3FF0000000000000⟩

end Double

namespace Binary

/-- The real numbers that round to a finite pattern other than zero, from `low` to `high` in units of
`2 ^ unit` around the number `mid`, the ends included when `closed`. -/
structure Rounding where
  low : Nat
  mid : Nat
  high : Nat
  unit : Int
  closed : Bool
  deriving Repr

/-- Below a power of two the patterns lie twice as close. -/
def rounding (l : Binary) (magnitude : Nat) : Rounding :=
  let (m, e) := l.finiteParts magnitude
  let closeBelow := m = Nat.pow 2 l.fraction ∧ l.leastExponent < e
  { low := if closeBelow then 4 * m - 1 else 4 * m - 2
    mid := 4 * m
    high := 4 * m + 2
    unit := e - 2
    closed := m % 2 = 0 }

/-- The multiple of `10 ^ k` that rounds to the pattern and lies nearest to its number. -/
def Rounding.multiple? (r : Rounding) (k : Int) : Option Nat :=
  let scale := Nat.pow 2 r.unit.toNat * Nat.pow 10 (-k).toNat
  let step := Nat.pow 10 k.toNat * Nat.pow 2 (-r.unit).toNat
  let inside (n : Nat) : Bool :=
    if r.closed then r.low * scale ≤ n * step && n * step ≤ r.high * scale
    else r.low * scale < n * step && n * step < r.high * scale
  let below := r.mid * scale / step
  match inside below, inside (below + 1) with
  | true, true => some (if 2 * (r.mid * scale % step) < step then below else below + 1)
  | true, false => some below
  | false, true => some (below + 1)
  | false, false => none

/-- Tries `10 ^ k`, `10 ^ (k - 1)`, and so on. -/
def Rounding.search (r : Rounding) (k : Int) : Nat → Nat × Int
  | 0 => (0, 0)
  | tries + 1 =>
    match r.multiple? k with
    | some n => (n, k)
    | none => r.search (k - 1) tries

/-- The decimal `n * 10 ^ k` of a finite pattern other than zero, as the pair `(n, k)`. The search begins
past the number's leading digit and ends at the latest where the number itself is a multiple. -/
def shortest (l : Binary) (magnitude : Nat) : Nat × Int :=
  let r := l.rounding magnitude
  let start :=
    (Nat.toDigits 10 (2 * r.mid * Nat.pow 2 r.unit.toNat / Nat.pow 2 (-r.unit).toNat)).length
  r.search start (start + (-r.unit).toNat + 1)

end Binary

/-- The decimal `n * 10 ^ k` without an exponent. -/
def positional (n : Nat) (k : Int) : List Char :=
  let digits := Nat.toDigits 10 n
  if 0 ≤ k then digits ++ List.replicate k.toNat '0'
  else
    let places := (-k).toNat
    if digits.length ≤ places then
      '0' :: '.' :: (List.replicate (places - digits.length) '0' ++ digits)
    else digits.take (digits.length - places) ++ '.' :: digits.drop (digits.length - places)

namespace Binary

/-- The text of a finite pattern. -/
def finiteText (l : Binary) (bits : Nat) : String :=
  let magnitude := l.magnitude bits
  let digits :=
    if magnitude = 0 then ['0']
    else
      let (n, k) := l.shortest magnitude
      positional n k
  String.ofList (if l.isNegative bits then '-' :: digits else digits)

/-- The text of any pattern. -/
def text (l : Binary) (bits : Nat) : String :=
  match l.datum bits with
  | .undefined => "NaN"
  | .infinite negative => if negative then "-inf" else "inf"
  | .finite .. => l.finiteText bits

end Binary

def Single.text (x : Single) : String := Binary.single.text x.bits.toNat

def Double.text (x : Double) : String := Binary.double.text x.bits.toNat

end Number

end ResourceCode
