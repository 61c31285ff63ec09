import MiniSharp.Text.Basic

/-!
The single-precision values of IEEE 754: reading a decimal fraction to the nearest value, and
writing a value with the fewest digits that read back as it. Both are exact integer arithmetic.
-/

namespace MiniSharp

structure Binary32 where
  bits : UInt32
  deriving DecidableEq, Repr

namespace Binary32

/-- The nearest integer to `num / den`; a half goes to the even neighbour. -/
def roundDiv (num den : Nat) : Nat :=
  let q := num / den
  let twice := 2 * (num % den)
  if twice < den ∨ (twice = den ∧ q % 2 = 0) then q else q + 1

/-- The greatest `e` with `2 ^ e ≤ num / den`, for positive `num` and `den`. -/
def exponent (num den : Nat) : Int :=
  let guess : Int := (num.log2 : Int) - den.log2
  if den * Nat.pow 2 guess.toNat ≤ num * Nat.pow 2 (-guess).toNat then guess else guess - 1

/-- The magnitude bits of the value nearest to `num / den`. The least quantum is `2 ^ (-149)`; the
carry of a significand that rounds up to the next power of two lands in the exponent by itself. -/
def nearest (num den : Nat) : Nat :=
  if num = 0 then 0
  else
    let quantum := max (exponent num den - 23) (-149)
    let significand := roundDiv (num * Nat.pow 2 (-quantum).toNat) (den * Nat.pow 2 quantum.toNat)
    (quantum + 149).toNat * Nat.pow 2 23 + significand

def infinityBits : Nat := 255 * Nat.pow 2 23

def ofDecimal? (t : Text) : Option Binary32 :=
  let whole := t.takeWhile Text.isDigit
  let fraction := (t.dropWhile Text.isDigit).drop 1
  let bits := nearest (Text.value (whole ++ fraction)) (Nat.pow 10 fraction.length)
  if bits < infinityBits then some ⟨bits.toUInt32⟩ else none

def isNegative (x : Binary32) : Bool := Nat.pow 2 31 ≤ x.bits.toNat

def magnitude (x : Binary32) : Nat := x.bits.toNat % Nat.pow 2 31

structure Decimal where
  digits : Nat
  scale : Int
  deriving DecidableEq, Repr

/-- The reals that round to a value, in units of a quarter of its quantum. Below a power of two the
values lie twice as close. An end rounds to the value if its significand is even. -/
structure Neighbourhood where
  low : Nat
  mid : Nat
  high : Nat
  closed : Bool
  exponent : Int

def neighbourhood (bits : Nat) : Neighbourhood :=
  let field : Nat := bits / Nat.pow 2 23
  let fraction := bits % Nat.pow 2 23
  let significand := if field = 0 then fraction else Nat.pow 2 23 + fraction
  let quantum : Int := if field = 0 then -149 else (field : Int) - 150
  let below := if fraction = 0 ∧ 1 < field then 1 else 2
  ⟨4 * significand - below, 4 * significand, 4 * significand + 2, significand % 2 = 0, quantum - 2⟩

/-- The point of the grid of multiples of `10 ^ scale` that lies in a neighbourhood and nearest to
its middle; of two the even one. -/
def Neighbourhood.onGrid? (v : Neighbourhood) (scale : Int) : Option Nat :=
  let factor := Nat.pow 2 v.exponent.toNat * Nat.pow 10 (-scale).toNat
  let step := Nat.pow 2 (-v.exponent).toNat * Nat.pow 10 scale.toNat
  let inside := fun n =>
    if v.closed then v.low * factor ≤ n * step && n * step ≤ v.high * factor
    else v.low * factor < n * step && n * step < v.high * factor
  let below := v.mid * factor / step
  let up := roundDiv (v.mid * factor) step
  let other := if up = below then below + 1 else below
  if inside up && 0 < up then some up
  else if inside other && 0 < other then some other
  else none

/-- The fewest digits that read back as the value: the coarsest decimal grid with a point in its
neighbourhood. On the finest grid tried the value itself is a point. -/
def shortest (bits : Nat) : Decimal :=
  let v := neighbourhood bits
  let scales := (List.range 190).map fun (i : Nat) => (39 : Int) - i
  match scales.findSome? fun scale => (v.onGrid? scale).map (Decimal.mk · scale) with
  | some d => d
  | none => ⟨0, 0⟩

/-- How a value is written: the exponents of the first digit, `low` to `high`, for which the point
is put in place; outside them an exponent of at least `exponentDigits` digits follows. -/
structure Format where
  low : Int
  high : Int
  exponentDigits : Nat

def Format.render (f : Format) (d : Decimal) : Text :=
  let digits := Text.dropTrailing (· == Text.byte '0') (Text.decimal d.digits)
  let first : Int := d.scale + ((Text.decimal d.digits).length : Int) - 1
  if first < f.low ∨ f.high < first then
    let exponent := Text.decimal first.natAbs
    let zeros := List.replicate (f.exponentDigits - exponent.length) (Text.byte '0')
    let sign := Text.byte (if first < 0 then '-' else '+')
    let significand := match digits with
      | [] => []
      | [b] => [b]
      | b :: rest => b :: Text.byte '.' :: rest
    significand ++ [Text.byte 'e', sign] ++ zeros ++ exponent
  else if first < 0 then
    "0." ++ List.replicate (first.natAbs - 1) (Text.byte '0') ++ digits
  else
    let wholeDigits := first.toNat + 1
    let whole := digits.take wholeDigits
    let fraction := digits.drop wholeDigits
    whole ++ List.replicate (wholeDigits - whole.length) (Text.byte '0') ++
      (if fraction.isEmpty then [] else Text.byte '.' :: fraction)

def plain : Format := ⟨-4, 5, 2⟩

def render (x : Binary32) : Text :=
  let unsigned :=
    if x.magnitude = 0 then Text.ofString "0"
    else if x.magnitude = infinityBits then "Inf"
    else plain.render (shortest x.magnitude)
  if infinityBits < x.magnitude then "NaN"
  else if x.isNegative then Text.byte '-' :: unsigned
  else if x.magnitude = infinityBits then Text.byte '+' :: unsigned
  else unsigned

end Binary32

end MiniSharp
