import Splitting.Decimal.Shortest
import Splitting.Scalar.Basic

/-!
# `Splitting.Scalar.Binary` — double and single precision

The two running instances of `Scalar`. Arithmetic is that of the hardware formats; what is decided here is the
text of a number, which is read off its bits: the shortest decimal that rounds to it in its own format, in
positional notation.

* `BinaryFormat` — the layout of a format and the number that a bit pattern stands for;
* `BinaryFormat.text` — the text of a bit pattern;
* `toSingle` — double precision rounded to single;
* `Scalar Float`, `Scalar Float32` — literals of single precision are rounded through double precision.
-/

namespace Splitting

-- Powers are those of the natural numbers themselves, also where they are a monoid among others.
attribute [local instance(2000)] instPowNat

/-- The layout of a binary format: the bits of the stored fraction and of the biased exponent, below a sign
    bit. -/
structure BinaryFormat where
  fractionBits : Nat
  exponentBits : Nat
deriving DecidableEq, Repr

namespace BinaryFormat

def double : BinaryFormat := ⟨52, 11⟩

def single : BinaryFormat := ⟨23, 8⟩

/-- The stored fraction of a bit pattern. -/
def fraction (fmt : BinaryFormat) (bits : Nat) : Nat := bits % 2 ^ fmt.fractionBits

/-- The biased exponent of a bit pattern. -/
def biased (fmt : BinaryFormat) (bits : Nat) : Nat := bits / 2 ^ fmt.fractionBits % 2 ^ fmt.exponentBits

/-- Whether the sign bit is set. -/
def negative (fmt : BinaryFormat) (bits : Nat) : Bool :=
  bits / 2 ^ (fmt.fractionBits + fmt.exponentBits) % 2 = 1

/-- The exponent of the last place of the numbers that are nearest to zero. -/
def leastExponent (fmt : BinaryFormat) : Int :=
  2 - 2 ^ (fmt.exponentBits - 1) - fmt.fractionBits

/-- The magnitude of a finite bit pattern. Below the least normal number the leading bit is not implied. -/
def magnitude (fmt : BinaryFormat) (bits : Nat) : Binary :=
  match fmt.biased bits with
  | 0 => ⟨fmt.fraction bits, fmt.leastExponent, false⟩
  | e + 1 => ⟨fmt.fraction bits + 2 ^ fmt.fractionBits, fmt.leastExponent + e,
      fmt.fraction bits = 0 ∧ e ≠ 0⟩

/-- The text of a bit pattern: the shortest decimal that rounds to it, after a minus sign if the sign bit is
    set; `inf` beyond the largest number and `NaN`, which has no sign. -/
def text (fmt : BinaryFormat) (bits : Nat) : String :=
  let sign := if fmt.negative bits then "-" else ""
  if fmt.biased bits = 2 ^ fmt.exponentBits - 1 then
    if fmt.fraction bits = 0 then sign ++ "inf" else "NaN"
  else
    let m := fmt.magnitude bits
    sign ++ if m.mantissa = 0 then "0" else m.shortest.positional

end BinaryFormat

instance : Scalar Float where
  zero := 0
  one := 1
  natCast := Float.ofNat
  decLt := Float.decLt
  decLe := Float.decLe
  abs := Float.abs
  signum x := if x.isNaN then x else if x.toBits >>> 63 = 0 then 1 else -1
  sqrt := Float.sqrt
  log10 := Float.log10
  max x y := if x.isNaN ∨ x ≤ y then y else x
  min x y := if x.isNaN ∨ y ≤ x then y else x
  infinity := 1 / 0
  isFinite := Float.isFinite
  isNaN := Float.isNaN
  ceilNat? x :=
    if -1 < x ∧ x ≤ 0 then some 0
    else if 0 < x ∧ x < 18446744073709551616.0 then
      let below := x.toUInt64
      some (if below.toFloat < x then below.toNat + 1 else below.toNat)
    else none
  text x := BinaryFormat.double.text x.toBits.toNat

open Float.Model Float.Model.UnpackedFloat in
/-- A number in double precision, rounded to single precision: to the nearest, and to the even one of two. -/
def toSingle (x : Float) : Float32 :=
  ⟨Float32.Model.pack (match x.toModel.unpack with
    | .finite s m e _ => roundWithAccuracy .binary32 s m e .exact
    | u => u)⟩

instance : Scalar Float32 where
  zero := 0
  one := 1
  natCast := Float32.ofNat
  ofScientific m s e := toSingle (Float.ofScientific m s e)
  decLt := Float32.decLt
  decLe := Float32.decLe
  abs := Float32.abs
  signum x := if x.isNaN then x else if x.toBits >>> 31 = 0 then 1 else -1
  sqrt := Float32.sqrt
  log10 := Float32.log10
  max x y := if x.isNaN ∨ x ≤ y then y else x
  min x y := if x.isNaN ∨ y ≤ x then y else x
  infinity := 1 / 0
  isFinite := Float32.isFinite
  isNaN := Float32.isNaN
  ceilNat? x :=
    if -1 < x ∧ x ≤ 0 then some 0
    else if 0 < x ∧ x < 18446744073709551616.0 then
      let below := x.toUInt64
      some (if below.toFloat32 < x then below.toNat + 1 else below.toNat)
    else none
  text x := BinaryFormat.single.text x.toBits.toNat

instance : Precision Float Float where
  narrow w := w
  widen x := x

instance : Precision Float32 Float where
  narrow := toSingle
  widen := Float32.toFloat

end Splitting
