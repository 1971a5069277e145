/-!
# Double-precision numbers

A number is held as its sixty-four bits, so that two numbers are the same value of this type exactly
when they are the same bit pattern; `Binary64.equals` is the numeric comparison, under which the two
zeros agree and not-a-number agrees with nothing.
-/

namespace LayeredConfig

/-- A double-precision floating-point number, as its bits: sign, eleven of exponent, fifty-two of fraction. -/
structure Binary64 where
  bits : UInt64
deriving DecidableEq, Repr

namespace Binary64

def ofFloat (x : Float) : Binary64 := ⟨x.toBits⟩

/-- How many fractions there are: two to the fifty-second. -/
def fractionCount : Nat := 4503599627370496

def negative (x : Binary64) : Bool := x.bits.toNat / fractionCount / 2048 == 1

def exponentField (x : Binary64) : Nat := x.bits.toNat / fractionCount % 2048

def fraction (x : Binary64) : Nat := x.bits.toNat % fractionCount

/-- What the bits denote, its sign apart. -/
inductive Magnitude where
  | nan
  | infinite
  | zero
  /-- The number `mantissa * 2 ^ exponent`. The gap below it is half the gap above it when `narrowBelow` holds,
  which is so at the powers of two. -/
  | finite (mantissa : Nat) (exponent : Int) (narrowBelow : Bool)
deriving DecidableEq, Repr

/-- Reads the fields: an all-ones exponent is not finite, a zero exponent has no hidden bit. -/
def magnitude (x : Binary64) : Magnitude :=
  if x.exponentField = 2047 then
    if x.fraction = 0 then .infinite else .nan
  else if x.exponentField = 0 then
    if x.fraction = 0 then .zero else .finite x.fraction (-1074) false
  else
    .finite (fractionCount + x.fraction) ((x.exponentField : Int) - 1075)
      (x.fraction = 0 && 1 < x.exponentField)

/-- Numeric equality: the zeros are equal, and not-a-number equals nothing. -/
def equals (x y : Binary64) : Bool :=
  match x.magnitude, y.magnitude with
  | .nan, _ => false
  | _, .nan => false
  | .zero, .zero => true
  | _, _ => x == y

end Binary64

end LayeredConfig
