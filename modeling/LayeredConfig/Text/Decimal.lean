import LayeredConfig.Binary64

/-!
# Decimal text of a number

`Decimal.shortest` finds the fewest digits that read back to a given double: for one digit, two digits
and so on it tries the two neighbours of the value on that decimal grid, and takes the first grid with a
neighbour in the interval of reals that round to the value; of two such neighbours the nearer one, and
the larger one on a tie. All comparisons are between natural numbers.

`DecimalStyle` says how digits and exponent become text; `DecimalStyle.plain` is used for reading,
`DecimalStyle.literal` for source text.
-/

namespace LayeredConfig

/-- The decimal number `digits * 10 ^ exponent`. -/
structure Decimal where
  digits : Nat
  exponent : Int
deriving DecidableEq, Repr

namespace Decimal

/-- How many decimal digits `n` has; zero has none. -/
def digitCount (n : Nat) : Nat :=
  if n = 0 then 0 else digitCount (n / 10) + 1
termination_by n
decreasing_by omega

/-- The integer `k` with `10 ^ k ≤ num / den < 10 ^ (k + 1)`, for positive `num` and `den`. -/
def leadingExponent (num den : Nat) : Int :=
  if den ≤ num then (digitCount (num / den) : Int) - 1
  else - (digitCount ((den + num - 1) / num - 1) : Int)

/-- A positive real scaled to integers: the value is `center / scale`, and the reals that round to it lie
between `low / scale` and `high / scale`, ends included when `closed` holds. -/
structure Rounding where
  low : Nat
  center : Nat
  high : Nat
  scale : Nat
  closed : Bool

/-- The rounding interval of `mantissa * 2 ^ exponent`, in quarters of the gap above it. -/
def rounding (mantissa : Nat) (exponent : Int) (narrowBelow : Bool) : Rounding :=
  let up := Nat.pow 2 (exponent - 2).toNat
  { low := (4 * mantissa - if narrowBelow then 1 else 2) * up
    center := 4 * mantissa * up
    high := (4 * mantissa + 2) * up
    scale := Nat.pow 2 (2 - exponent).toNat
    closed := mantissa % 2 == 0 }

/-- The same interval measured in steps of `10 ^ p`. -/
def Rounding.inStepsOf (r : Rounding) (p : Int) : Rounding :=
  let up := Nat.pow 10 (-p).toNat
  { low := r.low * up
    center := r.center * up
    high := r.high * up
    scale := r.scale * Nat.pow 10 p.toNat
    closed := r.closed }

/-- Whether the integer `n` lies in the interval. -/
def Rounding.admits (r : Rounding) (n : Nat) : Bool :=
  if r.closed then r.low ≤ n * r.scale && n * r.scale ≤ r.high
  else r.low < n * r.scale && n * r.scale < r.high

/-- The integer next to the centre that the interval admits: the nearer of the two neighbours, the upper
one on a tie. -/
def Rounding.nearest? (r : Rounding) : Option Nat :=
  let below := r.center / r.scale
  match r.admits below, r.admits (below + 1) with
  | true, true =>
    if r.center - below * r.scale < (below + 1) * r.scale - r.center then some below
    else some (below + 1)
  | true, false => some below
  | false, true => some (below + 1)
  | false, false => none

/-- Drops the trailing zeros of the digits. -/
def trim (d : Decimal) : Decimal :=
  if h : d.digits ≠ 0 ∧ d.digits % 10 = 0 then trim ⟨d.digits / 10, d.exponent + 1⟩ else d
termination_by d.digits
decreasing_by omega

/-- The shortest decimal that rounds to `mantissa * 2 ^ exponent`; seventeen digits always suffice. -/
def shortest (mantissa : Nat) (exponent : Int) (narrowBelow : Bool) : Decimal :=
  let r := rounding mantissa exponent narrowBelow
  let top := leadingExponent r.center r.scale
  let found := (List.range 17).findSome? fun (i : Nat) =>
    (r.inStepsOf (top - i)).nearest?.map fun n => trim ⟨n, top - i⟩
  found.getD ⟨0, 0⟩

end Decimal

/-- How a decimal number is laid out. -/
structure DecimalStyle where
  /-- Whether a number whose leading digit stands for `10 ^ k` is written without an exponent. -/
  positional : Int → Bool
  /-- What follows a positional number that has no fractional digits. -/
  wholeMark : String

namespace DecimalStyle

/-- Never an exponent, and nothing after a whole number. -/
def plain : DecimalStyle := ⟨fun _ => true, ""⟩

/-- An exponent below `10 ^ -4` and from `10 ^ 16` on; a whole number ends in `.0`. -/
def literal : DecimalStyle := ⟨fun k => -4 ≤ k && k < 16, ".0"⟩

def zeros (n : Nat) : String := String.ofList (List.replicate n '0')

/-- The text of a positive decimal number. -/
def render (style : DecimalStyle) (d : Decimal) : String :=
  let ds := Nat.repr d.digits
  let lead : Int := d.exponent + ds.length - 1
  if style.positional lead then
    if 0 ≤ d.exponent then ds ++ zeros d.exponent.toNat ++ style.wholeMark
    else if 0 ≤ lead then
      let whole := lead.toNat + 1
      String.ofList (ds.toList.take whole) ++ "." ++ String.ofList (ds.toList.drop whole)
    else "0." ++ zeros (-lead - 1).toNat ++ ds
  else
    let rest := String.ofList (ds.toList.drop 1)
    String.ofList (ds.toList.take 1) ++ (if rest = "" then "" else "." ++ rest) ++ "e" ++ Int.repr lead

/-- The text of a number; a sign is written for every number but not-a-number. -/
def text (style : DecimalStyle) (x : Binary64) : String :=
  let sign := if x.negative then "-" else ""
  match x.magnitude with
  | .nan => "NaN"
  | .infinite => sign ++ "inf"
  | .zero => sign ++ "0" ++ style.wholeMark
  | .finite m e narrow => sign ++ style.render (Decimal.shortest m e narrow)

end DecimalStyle

end LayeredConfig
