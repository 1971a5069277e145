/-!
# Time spans

A time span is a whole number of nanoseconds. It is written in the largest of the units second,
millisecond, microsecond and nanosecond of which it is a whole multiple.
-/

namespace LayeredConfig

structure TimeSpan where
  nanoseconds : Nat
deriving DecidableEq, Repr

inductive TimeUnit where
  | second
  | millisecond
  | microsecond
  | nanosecond
deriving DecidableEq, Repr

def TimeUnit.length : TimeUnit → Nat
  | second => 1000000000
  | millisecond => 1000000
  | microsecond => 1000
  | nanosecond => 1

namespace TimeSpan

def ofParts (seconds nanoseconds : Nat) : TimeSpan := ⟨seconds * 1000000000 + nanoseconds⟩

def ofMilliseconds (n : Nat) : TimeSpan := ⟨n * 1000000⟩

def seconds (d : TimeSpan) : Nat := d.nanoseconds / 1000000000

/-- What a span holds beyond its whole seconds, in nanoseconds. -/
def subsecond (d : TimeSpan) : Nat := d.nanoseconds % 1000000000

/-- The largest unit of which the span is a whole multiple. -/
def wholeUnit (d : TimeSpan) : TimeUnit :=
  if d.nanoseconds % TimeUnit.second.length = 0 then .second
  else if d.nanoseconds % TimeUnit.millisecond.length = 0 then .millisecond
  else if d.nanoseconds % TimeUnit.microsecond.length = 0 then .microsecond
  else .nanosecond

/-- How many of its whole units the span lasts. -/
def wholeCount (d : TimeSpan) : Nat := d.nanoseconds / d.wholeUnit.length

theorem wholeCount_mul_length (d : TimeSpan) : d.wholeCount * d.wholeUnit.length = d.nanoseconds := by
  unfold wholeCount wholeUnit
  split
  · next h => exact Nat.div_mul_cancel (Nat.dvd_of_mod_eq_zero h)
  split
  · next h => exact Nat.div_mul_cancel (Nat.dvd_of_mod_eq_zero h)
  split
  · next h => exact Nat.div_mul_cancel (Nat.dvd_of_mod_eq_zero h)
  · simp [TimeUnit.length]

/-- The compact text of a span: `2s`, `500ms`, `150us`, `7ns`. -/
def text (d : TimeSpan) : String :=
  d.wholeCount.repr ++
    match d.wholeUnit with
    | .second => "s"
    | .millisecond => "ms"
    | .microsecond => "us"
    | .nanosecond => "ns"

def literal (d : TimeSpan) : String :=
  "Duration::from_" ++
    (match d.wholeUnit with
    | .second => "secs"
    | .millisecond => "millis"
    | .microsecond => "micros"
    | .nanosecond => "nanos") ++ "(" ++ d.wholeCount.repr ++ ")"

/-- A decimal fraction: the whole part, and the digits of `rest / 10 ^ places` without trailing zeros. -/
def fractional (whole rest places : Nat) : String :=
  let padded := Nat.repr (Nat.pow 10 places + rest)
  let kept := (padded.toList.drop 1).reverse.dropWhile (· == '0') |>.reverse
  whole.repr ++ if kept.isEmpty then "" else String.ofList ('.' :: kept)

/-- The text of a span in the largest unit that it reaches, with a decimal fraction: `1.5s`, `2.25ms`. -/
def fractionalText (d : TimeSpan) : String :=
  let n := d.nanoseconds
  if 1000000000 ≤ n then fractional (n / 1000000000) (n % 1000000000) 9 ++ "s"
  else if 1000000 ≤ n then fractional (n / 1000000) (n % 1000000) 6 ++ "ms"
  else if 1000 ≤ n then fractional (n / 1000) (n % 1000) 3 ++ "µs"
  else n.repr ++ "ns"

end TimeSpan

end LayeredConfig
