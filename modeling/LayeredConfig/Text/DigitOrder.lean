/-!
# Digit-run order

An order of texts in which a run of decimal digits stands for its value, so that `Job2` comes before
`Job10`. Leading zeros do not count: two runs of one value that differ in their leading zeros end the
comparison, and the texts count as equal whatever follows.
-/

namespace LayeredConfig.DigitOrder

/-- A run of decimal digits at the front of a text: how many leading zeros, the digits after them, and the
rest of the text. -/
structure Run where
  zeros : Nat
  digits : List Char
  rest : List Char

/-- Takes the run of digits off the front of a text. -/
def Run.take (s : List Char) : Run :=
  let significant := s.dropWhile (· == '0')
  { zeros := (s.takeWhile (· == '0')).length
    digits := significant.takeWhile Char.isDigit
    rest := significant.dropWhile Char.isDigit }

theorem length_dropWhile_le {α : Type} (p : α → Bool) (s : List α) :
    (s.dropWhile p).length ≤ s.length :=
  (List.dropWhile_sublist p).length_le

theorem Run.length_rest_take_lt {c : Char} (h : c.isDigit = true) (s : List Char) :
    (Run.take (c :: s)).rest.length < (c :: s).length := by
  have h1 (u : List Char) := length_dropWhile_le Char.isDigit u
  have h2 := length_dropWhile_le (fun x => x == '0') s
  by_cases h0 : (c == '0') = true
  · have := h1 (s.dropWhile (fun x => x == '0'))
    simp only [Run.take, List.dropWhile_cons, h0, if_true, List.length_cons]
    omega
  · have := h1 s
    simp only [Run.take, List.dropWhile_cons, h0, List.length_cons]
    simp only [Bool.false_eq_true, if_false, List.dropWhile_cons, h, if_true]
    omega

/-- Compares two runs of digits by value: the longer is larger, and runs of one length compare digit by
digit. -/
def Run.compareValue (x y : Run) : Ordering :=
  (compare x.digits.length y.digits.length).then (compare x.digits y.digits)

/-- Compares two texts in digit-run order. -/
def compareChars : List Char → List Char → Ordering
  | [], [] => .eq
  | [], _ :: _ => .lt
  | _ :: _, [] => .gt
  | c :: s, d :: t =>
    if _h : c.isDigit = true ∧ d.isDigit = true then
      let x := Run.take (c :: s)
      let y := Run.take (d :: t)
      match x.compareValue y with
      | .eq => if x.zeros = y.zeros then compareChars x.rest y.rest else .eq
      | o => o
    else
      match compare c d with
      | .eq => compareChars s t
      | o => o
termination_by s => s.length
decreasing_by
  · exact Run.length_rest_take_lt _h.1 s
  · simp

/-- Compares two texts in digit-run order. -/
def compareTexts (x y : String) : Ordering := compareChars x.toList y.toList

end LayeredConfig.DigitOrder
