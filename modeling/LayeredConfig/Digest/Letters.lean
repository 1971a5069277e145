import LayeredConfig.Digest.Blake3

/-!
# Letters drawn from a text

A text determines an endless sequence of letters from A to Z. The first eight bytes of its hash are a
64-bit seed; the seed is expanded into a 256-bit key; the key drives ChaCha with twelve rounds; and each
letter takes the next word of that stream, or the next two, scaled to the twenty-six letters.
-/

namespace LayeredConfig.Letters

/-- A 64-bit seed from the hash of a text. -/
def seed (s : String) : UInt64 := Blake3.leading s.toUTF8.toList

/-- One step of the linear congruential generator that expands a seed. -/
def advance (state : UInt64) : UInt64 := state * 6364136223846793005 + 11634580027462260723

/-- The output of the generator in a state: the state folded to a word and rotated by its top bits. -/
def output (state : UInt64) : UInt32 :=
  let folded := (((state >>> 18) ^^^ state) >>> 27).toUInt32
  let turn := (state >>> 59).toUInt32
  (folded >>> turn) ||| (folded <<< ((32 - turn) % 32))

/-- The outputs of the next `n` states. -/
def outputs : Nat → UInt64 → List UInt32
  | 0, _ => []
  | n + 1, state => output (advance state) :: outputs n (advance state)

/-- The key that a seed expands to. -/
def key (state : UInt64) : Vector UInt32 8 :=
  let words := outputs 8 state
  Vector.ofFn fun i : Fin 8 => words.getD i.val 0

/-- The words that every block of the stream starts from. -/
def constants : List UInt32 := [0x61707865, 0x3320646e, 0x79622d32, 0x6b206574]

/-- Two rounds of ChaCha: the columns, then the diagonals. -/
def doubleRound (v : Square) : Square := v.stir Square.rotateLeft (.ofList [])

/-- The block of the stream with the given number, under a 64-bit counter and a zero nonce. -/
def block (k : Vector UInt32 8) (counter : UInt64) : Square :=
  let start : Square :=
    .ofList (constants ++ k.toList ++ [counter.toUInt32, (counter >>> 32).toUInt32, 0, 0])
  let mixed := Nat.repeat doubleRound 6 start
  mixed.zipWith (· + ·) start

/-- The word of the stream at a position. -/
def streamWord (k : Vector UInt32 8) (position : Nat) : UInt32 :=
  (block k (UInt64.ofNat (position / 16))).toList.getD (position % 16) 0

/-- The letter that a word and the word after it stand for, as a number below twenty-six, and whether the
second word was used. The product of the word with twenty-six is cut at 32 bits; the second word only
decides about the carry, and is asked for only when a carry is possible. -/
def draw (w next : UInt32) : Nat × Bool :=
  let product := w.toNat * 26
  let letter := product / UInt32.size
  let low := product % UInt32.size
  if UInt32.size - 26 < low then
    (if UInt32.size ≤ low + next.toNat * 26 / UInt32.size then letter + 1 else letter, true)
  else (letter, false)

/-- The next `n` letters of the stream, from a position on. -/
def letters (k : Vector UInt32 8) : Nat → Nat → List Char
  | 0, _ => []
  | n + 1, position =>
    let (i, both) := draw (streamWord k position) (streamWord k (position + 1))
    Char.ofNat ('A'.toNat + i) :: letters k n (position + if both then 2 else 1)

/-- The first `n` letters that a text determines. -/
def ofText (s : String) (n : Nat) : String := String.ofList (letters (key (seed s)) n 0)

theorem length_letters (k : Vector UInt32 8) (n position : Nat) : (letters k n position).length = n := by
  induction n generalizing position with
  | zero => rfl
  | succ n ih => simp [letters, ih]

end LayeredConfig.Letters
