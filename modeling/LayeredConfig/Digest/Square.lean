/-!
# Squares of words

A square is sixteen 32-bit words, thought of as four rows of four. BLAKE3 and ChaCha stir it in one way:
they mix the words of each column and then those of each diagonal, and to mix four words is to add them
up, to combine them bit by bit and to rotate them. What differs is the direction of the rotation, and the
input words that BLAKE3 adds on the way.
-/

namespace LayeredConfig

abbrev Square := Vector UInt32 16

/-- Four places of a square. -/
structure Lane where
  a : Fin 16
  b : Fin 16
  c : Fin 16
  d : Fin 16

namespace Square

/-- The square of the given words; zeros stand for those that are missing. -/
def ofList (words : List UInt32) : Square := Vector.ofFn fun i : Fin 16 => words.getD i.val 0

def rotateRight (x n : UInt32) : UInt32 := (x >>> n) ||| (x <<< (32 - n))

def rotateLeft (x n : UInt32) : UInt32 := (x <<< n) ||| (x >>> (32 - n))

/-- The columns, then the diagonals. -/
def lanes : List Lane :=
  [⟨0, 4, 8, 12⟩, ⟨1, 5, 9, 13⟩, ⟨2, 6, 10, 14⟩, ⟨3, 7, 11, 15⟩,
    ⟨0, 5, 10, 15⟩, ⟨1, 6, 11, 12⟩, ⟨2, 7, 8, 13⟩, ⟨3, 4, 9, 14⟩]

/-- Mixes the words on a lane, and two input words into them. -/
def mix (rotate : UInt32 → UInt32 → UInt32) (v : Square) (l : Lane) (x y : UInt32) : Square :=
  let v := v.set l.a (v[l.a] + v[l.b] + x)
  let v := v.set l.d (rotate (v[l.d] ^^^ v[l.a]) 16)
  let v := v.set l.c (v[l.c] + v[l.d])
  let v := v.set l.b (rotate (v[l.b] ^^^ v[l.c]) 12)
  let v := v.set l.a (v[l.a] + v[l.b] + y)
  let v := v.set l.d (rotate (v[l.d] ^^^ v[l.a]) 8)
  let v := v.set l.c (v[l.c] + v[l.d])
  v.set l.b (rotate (v[l.b] ^^^ v[l.c]) 7)

/-- Mixes some lanes one after the other, each with the next two input words. -/
def mixAll (rotate : UInt32 → UInt32 → UInt32) : List Lane → List UInt32 → Square → Square
  | l :: ls, x :: y :: words, v => mixAll rotate ls words (mix rotate v l x y)
  | _, _, v => v

/-- Mixes the columns and then the diagonals, with sixteen input words. -/
def stir (v : Square) (rotate : UInt32 → UInt32 → UInt32) (words : Square) : Square :=
  mixAll rotate lanes words.toList v

end Square

end LayeredConfig
