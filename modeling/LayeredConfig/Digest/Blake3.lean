import LayeredConfig.Digest.Square

/-!
# BLAKE3

The BLAKE3 hash of a sequence of bytes, as far as its first eight words. The input is cut into chunks of
1024 bytes; a chunk is compressed block by block into a chaining value, and the chunks' values are merged
pairwise, level by level, an odd last one being carried up. The last compression of all is marked as the
root.
-/

namespace LayeredConfig.Blake3

/-- Eight words: a chaining value. -/
abbrev ChainingValue := Vector UInt32 8

def initial : ChainingValue :=
  #v[0x6a09e667, 0xbb67ae85, 0x3c6ef372, 0xa54ff53a, 0x510e527f, 0x9b05688c, 0x1f83d9ab, 0x5be0cd19]

/-- The order in which a round takes the input words that the round before it took in order. -/
def schedule : List Nat := [2, 6, 3, 10, 7, 0, 4, 13, 1, 11, 12, 5, 9, 14, 15, 8]

/-- The input words in the order of the next round. -/
def permute (m : Square) : Square := .ofList (schedule.map fun i => m.toList.getD i 0)

def rounds : Nat → Square → Square → Square
  | 0, v, _ => v
  | n + 1, v, m => rounds n (v.stir Square.rotateRight m) (permute m)

/-- The marks of a compression. -/
structure Marks where
  chunkStart : Bool
  chunkEnd : Bool
  parent : Bool

/-- What one compression takes in. -/
structure Input where
  chaining : ChainingValue
  block : Square
  counter : UInt64
  /-- How many bytes of the block are input. -/
  length : UInt32
  marks : Marks

/-- The word of flags of a compression. -/
def flags (marks : Marks) (root : Bool) : UInt32 :=
  (if marks.chunkStart then 1 else 0) ||| (if marks.chunkEnd then 2 else 0) |||
    (if marks.parent then 4 else 0) ||| (if root then 8 else 0)

/-- The chaining value that a compression yields: the first half of its final state over the second. -/
def Input.compress (i : Input) (root : Bool) : ChainingValue :=
  let start : Square :=
    .ofList (i.chaining.toList ++ initial.toList.take 4 ++
      [i.counter.toUInt32, (i.counter >>> 32).toUInt32, i.length, flags i.marks root])
  let v := (rounds 7 start i.block).toList
  Vector.ofFn fun k : Fin 8 => v.getD k.val 0 ^^^ v.getD (k.val + 8) 0

/-- The little-endian word that up to four bytes stand for. -/
def word (bytes : List UInt8) : UInt32 :=
  bytes.foldr (fun b acc => acc <<< 8 ||| b.toUInt32) 0

/-- The block that up to sixty-four bytes stand for, padded with zeros. -/
def blockOf (bytes : List UInt8) : Square :=
  Vector.ofFn fun k : Fin 16 => word ((bytes.drop (4 * k.val)).take 4)

/-- Cuts a list into pieces of `n + 1` elements, the last one possibly shorter. -/
def pieces {α : Type} (n : Nat) : List α → List (List α)
  | [] => []
  | x :: xs => (x :: xs.take n) :: pieces n (xs.drop n)
termination_by xs => xs.length
decreasing_by simp only [List.length_drop, List.length_cons]; omega

/-- The last compression of a chunk, whose blocks are given: every block before the last is compressed
into the chaining value of the next. -/
def chunk (counter : UInt64) (chaining : ChainingValue) (first : Bool) : List (List UInt8) → Input
  | [] => ⟨chaining, blockOf [], counter, 0, ⟨first, true, false⟩⟩
  | [b] => ⟨chaining, blockOf b, counter, UInt32.ofNat b.length, ⟨first, true, false⟩⟩
  | b :: bs =>
    let here : Input := ⟨chaining, blockOf b, counter, 64, ⟨first, false, false⟩⟩
    chunk counter (here.compress false) false bs

/-- The compression that merges two subtrees. -/
def parent (left right : Input) : Input :=
  let l := left.compress false
  let r := right.compress false
  ⟨initial, .ofList (l.toList ++ r.toList), 0, 64, ⟨false, false, true⟩⟩

/-- Merges neighbours pairwise, carrying an odd last one. -/
def level : List Input → List Input
  | a :: b :: rest => parent a b :: level rest
  | rest => rest

theorem length_level_le : ∀ xs : List Input, (level xs).length ≤ xs.length
  | [] => Nat.le_refl _
  | [_] => Nat.le_refl _
  | _ :: _ :: rest => by
    have := length_level_le rest
    simp only [level, List.length_cons]
    omega

def merge (a : Input) : List Input → Input
  | [] => a
  | b :: rest => merge (parent a b) (level rest)
termination_by xs => xs.length
decreasing_by
  have := length_level_le rest
  simp only [List.length_cons]
  omega

/-- The first eight words of the hash. -/
def hash (bytes : List UInt8) : ChainingValue :=
  let chunks := (pieces 1023 bytes).mapIdx fun i c => chunk (UInt64.ofNat i) initial true (pieces 63 c)
  match chunks with
  | [] => (chunk 0 initial true []).compress true
  | c :: cs => (merge c cs).compress true

/-- The first eight bytes of the hash, as a little-endian number. -/
def leading (bytes : List UInt8) : UInt64 :=
  let words := (hash bytes).toList
  (words.getD 0 0).toUInt64 ||| ((words.getD 1 0).toUInt64 <<< 32)

end LayeredConfig.Blake3
