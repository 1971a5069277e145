/-!
# JSON documents

A strict reader of JSON: one value, nothing after it, no control characters inside a text, numbers as the
grammar has them. The characters are cut into tokens, and the tokens drive a reader that keeps the open
arrays and objects on a stack, so that the depth of a document is not bounded.

A text with an escape that names half of a surrogate pair is admitted as syntax, but has no content; and
an object keeps its members in the order and the number in which they are written.
-/

namespace LayeredConfig

/-- The content of a written text, `none` when an escape names half of a surrogate pair. -/
abbrev JsonText := Option String

/-- A JSON value as it is written. -/
inductive Json where
  | null
  | bool (value : Bool)
  | number (digits : String)
  | text (content : JsonText)
  | array (items : List Json)
  | object (members : List (JsonText × Json))

namespace Json

/-! ## Tokens -/

inductive Token where
  | openArray
  | closeArray
  | openObject
  | closeObject
  | comma
  | colon
  | null
  | bool (value : Bool)
  | number (digits : String)
  | text (content : JsonText)

/-- A piece of a written text: a character, or the code unit that an escape names. -/
inductive Piece where
  | char (c : Char)
  | unit (n : Nat)

/-- The value of a hexadecimal digit of either case. -/
def hexDigit? (c : Char) : Option Nat :=
  if c.isDigit then some (c.toNat - '0'.toNat)
  else if 'a' ≤ c ∧ c ≤ 'f' then some (c.toNat - 'a'.toNat + 10)
  else if 'A' ≤ c ∧ c ≤ 'F' then some (c.toNat - 'A'.toNat + 10)
  else none

/-- The code unit that four hexadecimal digits name. -/
def codeUnit? (a b c d : Char) : Option Nat := do
  return (((← hexDigit? a) * 16 + (← hexDigit? b)) * 16 + (← hexDigit? c)) * 16 + (← hexDigit? d)

/-- The character that a one-letter escape names. -/
def escaped? : Char → Option Char
  | '"' => some '"'
  | '\\' => some '\\'
  | '/' => some '/'
  | 'b' => some '\x08'
  | 'f' => some '\x0c'
  | 'n' => some '\n'
  | 'r' => some '\r'
  | 't' => some '\t'
  | _ => none

/-- Reads a text after its opening quote: its pieces, and what follows the closing quote. -/
def readText : List Char → Option (List Piece × List Char)
  | [] => none
  | '"' :: rest => some ([], rest)
  | '\\' :: 'u' :: a :: b :: c :: d :: rest => do
    let n ← codeUnit? a b c d
    let (ps, r) ← readText rest
    return (.unit n :: ps, r)
  | '\\' :: e :: rest => do
    let c ← escaped? e
    let (ps, r) ← readText rest
    return (.char c :: ps, r)
  | c :: rest =>
    if c.toNat < 0x20 then none
    else do
      let (ps, r) ← readText rest
      return (.char c :: ps, r)

theorem length_of_readText {s : List Char} {ps : List Piece} {r : List Char}
    (h : readText s = some (ps, r)) : r.length < s.length := by
  fun_induction readText s generalizing ps r with
  | case1 => simp at h
  | case2 rest => simp at h; simp [← h.2]
  | case3 a b c d rest ih =>
    simp only [Option.bind_eq_bind, Option.bind_eq_some_iff] at h
    obtain ⟨n, _, ⟨qs, t⟩, hq, hr⟩ := h
    have := ih hq
    simp at hr
    simp only [← hr.2, List.length_cons]
    omega
  | case4 e rest _ ih =>
    simp only [Option.bind_eq_bind, Option.bind_eq_some_iff] at h
    obtain ⟨n, _, ⟨qs, t⟩, hq, hr⟩ := h
    have := ih hq
    simp at hr
    simp only [← hr.2, List.length_cons]
    omega
  | case5 => simp at h
  | case6 c rest _ _ _ _ ih =>
    simp only [Option.bind_eq_bind, Option.bind_eq_some_iff] at h
    obtain ⟨⟨qs, t⟩, hq, hr⟩ := h
    have := ih hq
    simp at hr
    simp only [← hr.2, List.length_cons]
    omega

/-- Joins surrogate pairs; `none` when a half stands alone. -/
def join : List Piece → Option (List Char)
  | [] => some []
  | .char c :: rest => (join rest).map (c :: ·)
  | .unit n :: rest =>
    if n < 0xd800 ∨ 0xdfff < n then (join rest).map (Char.ofNat n :: ·)
    else
      match rest with
      | .unit m :: rest' =>
        if n < 0xdc00 ∧ 0xdc00 ≤ m ∧ m ≤ 0xdfff then
          (join rest').map (Char.ofNat (0x10000 + (n - 0xd800) * 0x400 + (m - 0xdc00)) :: ·)
        else none
      | _ => none

/-- How many decimal digits stand at the front. -/
def digitRun (s : List Char) : Nat := (s.takeWhile Char.isDigit).length

/-- How long the sign at the front is, among the given signs. -/
def signLength (signs : List Char) : List Char → Nat
  | c :: _ => if c ∈ signs then 1 else 0
  | [] => 0

/-- How long the whole part at the front is: one zero, or digits that begin with another digit. -/
def wholeLength? : List Char → Option Nat
  | '0' :: _ => some 1
  | s => if digitRun s = 0 then none else some (digitRun s)

/-- How long the fraction at the front is, if there is one; a point needs a digit after it. -/
def fractionLength? : List Char → Option Nat
  | '.' :: s => if digitRun s = 0 then none else some (1 + digitRun s)
  | _ => some 0

/-- How long the exponent at the front is, if there is one; it needs a digit. -/
def exponentLength? : List Char → Option Nat
  | c :: s =>
    if c = 'e' ∨ c = 'E' then
      let sign := signLength ['+', '-'] s
      let digits := digitRun (s.drop sign)
      if digits = 0 then none else some (1 + sign + digits)
    else some 0
  | [] => some 0

/-- How long the number at the front is. -/
def numberLength? (s : List Char) : Option Nat := do
  let sign := signLength ['-'] s
  let whole ← wholeLength? (s.drop sign)
  let fraction ← fractionLength? (s.drop (sign + whole))
  let exponent ← exponentLength? (s.drop (sign + whole + fraction))
  return sign + whole + fraction + exponent

def isBlank (c : Char) : Bool := c == ' ' || c == '\t' || c == '\n' || c == '\r'

/-- The token at the front of a text that begins neither with white space nor with a quote nor with a number, and
what follows it. -/
def symbol? : List Char → Option (Token × List Char)
  | '[' :: s => some (.openArray, s)
  | ']' :: s => some (.closeArray, s)
  | '\x7b' :: s => some (.openObject, s)
  | '\x7d' :: s => some (.closeObject, s)
  | ',' :: s => some (.comma, s)
  | ':' :: s => some (.colon, s)
  | 'n' :: 'u' :: 'l' :: 'l' :: s => some (.null, s)
  | 't' :: 'r' :: 'u' :: 'e' :: s => some (.bool true, s)
  | 'f' :: 'a' :: 'l' :: 's' :: 'e' :: s => some (.bool false, s)
  | _ => none

theorem length_of_symbol {s r : List Char} {t : Token} (h : symbol? s = some (t, r)) :
    r.length < s.length := by
  fun_cases symbol? s <;> simp_all [symbol?] <;> omega

/-- The token at the front, and what follows it. -/
def token? (s : List Char) : Option (Token × List Char) :=
  match s with
  | [] => none
  | c :: rest =>
    if c = '"' then (readText rest).map fun (ps, r) => (.text ((join ps).map String.ofList), r)
    else if c = '-' ∨ c.isDigit then
      match numberLength? (c :: rest) with
      | none => none
      | some n => some (.number (String.ofList ((c :: rest).take n)), rest.drop (n - 1))
    else symbol? (c :: rest)

theorem length_of_token {s r : List Char} {t : Token} (h : token? s = some (t, r)) :
    r.length < s.length := by
  unfold token? at h
  split at h
  · simp at h
  · split at h
    · simp only [Option.map_eq_some_iff] at h
      obtain ⟨⟨ps, u⟩, hu, hr⟩ := h
      have := length_of_readText hu
      simp at hr
      simp only [← hr.2, List.length_cons]
      omega
    · split at h
      · split at h
        · simp at h
        · simp at h
          simp only [← h.2, List.length_cons, List.length_drop]
          omega
      · exact length_of_symbol h

/-- Cuts a text into tokens, white space between them skipped. -/
def tokens (s : List Char) : Option (List Token) :=
  match s with
  | [] => some []
  | c :: rest =>
    if isBlank c then tokens rest
    else
      match _h : token? (c :: rest) with
      | none => none
      | some (t, r) => (tokens r).map (t :: ·)
termination_by s.length
decreasing_by
  · simp
  · exact length_of_token _h

/-! ## Values -/

/-- An array or object whose end has not come yet, its parts in reverse order; an object also keeps the key
that waits for its value. -/
inductive Frame where
  | array (items : List Json)
  | object (members : List (JsonText × Json)) (key : Option JsonText)

/-- What may come next. -/
inductive Mode where
  | value
  | firstItem
  | firstKey
  | nextKey
  | colon
  | separator
  | finished (v : Json)

/-- A reader in the middle of a document. -/
structure Reader where
  stack : List Frame
  mode : Mode

/-- Hands a complete value to the innermost open container. -/
def Reader.complete (v : Json) : List Frame → Option Reader
  | [] => some ⟨[], .finished v⟩
  | .array items :: rest => some ⟨.array (v :: items) :: rest, .separator⟩
  | .object members (some key) :: rest => some ⟨.object ((key, v) :: members) none :: rest, .separator⟩
  | .object _ none :: _ => none

/-- Takes a token where a value must come. -/
def Reader.value (stack : List Frame) : Token → Option Reader
  | .openArray => some ⟨.array [] :: stack, .firstItem⟩
  | .openObject => some ⟨.object [] none :: stack, .firstKey⟩
  | .null => complete .null stack
  | .bool b => complete (.bool b) stack
  | .number n => complete (.number n) stack
  | .text t => complete (.text t) stack
  | _ => none

def Reader.key (stack : List Frame) (t : Token) : Option Reader :=
  match stack, t with
  | .object members none :: rest, .text k => some ⟨.object members (some k) :: rest, .colon⟩
  | _, _ => none

def Reader.close (stack : List Frame) (t : Token) : Option Reader :=
  match stack, t with
  | .array items :: rest, .closeArray => complete (.array items.reverse) rest
  | .object members none :: rest, .closeObject => complete (.object members.reverse) rest
  | _, _ => none

def Reader.step (r : Reader) (t : Token) : Option Reader :=
  match r.mode, t with
  | .value, t => value r.stack t
  | .firstItem, .closeArray => close r.stack t
  | .firstItem, t => value r.stack t
  | .firstKey, .closeObject => close r.stack t
  | .firstKey, t => key r.stack t
  | .nextKey, t => key r.stack t
  | .colon, .colon => some ⟨r.stack, .value⟩
  | .colon, _ => none
  | .separator, .comma =>
    match r.stack with
    | .array _ :: _ => some ⟨r.stack, .value⟩
    | .object _ _ :: _ => some ⟨r.stack, .nextKey⟩
    | [] => none
  | .separator, t => close r.stack t
  | .finished _, _ => none

def parse? (s : String) : Option Json := do
  let ts ← tokens s.toList
  let r ← ts.foldlM Reader.step ⟨[], .value⟩
  match r.mode with
  | .finished v => some v
  | _ => none

/-! ## Writing -/

/-- The form of one character inside a written text. -/
def escape (c : Char) : List Char :=
  match c with
  | '"' => ['\\', '"']
  | '\\' => ['\\', '\\']
  | '\x08' => ['\\', 'b']
  | '\x0c' => ['\\', 'f']
  | '\n' => ['\\', 'n']
  | '\r' => ['\\', 'r']
  | '\t' => ['\\', 't']
  | c =>
    if c.toNat < 0x20 then
      ['\\', 'u', '0', '0', Nat.digitChar (c.toNat / 16), Nat.digitChar (c.toNat % 16)]
    else [c]

def quote (s : String) : String := String.ofList ('"' :: s.toList.flatMap escape ++ ['"'])

/-- An object on several lines, each member on its own line behind two blanks. -/
def prettyObject (members : List (String × String)) : String :=
  "\x7b\n" ++ ",\n".intercalate (members.map fun m => "  " ++ quote m.1 ++ ": " ++ m.2) ++ "\n\x7d"

end Json

end LayeredConfig
