import LayeredConfig.Text.CharClass

/-!
# Quoted text

A text between double quotes, in which every character that could be misread is escaped: the quote and
the backslash, the usual control characters by a letter, and every other character that is unprintable
or draws onto its neighbour by its code point in lower-case hexadecimal.
-/

namespace LayeredConfig.Quoted

open CharClass

/-- The lower-case hexadecimal digits of `n`, at least one. -/
def hex (n : Nat) : List Char := Nat.toDigits 16 n

/-- The form of one character between the quotes. -/
def escape (c : Char) : List Char :=
  match c with
  | '\x00' => ['\\', '0']
  | '\t' => ['\\', 't']
  | '\r' => ['\\', 'r']
  | '\n' => ['\\', 'n']
  | '"' => ['\\', '"']
  | '\\' => ['\\', '\\']
  | c =>
    if extendsGrapheme c || isUnprintable c then ['\\', 'u', '\x7b'] ++ hex c.toNat ++ ['\x7d']
    else [c]

def quote (s : String) : String :=
  String.ofList ('"' :: s.toList.flatMap escape ++ ['"'])

end LayeredConfig.Quoted
