import ClassLang.Text.Hidden

namespace ClassLang.Text

def shortEscape? : Char → Option Char
  | '\x00' => some '0'
  | '\t' => some 't'
  | '\n' => some 'n'
  | '\r' => some 'r'
  | '\x22' => some '\x22'
  | '\x5c' => some '\x5c'
  | _ => none

/-- A character as it stands between quotes; one that cannot be seen is written as its code point.
-/
def escape (c : Char) : List Char :=
  match shortEscape? c with
  | some letter => ['\x5c', letter]
  | none => if isHidden c then ['\x5c', 'u', '\x7b'] ++ Nat.toDigits 16 c.toNat ++ ['\x7d'] else [c]

def quoted (s : String) : String := String.ofList ('\x22' :: s.toList.flatMap escape ++ ['\x22'])

end ClassLang.Text
