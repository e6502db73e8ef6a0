import CostCTL.Text.GraphemeExtend
import CostCTL.Text.Unprintable

/-!
# Quoted text

String literals as they are written in formulas and node labels: between double quotes, with the
quote, the backslash and four control characters escaped by a letter, and with every character
that would not show on its own written as its code point in hexadecimal.
-/

namespace CostCTL.Text

/-- Characters that are written as a code point: those that attach to their predecessor and those
that do not print. -/
def hidden (c : Char) : Bool :=
  GraphemeExtend.ranges.contains c || Unprintable.ranges.contains c

/-- The written form `\u{…}` of a code point. -/
def codePoint (c : Char) : List Char :=
  '\\' :: 'u' :: '\x7b' :: (Nat.toDigits 16 c.toNat ++ ['\x7d'])

def escape (c : Char) : List Char :=
  match c with
  | '\x00' => ['\\', '0']
  | '\t' => ['\\', 't']
  | '\n' => ['\\', 'n']
  | '\r' => ['\\', 'r']
  | '"' => ['\\', '"']
  | '\\' => ['\\', '\\']
  | c => if hidden c then codePoint c else [c]

def quoted (s : String) : String :=
  String.ofList ('"' :: (s.toList.flatMap escape ++ ['"']))

end CostCTL.Text
