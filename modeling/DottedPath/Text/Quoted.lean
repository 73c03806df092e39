import DottedPath.Text.Printable

/-!
# Quoted texts

A text is quoted between single quotes, or between double quotes when it holds a single quote and no
double one. The quote in use, the backslash and the three common controls have two-character
escapes; every other character that is not printable is written by its code point in two, four or
eight lower-case hexadecimal digits. A sequence of bytes is quoted in the same way behind a `b`,
with ASCII as the printable characters.
-/

set_option autoImplicit false
set_option relaxedAutoImplicit false

namespace DottedPath.Text

/-- The last `width` hexadecimal digits of a number, in lower case. -/
def hexDigits : Nat → Nat → List Char
  | 0, _ => []
  | width + 1, n => hexDigits width (n / 16) ++ [Nat.digitChar (n % 16)]

/-- The quote around a text: a double quote only when that saves an escape. -/
def quoteFor (cs : List Char) : Char :=
  if '\'' ∈ cs ∧ '"' ∉ cs then '"' else '\''

/-- The escape of a character by its code point, in the shortest of the three widths. -/
def escapeCode (n : Nat) : List Char :=
  if n < 0x100 then '\\' :: 'x' :: hexDigits 2 n
  else if n < 0x10000 then '\\' :: 'u' :: hexDigits 4 n
  else '\\' :: 'U' :: hexDigits 8 n

/-- One character inside quotes, where `shown` tells the characters that need no escape. -/
def escape (shown : Char → Bool) (quote c : Char) : List Char :=
  if c = quote ∨ c = '\\' then ['\\', c]
  else if c = '\n' then ['\\', 'n']
  else if c = '\r' then ['\\', 'r']
  else if c = '\t' then ['\\', 't']
  else if shown c then [c]
  else escapeCode c.toNat

/-- A text between quotes, where `shown` tells the characters that need no escape. -/
def enclose (shown : Char → Bool) (cs : List Char) : List Char :=
  quoteFor cs :: cs.flatMap (escape shown (quoteFor cs)) ++ [quoteFor cs]

/-- A text between quotes. -/
def quoted (s : String) : String :=
  String.ofList (enclose isPrintable s.toList)

/-- A sequence of bytes between quotes, behind a `b`. -/
def quotedBytes (bytes : List UInt8) : String :=
  String.ofList ('b' :: enclose (fun c ↦ 0x20 ≤ c.toNat && c.toNat < 0x7F)
    (bytes.map fun byte ↦ Char.ofNat byte.toNat))

end DottedPath.Text
