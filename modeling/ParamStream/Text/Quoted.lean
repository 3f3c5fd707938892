import ParamStream.Text.Extending
import ParamStream.Text.Ignorable
import ParamStream.Text.Unprintable

/-!
# Quoted strings

String attributes and external symbols are written between double quotes.  Inside, the quote and
the backslash are escaped, the four common control characters have short escapes, and a character
that would not show as itself (an unprintable one, an invisible one, or a mark that would be drawn
onto its neighbour) is written as its code point in hexadecimal.  Every other character stands for
itself, the apostrophe included.
-/

namespace ParamStream.Text

/-- The code point of `c`, in lower-case hexadecimal without padding. -/
def codePoint (c : Char) : String :=
  "\\u\x7b" ++ String.ofList (Nat.toDigits 16 c.toNat) ++ "\x7d"

/-- The written form of one character inside quotes. -/
def quotedChar (c : Char) : String :=
  if c = '"' then "\\\""
  else if c = '\\' then "\\\\"
  else if c = '\n' then "\\n"
  else if c = '\r' then "\\r"
  else if c = '\t' then "\\t"
  else if c = Char.ofNat 0 then "\\0"
  else if isExtending c || isIgnorable c || isUnprintable c then codePoint c
  else c.toString

/-- `s` between double quotes. -/
def quoted (s : String) : String :=
  "\"" ++ s.toList.foldr (fun c rest => quotedChar c ++ rest) "\""

end ParamStream.Text
