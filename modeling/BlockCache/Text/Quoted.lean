import BlockCache.Text.Unprintable

/-!
# Quoted — a text between double quotes

Quotes, backslashes and the usual control characters get a backslash; a character that would not
show is written as its code in hexadecimal; everything else, the single quote included, stands for
itself.
-/

namespace BlockCache
namespace Text

def code (c : Char) : String :=
  "\\u\x7b" ++ String.ofList (Nat.toDigits 16 c.toNat) ++ "\x7d"

def escape (c : Char) : String :=
  if c = '\x00' then "\\0"
  else if c = '\t' then "\\t"
  else if c = '\n' then "\\n"
  else if c = '\r' then "\\r"
  else if c = '"' then "\\\""
  else if c = '\\' then "\\\\"
  else if isUnprintable c then code c
  else c.toString

def quote (s : String) : String :=
  "\"" ++ String.join (s.toList.map escape) ++ "\""

end Text
end BlockCache
