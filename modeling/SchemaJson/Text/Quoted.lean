import SchemaJson.Text.Shown

/-! Characters and texts quoted for a reader. What cannot be shown is written as an escape, and
the quoting character is escaped inside its own quotes only. -/

namespace SchemaJson.Text

def codePoint (c : Char) : String :=
  "\\u\x7b" ++ String.ofList (Nat.toDigits 16 c.toNat) ++ "\x7d"

def escaped (quote c : Char) : String :=
  if c = '\x00' then "\\0"
  else if c = '\t' then "\\t"
  else if c = '\n' then "\\n"
  else if c = '\r' then "\\r"
  else if c = quote || c = '\\' then String.ofList ['\\', c]
  else if isShown c then c.toString
  else codePoint c

def quotedChar (c : Char) : String := "'" ++ escaped '\x27' c ++ "'"

def quotedText (text : String) : String :=
  "\"" ++ String.join (text.toList.map (escaped '\x22')) ++ "\""

end SchemaJson.Text
