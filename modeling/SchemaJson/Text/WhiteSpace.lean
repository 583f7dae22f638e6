import SchemaJson.Bytes

/-! White space of any script, which dates allow in front of their numbers. -/

namespace SchemaJson.Text

def isWhiteSpace (c : Char) : Bool :=
  let n := c.toNat
  (0x9 ≤ n && n ≤ 0xd) || n == 0x20 || n == 0x85 || n == 0xa0 || n == 0x1680
    || (0x2000 ≤ n && n ≤ 0x200a) || n == 0x2028 || n == 0x2029 || n == 0x202f || n == 0x205f
    || n == 0x3000

/-- Drops white space after the first `skipped` bytes, which belong to a space already seen. -/
def dropWhiteSpaceFrom : (skipped : Nat) → Bytes → Bytes
  | _, [] => []
  | skipped + 1, _ :: rest => dropWhiteSpaceFrom skipped rest
  | 0, byte :: rest =>
    match Bytes.firstChar? (byte :: rest) with
    | some c => if isWhiteSpace c then dropWhiteSpaceFrom (c.utf8Size - 1) rest else byte :: rest
    | none => byte :: rest

def dropWhiteSpace (text : Bytes) : Bytes := dropWhiteSpaceFrom 0 text

end SchemaJson.Text
