import SchemaJson.Text.Reader
import SchemaJson.Date.Calendar
import SchemaJson.Number.Decimal
import SchemaJson.Toml.Value

/-! The parts of a TOML document that lie within one line, and strings: blanks, comments, keys,
numbers, dates and strings. -/

namespace SchemaJson.Toml

open Reader

def isSpace (byte : UInt8) : Bool := byte == Ascii.space || byte == Ascii.tab

def spaces : Reader Unit := fun text => some ((), text.dropWhile isSpace)

def newline : Reader Unit := fun text =>
  match text with
  | 0x0a :: rest => some ((), rest)
  | 0x0d :: 0x0a :: rest => some ((), rest)
  | _ => none

/-- A byte that may stand in a comment or in a string on one line. -/
def isPlain (byte : UInt8) : Bool := byte == Ascii.tab || (0x20 ≤ byte && byte != 0x7f)

def comment : Reader Unit := fun text =>
  match text with
  | 0x23 :: rest => some ((), rest.dropWhile isPlain)
  | _ => some ((), text)

def lineEnd : Reader Unit := do
  spaces
  comment
  let text ← get
  if text.isEmpty then return () else newline

/-- Lines that hold nothing but blanks and comments, and the blanks after them. -/
def blankLines : (steps : Nat) → Reader Unit
  | 0 => return ()
  | steps + 1 => fun text =>
    match (do spaces; comment : Reader Unit) text with
    | some (_, rest) =>
      match newline rest with
      | some (_, rest) => blankLines steps rest
      | none => some ((), rest)
    | none => none

def anyBlank : Reader Unit := do blankLines ((← get).length + 1)

def hexValue? (byte : UInt8) : Option Nat :=
  if isDigit byte then some (digitValue byte)
  else if 0x61 ≤ byte && byte ≤ 0x66 then some (byte.toNat - 0x57)
  else if 0x41 ≤ byte && byte ≤ 0x46 then some (byte.toNat - 0x37)
  else none

def codePoint (digits : Nat) : Reader Bytes := fun text =>
  let values := (text.take digits).filterMap hexValue?
  let code := values.foldl (fun n d => 16 * n + d) 0
  if values.length = digits ∧ (code < 0xd800 ∨ (0xe000 ≤ code ∧ code < 0x110000)) then
    some (String.utf8EncodeChar (Char.ofNat code), text.drop digits)
  else none

def escape : Reader Bytes := fun text =>
  match text with
  | 0x62 :: rest => some ([0x08], rest)
  | 0x74 :: rest => some ([0x09], rest)
  | 0x6e :: rest => some ([0x0a], rest)
  | 0x66 :: rest => some ([0x0c], rest)
  | 0x72 :: rest => some ([0x0d], rest)
  | 0x22 :: rest => some ([0x22], rest)
  | 0x5c :: rest => some ([0x5c], rest)
  | 0x75 :: rest => codePoint 4 rest
  | 0x55 :: rest => codePoint 8 rest
  | _ => none

/-- The rest of a string with escapes on one line. -/
def basicRest : (steps : Nat) → Reader Bytes
  | 0 => failure
  | steps + 1 => fun text =>
    match text with
    | [] => none
    | byte :: rest =>
      if byte = Ascii.quote then some ([], rest)
      else if byte = Ascii.backslash then
        match escape rest with
        | some (part, rest) => (basicRest steps rest).map fun (tail, rest) => (part ++ tail, rest)
        | none => none
      else if isPlain byte then
        (basicRest steps rest).map fun (tail, rest) => (byte :: tail, rest)
      else none

def apostrophe : UInt8 := 0x27

/-- The rest of a string without escapes on one line. -/
def literalRest : Reader Bytes := fun text =>
  let content := text.takeWhile fun byte => isPlain byte && byte != apostrophe
  match text.drop content.length with
  | byte :: rest => if byte = apostrophe then some (content, rest) else none
  | [] => none

/-- The three quotes that end a string of several lines, with up to two more that belong to the
string. -/
def closing? (quote : UInt8) (text : Bytes) : Option (Bytes × Bytes) :=
  let quotes := (text.take 5).takeWhile (· == quote)
  if 3 ≤ quotes.length then some (quotes.drop 3, text.drop quotes.length) else none

def dropBlankLines : Bytes → Bytes
  | 0x0d :: 0x0a :: rest => dropBlankLines rest
  | byte :: rest => if isSpace byte || byte == 0x0a then dropBlankLines rest else byte :: rest
  | [] => []

/-- The blanks after a backslash at the end of a line, and all blank lines after that. -/
def lineContinuation : Reader Unit := do
  spaces
  newline
  modify dropBlankLines

/-- The rest of a string of several lines. Escapes count in one kind of them only. -/
def multilineRest (quote : UInt8) (escapes : Bool) : (steps : Nat) → Reader Bytes
  | 0 => failure
  | steps + 1 => fun text =>
    let more (part rest : Bytes) := (multilineRest quote escapes steps rest).map
      fun (tail, rest) => (part ++ tail, rest)
    match closing? quote text with
    | some result => some result
    | none =>
      match text with
      | [] => none
      | byte :: rest =>
        if escapes && byte == Ascii.backslash then
          match escape rest with
          | some (part, rest) => more part rest
          | none =>
            match lineContinuation rest with
            | some (_, rest) => more [] rest
            | none => none
        else if isPlain byte || byte == 0x0a then more [byte] rest
        else match newline text with
          | some (_, rest) => more [0x0a] rest
          | none => none

def string : Reader Bytes := fun text =>
  match text with
  | 0x22 :: 0x22 :: 0x22 :: rest =>
    let rest := ((newline rest).map Prod.snd).getD rest
    multilineRest Ascii.quote true (rest.length + 1) rest
  | 0x27 :: 0x27 :: 0x27 :: rest =>
    let rest := ((newline rest).map Prod.snd).getD rest
    multilineRest apostrophe false (rest.length + 1) rest
  | 0x22 :: rest => basicRest (rest.length + 1) rest
  | 0x27 :: rest => literalRest rest
  | _ => none

def isBareKey (byte : UInt8) : Bool :=
  isDigit byte || (0x61 ≤ byte && byte ≤ 0x7a) || (0x41 ≤ byte && byte ≤ 0x5a)
    || byte == Ascii.minus || byte == 0x5f

def simpleKey : Reader Bytes := fun text =>
  match text with
  | 0x22 :: rest => basicRest (rest.length + 1) rest
  | 0x27 :: rest => literalRest rest
  | _ =>
    let name := text.takeWhile isBareKey
    if name = [] then none else some (name, text.drop name.length)

/-- Keys with points between them, and the blanks around each. -/
def keyPath : (steps : Nat) → Reader (List Bytes)
  | 0 => failure
  | steps + 1 => do
    spaces
    let first ← simpleKey
    spaces
    let text ← get
    match text with
    | 0x2e :: rest =>
      set rest
      return first :: (← keyPath steps)
    | _ => return [first]

/-- Arrays, inline tables and the keys of a path nest less deep than this. -/
def greatestNesting : Nat := 80

def key : Reader (List Bytes) := do
  let path ← keyPath ((← get).length + 1)
  if path.length < greatestNesting then return path else failure

/-- Digits with single underscores between them, without the underscores. -/
def groupedDigits (isDigit : UInt8 → Bool) : Bytes → Option Bytes
  | [] => none
  | [digit] => if isDigit digit then some [digit] else none
  | digit :: next :: rest =>
    if isDigit digit then
      if next == 0x5f then (groupedDigits isDigit rest).map (digit :: ·)
      else (groupedDigits isDigit (next :: rest)).map (digit :: ·)
    else none

def isAmong (low high : UInt8) (byte : UInt8) : Bool := low ≤ byte && byte ≤ high

def inRadix (radix : Nat) (isDigit : UInt8 → Bool) (text : Bytes) : Option Int := do
  let digits ← groupedDigits isDigit text
  let values := digits.filterMap hexValue?
  return (values.foldl (fun n d => radix * n + d) 0 : Nat)

def withoutSign : Bytes → Bytes
  | [] => []
  | byte :: rest => if byte = Ascii.plus ∨ byte = Ascii.minus then rest else byte :: rest

/-- Decimal digits without a zero in front of others. -/
def wholeDigits (text : Bytes) : Option Bytes := do
  let digits ← groupedDigits isDigit text
  if digits.head? = some 0x30 ∧ text.length ≠ 1 then none else some digits

def integer? (text : Bytes) : Option Int := do
  let n ← match text with
    | 0x30 :: 0x78 :: rest => inRadix 16 (fun byte => (hexValue? byte).isSome) rest
    | 0x30 :: 0x6f :: rest => inRadix 8 (isAmong 0x30 0x37) rest
    | 0x30 :: 0x62 :: rest => inRadix 2 (isAmong 0x30 0x31) rest
    | _ => do
      let digits ← wholeDigits (withoutSign text)
      let n : Int := digitsValue digits
      some (if text.head? = some Ascii.minus then -n else n)
  if IntegerKind.i64.holds n then some n else none

def isExponent (text : Bytes) : Bool := (groupedDigits isDigit (withoutSign text)).isSome

/-- Whether the text is a number with a fraction or an exponent that is not above all values. -/
def isFloat (text : Bytes) : Bool :=
  let unsigned := withoutSign text
  if unsigned = [0x69, 0x6e, 0x66] ∨ unsigned = [0x6e, 0x61, 0x6e] then true
  else
    let isMark (byte : UInt8) : Bool := byte == 0x65 || byte == 0x45
    let mantissa := unsigned.takeWhile fun byte => !isMark byte
    let exponent := unsigned.drop mantissa.length
    let whole := mantissa.takeWhile (· != Ascii.point)
    let fraction := mantissa.drop whole.length
    (wholeDigits whole).isSome
      && (fraction.isEmpty || (groupedDigits isDigit (fraction.drop 1)).isSome)
      && (exponent.isEmpty || isExponent (exponent.drop 1))
      && !(fraction.isEmpty && exponent.isEmpty)
      && (text.head? == some Ascii.minus
        || (FloatFormat.double.read (text.filter (· != 0x5f))).isSome)

def calendarDate : Reader Unit := do
  let year ← number 4 4
  one Ascii.minus
  let month ← number 2 2
  one Ascii.minus
  let day ← number 2 2
  if (CalendarDate.mk year month day).isValid then return () else failure

def timeOfDay : Reader Unit := do
  let hour ← number 2 2
  one Ascii.colon
  let minute ← number 2 2
  one Ascii.colon
  let second ← number 2 2
  if hour ≤ 23 ∧ minute ≤ 59 ∧ second ≤ 60 then
    match ← get with
    | 0x2e :: rest => do
      set rest
      let _ ← number 1 rest.length
    | _ => return ()
  else failure

def zone : Reader Unit := fun text =>
  match text with
  | 0x5a :: rest | 0x7a :: rest => some ((), rest)
  | _ => (do
    oneOf [Ascii.plus, Ascii.minus]
    let hours ← number 2 2
    one Ascii.colon
    let minutes ← number 2 2
    if hours ≤ 23 ∧ minutes ≤ 59 then return () else failure : Reader Unit) text

def optional (reader : Reader Unit) : Reader Unit := fun text =>
  match reader text with
  | some result => some result
  | none => some ((), text)

def dateTime : Reader Unit := fun text =>
  match calendarDate text with
  | some (_, rest) =>
    optional (do oneOf [0x54, 0x74, Ascii.space]; timeOfDay; optional zone) rest
  | none => timeOfDay text

/-- A byte of a number, of `inf` or of `nan`. -/
def isNumeral (byte : UInt8) : Bool :=
  isBareKey byte || byte == Ascii.plus || byte == Ascii.point

def word : Reader Value := fun text =>
  match dateTime text with
  | some (_, rest) => some (.dateTime, rest)
  | none =>
    let token := text.takeWhile isNumeral
    let rest := text.drop token.length
    if token = [0x74, 0x72, 0x75, 0x65] then some (.bool true, rest)
    else if token = [0x66, 0x61, 0x6c, 0x73, 0x65] then some (.bool false, rest)
    else match integer? token with
      | some n => some (.integer n, rest)
      | none => if isFloat token then some (.float, rest) else none

def scalar : Reader Value := fun text =>
  match text with
  | 0x22 :: _ | 0x27 :: _ => (string text).map fun (content, rest) => (.string content, rest)
  | _ => word text

end SchemaJson.Toml
