import SchemaJson.Proofs.DecimalText
import SchemaJson.Proofs.EntryWalk

/-! Documents as trees of raw texts, and how trees are spelled. What may stand for strings and for
literals is a lexicon: the one of RFC 8259, or the loosest one whose texts are found whole. -/

namespace SchemaJson

inductive Tree where
  /-- What stands between the quotes. -/
  | string (raw : Bytes)
  | literal (raw : Bytes)
  | array (items : List Tree)
  | object (members : List (Bytes × Tree))

/-- Which texts may stand between quotes, and which may stand without them. -/
structure Lexicon where
  string : Bytes → Prop
  literal : Bytes → Prop

/-- Entries with a comma between any two and blanks around each. -/
inductive Joined : List Bytes → Bytes → Prop
  | none {blanks : Bytes} : IsBlankText blanks → Joined [] blanks
  | last {before core after : Bytes} : IsBlankText before → IsBlankText after →
      Joined [core] (before ++ (core ++ after))
  | cons {before core after next rest : Bytes} {cores : List Bytes} : IsBlankText before →
      IsBlankText after → Joined (next :: cores) rest →
      Joined (core :: next :: cores) (before ++ (core ++ (after ++ Ascii.comma :: rest)))

/-- One member of an object: its name, the blanks around the colon, and its value. -/
structure MemberText where
  name : Bytes
  beforeColon : Bytes
  afterColon : Bytes
  tree : Tree
  body : Bytes
  isBlank_beforeColon : IsBlankText beforeColon
  isBlank_afterColon : IsBlankText afterColon

namespace MemberText

def nameText (member : MemberText) : Bytes :=
  Ascii.quote :: member.name ++ [Ascii.quote] ++ member.beforeColon
    ++ Ascii.colon :: member.afterColon

def text (member : MemberText) : Bytes := member.nameText ++ member.body

def entry (member : MemberText) : Bytes × Tree := (member.name, member.tree)

end MemberText

/-- The text spells the tree, without blanks around it. -/
inductive Spells (lexicon : Lexicon) : Tree → Bytes → Prop
  | string {raw : Bytes} : lexicon.string raw →
      Spells lexicon (.string raw) (Ascii.quote :: raw ++ [Ascii.quote])
  | literal {raw : Bytes} : lexicon.literal raw → Spells lexicon (.literal raw) raw
  | array {items : List (Tree × Bytes)} {inner : Bytes} :
      (∀ item ∈ items, Spells lexicon item.1 item.2) → Joined (items.map Prod.snd) inner →
      Spells lexicon (.array (items.map Prod.fst))
        (Ascii.openBracket :: inner ++ [Ascii.closeBracket])
  | object {members : List MemberText} {inner : Bytes} :
      (∀ member ∈ members, lexicon.string member.name) →
      (∀ member ∈ members, Spells lexicon member.tree member.body) →
      Joined (members.map MemberText.text) inner →
      Spells lexicon (.object (members.map MemberText.entry))
        (Ascii.openBrace :: inner ++ [Ascii.closeBrace])

theorem Spells.mono {lexicon wider : Lexicon} {tree : Tree} {text : Bytes}
    (h : Spells lexicon tree text) (hstring : ∀ raw, lexicon.string raw → wider.string raw)
    (hliteral : ∀ raw, lexicon.literal raw → wider.literal raw) : Spells wider tree text := by
  induction h with
  | string hraw => exact .string (hstring _ hraw)
  | literal hraw => exact .literal (hliteral _ hraw)
  | array _ hjoined ih => exact .array ih hjoined
  | object hnames _ hjoined ih =>
    exact .object (fun member hmember => hstring _ (hnames member hmember)) ih hjoined

section Rfc

/-- A byte of a string that stands for itself, or an escape. -/
inductive IsRfcContent : Bytes → Prop
  | nil : IsRfcContent []
  | unescaped {byte : UInt8} {rest : Bytes} : 0x20 ≤ byte → byte ≠ Ascii.quote →
      byte ≠ Ascii.backslash → IsRfcContent rest → IsRfcContent (byte :: rest)
  | escaped {byte : UInt8} {rest : Bytes} :
      byte ∈ [Ascii.quote, Ascii.backslash, 0x2f, 0x62, 0x66, 0x6e, 0x72, 0x74] →
      IsRfcContent rest → IsRfcContent (Ascii.backslash :: byte :: rest)
  | codeUnit {digits rest : Bytes} : digits.length = 4 →
      (∀ byte ∈ digits, isDigit byte = true ∨ 0x41 ≤ byte ∧ byte ≤ 0x46 ∨
        0x61 ≤ byte ∧ byte ≤ 0x66) →
      IsRfcContent rest → IsRfcContent (Ascii.backslash :: 0x75 :: digits ++ rest)

def isUnescaped (byte : UInt8) : Bool :=
  0x20 ≤ byte && byte != Ascii.quote && byte != Ascii.backslash

theorem IsRfcContent.of_unescaped {text : Bytes} (h : text.all isUnescaped = true) :
    IsRfcContent text := by
  induction text with
  | nil => exact .nil
  | cons byte text ih =>
    rw [List.all_cons, Bool.and_eq_true] at h
    have hbyte := h.1
    simp only [isUnescaped, Bool.and_eq_true, decide_eq_true_eq, bne_iff_ne] at hbyte
    exact .unescaped hbyte.1.1 hbyte.1.2 hbyte.2 (ih h.2)

/-- A minus sign or none, a whole number without zeros in front, and a fraction and an exponent or
none. -/
inductive IsRfcNumber : Bytes → Prop
  | mk {sign whole fraction exponent : Bytes} : sign ∈ [[], [Ascii.minus]] → IsDigitText whole →
      (whole.head? = some 0x30 → whole = [0x30]) →
      (fraction = [] ∨ ∃ digits, fraction = Ascii.point :: digits ∧ IsDigitText digits) →
      (exponent = [] ∨ ∃ letter sign digits, exponent = letter :: sign ++ digits ∧
        letter ∈ [0x65, 0x45] ∧ sign ∈ [[], [Ascii.plus], [Ascii.minus]] ∧ IsDigitText digits) →
      IsRfcNumber (sign ++ whole ++ fraction ++ exponent)

/-- The strings, numbers and names of RFC 8259. -/
def rfcLexicon : Lexicon where
  string := IsRfcContent
  literal text := text = Bytes.ofString "true" ∨ text = Bytes.ofString "false" ∨
    text = Bytes.ofString "null" ∨ IsRfcNumber text

end Rfc

/-- A byte that no search stops at: no bracket, separator, colon, quote, backslash or blank. -/
def isPlain (byte : UInt8) : Bool :=
  !isSeparator byte && !isBlank byte && byte != Ascii.colon && byte != Ascii.quote
    && byte != Ascii.backslash && byte != Ascii.openBracket && byte != Ascii.openBrace

/-- Strings end at the first quote that is not escaped; literals have plain bytes only. -/
def looseLexicon : Lexicon where
  string := IsStringContent
  literal text := text ≠ [] ∧ ∀ byte ∈ text, isPlain byte = true

theorem IsStringContent.cons {byte : UInt8} {rest : Bytes} (hquote : byte ≠ Ascii.quote)
    (hbackslash : byte ≠ Ascii.backslash) (h : IsStringContent rest) :
    IsStringContent (byte :: rest) := by
  have hescape : (byte == Ascii.backslash) = false := by simpa using hbackslash
  simpa [IsStringContent, escapeAfter?, hquote, hescape] using h

theorem IsStringContent.escaped {byte : UInt8} {rest : Bytes} (h : IsStringContent rest) :
    IsStringContent (Ascii.backslash :: byte :: rest) := h

theorem IsRfcContent.isStringContent {text : Bytes} (h : IsRfcContent text) :
    IsStringContent text := by
  induction h with
  | nil => rfl
  | unescaped _ hquote hbackslash _ ih => exact ih.cons hquote hbackslash
  | escaped _ _ ih => exact ih.escaped
  | @codeUnit digits rest _ hdigits _ ih =>
    have hcontent : IsStringContent (digits ++ rest) := by
      clear * - hdigits ih
      induction digits with
      | nil => exact ih
      | cons byte digits ihDigits =>
        refine (ihDigits fun other hmem => hdigits other (by simp [hmem])).cons ?_ ?_
        · rintro rfl
          exact absurd (hdigits Ascii.quote (by simp)) (by decide)
        · rintro rfl
          exact absurd (hdigits Ascii.backslash (by simp)) (by decide)
    exact hcontent.escaped

theorem isPlain_of_isDigit {byte : UInt8} (h : isDigit byte = true) : isPlain byte = true := by
  have hbits : ∀ bits : BitVec 8, isDigit ⟨bits⟩ = true → isPlain ⟨bits⟩ = true := by
    decide
  exact hbits byte.toBitVec h

theorem IsDigitText.isPlain {text : Bytes} (h : IsDigitText text) :
    ∀ byte ∈ text, isPlain byte = true :=
  fun byte hmem => isPlain_of_isDigit (h.2 byte hmem)

theorem IsRfcNumber.isPlain {text : Bytes} (h : IsRfcNumber text) :
    text ≠ [] ∧ ∀ byte ∈ text, isPlain byte = true := by
  obtain ⟨hsign, hwhole, -, hfraction, hexponent⟩ := h
  constructor
  · simp [hwhole.1]
  · simp only [List.mem_append]
    rintro byte (((hmem | hmem) | hmem) | hmem)
    · simp only [List.mem_cons, List.not_mem_nil, or_false] at hsign
      rcases hsign with rfl | rfl
      · cases hmem
      · rw [List.mem_singleton.mp hmem]
        rfl
    · exact hwhole.isPlain byte hmem
    · rcases hfraction with rfl | ⟨digits, rfl, hdigits⟩
      · cases hmem
      · rcases List.mem_cons.mp hmem with rfl | hmem
        · rfl
        · exact hdigits.isPlain byte hmem
    · rcases hexponent with rfl | ⟨letter, sign, digits, rfl, hletter, hsign, hdigits⟩
      · cases hmem
      · simp only [List.mem_cons, List.not_mem_nil, or_false] at hletter hsign
        simp only [List.cons_append, List.mem_cons, List.mem_append] at hmem
        rcases hmem with rfl | hmem | hmem
        · rcases hletter with rfl | rfl <;> rfl
        · rcases hsign with rfl | rfl | rfl
          · cases hmem
          · rw [List.mem_singleton.mp hmem]
            rfl
          · rw [List.mem_singleton.mp hmem]
            rfl
        · exact hdigits.isPlain byte hmem

/-- What RFC 8259 lets stand for strings and literals is found whole. -/
theorem Spells.loose_of_rfc {tree : Tree} {text : Bytes} (h : Spells rfcLexicon tree text) :
    Spells looseLexicon tree text := by
  refine h.mono (fun raw => IsRfcContent.isStringContent) fun raw hraw => ?_
  rcases hraw with rfl | rfl | rfl | hnumber
  · exact ⟨List.cons_ne_nil _ _, List.all_eq_true.mp rfl⟩
  · exact ⟨List.cons_ne_nil _ _, List.all_eq_true.mp rfl⟩
  · exact ⟨List.cons_ne_nil _ _, List.all_eq_true.mp rfl⟩
  · exact hnumber.isPlain

end SchemaJson
