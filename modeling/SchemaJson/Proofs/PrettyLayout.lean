import SchemaJson.Proofs.CompactText
import SchemaJson.Proofs.FloatText
import SchemaJson.Proofs.StringLiterals

/-! Layout. Writers that are told to do the same things write the same text but for the blanks
between strings, whatever their options say about lines and indents, and refuse the same things. -/

namespace SchemaJson

/-- How far a text is read: between its strings, in one of them, or behind a backslash in one. -/
inductive StringScan where
  | between | inside | escaped
  deriving DecidableEq, Repr

namespace Bytes

def withoutBlanksFrom : StringScan → Bytes → Bytes
  | _, [] => []
  | .between, byte :: rest =>
    if isBlank byte then withoutBlanksFrom .between rest
    else byte :: withoutBlanksFrom (if byte = Ascii.quote then .inside else .between) rest
  | .inside, byte :: rest =>
    byte :: withoutBlanksFrom
      (if byte = Ascii.quote then .between
        else if byte = Ascii.backslash then .escaped else .inside) rest
  | .escaped, byte :: rest => byte :: withoutBlanksFrom .inside rest

def withoutBlanks (text : Bytes) : Bytes := withoutBlanksFrom .between text

end Bytes

/-- The text ends between strings, and without its blanks it is the core. -/
def Condenses (text core : Bytes) : Prop :=
  ∀ rest, Bytes.withoutBlanks (text ++ rest) = core ++ Bytes.withoutBlanks rest

namespace Condenses

variable {text core next nextCore : Bytes}

theorem nil : Condenses [] [] := fun _ => rfl

theorem append (h : Condenses text core) (hnext : Condenses next nextCore) :
    Condenses (text ++ next) (core ++ nextCore) := by
  intro rest
  rw [List.append_assoc, h, hnext, List.append_assoc]

theorem withoutBlanks_eq (h : Condenses text core) : text.withoutBlanks = core := by
  have hwhole := h []
  rwa [List.append_nil, show Bytes.withoutBlanks [] = [] from rfl, List.append_nil] at hwhole

theorem of_blanks (h : IsBlankText text) : Condenses text [] := by
  induction text with
  | nil => exact nil
  | cons byte text ih =>
    intro rest
    have hbyte : isBlank byte = true := h byte (by simp)
    rw [List.cons_append, Bytes.withoutBlanks, Bytes.withoutBlanksFrom, if_pos hbyte]
    exact ih (fun other hmem => h other (by simp [hmem])) rest

theorem of_solid (h : text.all (fun byte => !isBlank byte && byte != Ascii.quote) = true) :
    Condenses text text := by
  simp only [List.all_eq_true, Bool.and_eq_true, Bool.not_eq_true', bne_iff_ne] at h
  induction text with
  | nil => exact nil
  | cons byte text ih =>
    intro rest
    obtain ⟨⟨hblank, hquote⟩, hrest⟩ := List.forall_mem_cons.mp h
    rw [List.cons_append, Bytes.withoutBlanks, Bytes.withoutBlanksFrom,
      if_neg (Bool.eq_false_iff.mp hblank), if_neg hquote]
    exact congrArg (byte :: ·) (ih hrest rest)

theorem of_isNumeric (h : ∀ byte ∈ text, isNumeric byte = true) : Condenses text text := by
  refine of_solid (List.all_eq_true.mpr fun byte hmem => ?_)
  have hplain := (writtenLexicon.of_isNumeric (h byte hmem)).2.1
  simp only [isPlain, Bool.and_eq_true] at hplain ⊢
  tauto

/-- Inside a string every byte stays, up to the quote that ends it. -/
theorem withoutBlanksFrom_append {escaped stop : Bool} {raw : Bytes}
    (h : escapeAfter? escaped raw = some stop) (rest : Bytes) :
    Bytes.withoutBlanksFrom (if escaped then .escaped else .inside) (raw ++ rest)
      = raw ++ Bytes.withoutBlanksFrom (if stop then .escaped else .inside) rest := by
  induction raw generalizing escaped with
  | nil =>
    obtain rfl := Option.some.inj h
    rfl
  | cons byte raw ih =>
    cases escaped with
    | true => exact congrArg (byte :: ·) (ih h)
    | false =>
      simp only [escapeAfter?] at h
      split at h
      next => cases h
      next hquote =>
        have hrest := ih h
        simp only [Bool.false_eq_true, if_false, List.cons_append, Bytes.withoutBlanksFrom, hquote,
          beq_iff_eq] at hrest ⊢
        rw [hrest]

theorem of_isStringContent {raw : Bytes} (h : IsStringContent raw) :
    Condenses (Ascii.quote :: raw ++ [Ascii.quote]) (Ascii.quote :: raw ++ [Ascii.quote]) := by
  intro rest
  have hinside := withoutBlanksFrom_append h (Ascii.quote :: rest)
  have hopened : Bytes.withoutBlanks (Ascii.quote :: raw ++ [Ascii.quote] ++ rest)
      = Ascii.quote :: Bytes.withoutBlanksFrom .inside (raw ++ Ascii.quote :: rest) := by
    simp only [List.cons_append, List.append_assoc, List.nil_append]
    rfl
  rw [hopened, show StringScan.inside = if false then .escaped else .inside from rfl, hinside]
  simp only [List.cons_append, List.append_assoc, List.nil_append]
  rfl

theorem quoted (text : Bytes) : Condenses (Writer.quoted text) (Writer.quoted text) :=
  of_isStringContent (Writer.isStringContent_escape text)

end Condenses

namespace Writer

/-- The first writer has written without layout what the second has written, and will go on so. -/
structure IsCompactOf (compact writer : Writer) : Prop where
  pretty : compact.options.pretty = false
  maxDepth : compact.options.maxDepth = writer.options.maxDepth
  pending : compact.pending = writer.pending
  numbersQuoted : compact.numbersQuoted = writer.numbersQuoted
  text : Condenses writer.text compact.text

namespace IsCompactOf

variable {compact writer : Writer}

theorem put {bytes core : Bytes} (h : compact.IsCompactOf writer) (hbytes : Condenses bytes core) :
    (compact.put core).IsCompactOf (writer.put bytes) where
  pretty := h.pretty
  maxDepth := h.maxDepth
  pending := h.pending
  numbersQuoted := h.numbersQuoted
  text := by
    rw [text_put, text_put]
    exact h.text.append hbytes

theorem withPending (h : compact.IsCompactOf writer) (pending : List OpenContainer) :
    IsCompactOf { compact with pending := pending } { writer with pending := pending } :=
  ⟨h.pretty, h.maxDepth, rfl, h.numbersQuoted, h.text⟩

theorem withNumbersQuoted (h : compact.IsCompactOf writer) (quoted : Bool) :
    (compact.withNumbersQuoted quoted).IsCompactOf (writer.withNumbersQuoted quoted) :=
  ⟨h.pretty, h.maxDepth, h.pending, rfl, h.text⟩

theorem condenses_lineBreak (h : compact.IsCompactOf writer) (depth : Nat) :
    Condenses (lineBreak writer.options depth) (lineBreak compact.options depth) := by
  rw [lineBreak_compact h.pretty]
  exact .of_blanks (isBlankText_lineBreak writer.options depth)

theorem startEntry (h : compact.IsCompactOf writer) :
    compact.startEntry.IsCompactOf writer.startEntry := by
  -- Both writers have the same containers open, and so they break their lines at the same places.
  rcases hpending : writer.pending with _ | ⟨⟨container, _ | _⟩, outer⟩
  · rw [Writer.startEntry, Writer.startEntry, h.pending, hpending]
    exact h
  · rw [startEntry_next hpending, startEntry_next (h.pending.trans hpending)]
    have hcomma : Condenses [Ascii.comma] [Ascii.comma] := .of_solid (by decide)
    exact h.put (hcomma.append (h.condenses_lineBreak _))
  · rw [startEntry_first hpending, startEntry_first (h.pending.trans hpending)]
    exact (h.withPending _).put (h.condenses_lineBreak _)

theorem startValue (h : compact.IsCompactOf writer) :
    compact.startValue.IsCompactOf writer.startValue := by
  rw [Writer.startValue, Writer.startValue, h.pending]
  split
  · exact h.startEntry
  · exact h

theorem begin (h : compact.IsCompactOf writer) (container : Container) :
    (compact.begin container).IsCompactOf (writer.begin container) := by
  have hopening : Condenses [container.opening] [container.opening] :=
    .of_solid (by cases container <;> decide)
  have hopened := h.startValue.put hopening
  rw [Writer.begin, Writer.begin, hopened.pending]
  exact hopened.withPending _

theorem finish (h : compact.IsCompactOf writer) (container : Container) :
    (compact.finish container).IsCompactOf (writer.finish container) := by
  have hclosing : Condenses [container.closing] [container.closing] :=
    .of_solid (by cases container <;> decide)
  rcases hpending : writer.pending with _ | ⟨⟨inner, _ | _⟩, outer⟩
  · rw [Writer.finish, Writer.finish, h.pending, hpending]
    exact h.put hclosing
  · rw [finish_full hpending, finish_full (h.pending.trans hpending)]
    exact (h.withPending outer).put ((h.condenses_lineBreak outer.length).append hclosing)
  · rw [finish_empty hpending, finish_empty (h.pending.trans hpending)]
    exact (h.withPending outer).put hclosing

theorem key (h : compact.IsCompactOf writer) (name : Bytes) :
    (compact.key name).IsCompactOf (writer.key name) := by
  have hcolon : Condenses [Ascii.colon] [Ascii.colon] := .of_solid (by decide)
  have hblanks : Condenses (afterColon writer.options) (afterColon compact.options) := by
    rw [afterColon, afterColon, h.pretty]
    exact .of_blanks (isBlankText_afterColon writer.options)
  rw [key_eq, key_eq]
  exact h.startEntry.put ((Condenses.quoted name).append (hcolon.append hblanks))

theorem number (h : compact.IsCompactOf writer) {digits : Bytes}
    (hdigits : ∀ byte ∈ digits, isNumeric byte = true) :
    (compact.number digits).IsCompactOf (writer.number digits) := by
  rw [Writer.number, Writer.number, h.numbersQuoted]
  refine h.startValue.put ?_
  split
  · exact .of_isStringContent (writtenLexicon.string_of_isNumeric hdigits).1
  · exact .of_isNumeric hdigits

end IsCompactOf

/-- What a writer can be told to do. -/
inductive Operation where
  | begin (container : Container)
  | finish (container : Container)
  | key (name : Bytes)
  | null
  | scalar (content : Scalar)
  /-- Numbers are written with quotes from here on, or without. -/
  | quoteNumbers (quoted : Bool)
  deriving DecidableEq, Repr

namespace Operation

def write : Operation → Write Unit
  | begin container => Write.begin container
  | finish container => Write.finish container
  | key name => Write.put (.key name)
  | null => Write.put .null
  | scalar content => Write.scalar content
  | quoteNumbers quoted => Write.put (.withNumbersQuoted quoted)

/-- The result of every operation, and the writer behind the last. One that fails does not keep
the next ones from being tried. -/
def run : List Operation → Writer → List (Except Error Unit) × Writer
  | [], writer => ([], writer)
  | operation :: operations, writer =>
    let (result, next) := Write.outcome operation.write writer
    let (results, last) := run operations next
    (result :: results, last)

end Operation

end Writer

namespace Write

/-- Both steps have the same result, and leave writers of the same text. -/
def IsAlike (step : Write Unit) : Prop :=
  ∀ compact writer : Writer, compact.IsCompactOf writer →
    (outcome step compact).1 = (outcome step writer).1 ∧
      (outcome step compact).2.IsCompactOf (outcome step writer).2

namespace IsAlike

theorem put {step : Writer → Writer}
    (h : ∀ compact writer : Writer, compact.IsCompactOf writer →
      (step compact).IsCompactOf (step writer)) : IsAlike (Write.put step) :=
  fun compact writer hcompact => ⟨rfl, h compact writer hcompact⟩

theorem throw (error : Error) : IsAlike (throw error) :=
  fun _ _ hcompact => ⟨rfl, hcompact⟩

theorem begin (container : Container) : IsAlike (Write.begin container) := by
  intro compact writer hcompact
  rw [outcome_begin, outcome_begin, hcompact.maxDepth, hcompact.pending]
  split
  · exact ⟨rfl, hcompact⟩
  · exact ⟨rfl, hcompact.begin container⟩

theorem float (format : FloatFormat) (bits : Nat) : IsAlike (Write.float format bits) := by
  rw [Write.float]
  split
  · exact put fun _ _ hcompact =>
      hcompact.number (format.documentLayout.isNumeric_write format bits)
  · exact throw _

theorem scalar (content : Scalar) : IsAlike (Write.scalar content) := by
  cases content with
  | integer kind value => exact put fun _ _ hcompact => hcompact.number (isNumeric_decimalInt value)
  | float format bits => exact float format bits
  | bool value =>
    refine put fun _ _ hcompact => hcompact.startValue.put (.of_solid ?_)
    cases value <;> decide
  | text content => exact put fun _ _ hcompact => hcompact.startValue.put (.quoted content)
  | date instant => exact put fun _ _ hcompact => hcompact.startValue.put (.quoted instant.write)

end IsAlike

end Write

namespace Writer.Operation

theorem isAlike_write (operation : Operation) : operation.write.IsAlike := by
  cases operation with
  | begin container => exact .begin container
  | finish container => exact .put fun _ _ hcompact => hcompact.finish container
  | key name => exact .put fun _ _ hcompact => hcompact.key name
  | null =>
    exact .put fun _ _ hcompact => hcompact.startValue.put (.of_solid (by decide))
  | scalar content => exact .scalar content
  | quoteNumbers quoted => exact .put fun _ _ hcompact => hcompact.withNumbersQuoted quoted

theorem run_of_isCompactOf (operations : List Operation) {compact writer : Writer}
    (h : compact.IsCompactOf writer) :
    (run operations compact).1 = (run operations writer).1 ∧
      (run operations compact).2.IsCompactOf (run operations writer).2 := by
  induction operations generalizing compact writer with
  | nil => exact ⟨rfl, h⟩
  | cons operation operations ih =>
    obtain ⟨hresult, hnext⟩ := isAlike_write operation compact writer h
    obtain ⟨hresults, hlast⟩ := ih hnext
    exact ⟨congrArg₂ List.cons hresult hresults, hlast⟩

/-- Whatever a writer is told to do, in whatever order, lines and indents do not change which
operations fail, nor how, and the text with them is the one without them once the blanks between
its strings are taken out. -/
theorem run_pretty (operations : List Operation) (indent compactIndent maxDepth : Nat) :
    let pretty := run operations (.start ⟨true, indent, maxDepth⟩)
    let compact := run operations (.start ⟨false, compactIndent, maxDepth⟩)
    pretty.1 = compact.1 ∧ pretty.2.text.withoutBlanks = compact.2.text := by
  intro pretty compact
  have hstart : (start ⟨false, compactIndent, maxDepth⟩).IsCompactOf
      (start ⟨true, indent, maxDepth⟩) := ⟨rfl, rfl, rfl, rfl, .nil⟩
  obtain ⟨hresults, hlast⟩ := run_of_isCompactOf operations hstart
  exact ⟨hresults.symm, hlast.text.withoutBlanks_eq⟩

/-- Line breaks and indents stand between the entries, and blanks inside strings stay. -/
example :
    let operations := [begin .object, key (Bytes.ofString "a b"), scalar (.text (Bytes.ofString "x  y")),
      key (Bytes.ofString "c"), begin .array, scalar (.integer .i32 1), null, finish .array,
      finish .object]
    let pretty := (run operations (.start ⟨true, 2, 64⟩)).2.text
    pretty = Bytes.ofString
        "\x7b\n  \"a b\": \"x  y\",\n  \"c\": [\n    1,\n    null\n  ]\n\x7d" ∧
      pretty.withoutBlanks = Bytes.ofString "\x7b\"a b\":\"x  y\",\"c\":[1,null]\x7d" ∧
      (run operations (.start ⟨false, 2, 64⟩)).2.text = pretty.withoutBlanks := by
  decide +kernel

end Writer.Operation

end SchemaJson
