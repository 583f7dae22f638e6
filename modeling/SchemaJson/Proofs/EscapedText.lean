import SchemaJson.Json.Writer
import SchemaJson.Proofs.DateText
import SchemaJson.Proofs.JsonTexts

/-! Texts as the writer puts them down: what is escaped never ends its string, and whatever stands
for a value without parts stands in the lexicon of what is written. -/

namespace SchemaJson

/-- The texts that the writer puts down: strings and literals that are found whole and are cut at
whole characters. -/
def writtenLexicon : Lexicon where
  string raw := IsStringContent raw ∧ raw.IsAligned
  literal raw := raw ≠ [] ∧ ∀ byte ∈ raw, isPlain byte = true ∧ isAscii byte = true

theorem Spells.loose_of_written {tree : Tree} {text : Bytes} (h : Spells writtenLexicon tree text) :
    Spells looseLexicon tree text :=
  h.mono (fun _ hraw => hraw.1) fun _ hraw => ⟨hraw.1, fun byte hmem => (hraw.2 byte hmem).1⟩

theorem Bytes.IsAligned.cons {byte : UInt8} {text : Bytes} (hbyte : isAscii byte = true)
    (h : text.IsAligned) : IsAligned (byte :: text) :=
  (isAligned_cons_of_isAscii hbyte).mpr h

theorem Joined.isAligned {cores : List Bytes} {text : Bytes} (h : Joined cores text)
    (hcores : ∀ core ∈ cores, core.IsAligned) : text.IsAligned := by
  induction h with
  | none hblanks => exact hblanks.isAligned
  | last hbefore hafter =>
    exact hbefore.isAligned.append ((hcores _ (by simp)).append hafter.isAligned)
  | cons hbefore hafter _ ih =>
    have hrest := ih fun core hmem => hcores core (by simp [hmem])
    exact hbefore.isAligned.append ((hcores _ (by simp)).append (hafter.isAligned.append
      (hrest.cons rfl)))

theorem Bytes.IsAligned.enclosed {first last : UInt8} {text : Bytes} (hfirst : isAscii first = true)
    (hlast : isAscii last = true) (h : text.IsAligned) : IsAligned (first :: text ++ [last]) :=
  (h.append (isAligned_nil.cons hlast)).cons hfirst

theorem Spells.isAligned {tree : Tree} {text : Bytes} (h : Spells writtenLexicon tree text) :
    text.IsAligned := by
  induction h with
  | string hraw => exact hraw.2.enclosed rfl rfl
  | literal hraw => exact Bytes.isAligned_of_isAscii fun byte hmem => (hraw.2 byte hmem).2
  | array _ hjoined ih =>
    refine (hjoined.isAligned fun core hmem => ?_).enclosed rfl rfl
    obtain ⟨item, hitem, rfl⟩ := List.mem_map.mp hmem
    exact ih item hitem
  | object hnames _ hjoined ih =>
    refine (hjoined.isAligned fun core hmem => ?_).enclosed rfl rfl
    obtain ⟨member, hmember, rfl⟩ := List.mem_map.mp hmem
    have hname : Bytes.IsAligned (Ascii.quote :: member.name ++ [Ascii.quote]) :=
      (hnames member hmember).2.enclosed rfl rfl
    have hcolon : Bytes.IsAligned (Ascii.colon :: member.afterColon) :=
      member.isBlank_afterColon.isAligned.cons rfl
    exact ((hname.append member.isBlank_beforeColon.isAligned).append hcolon).append (ih member hmember)

namespace Writer

theorem hexDigit_spec {n : Nat} (h : n < 16) :
    hexDigit n ≠ Ascii.quote ∧ hexDigit n ≠ Ascii.backslash ∧ isAscii (hexDigit n) = true := by
  revert n
  decide

theorem div_sixteen_lt (byte : UInt8) : byte.toNat / 16 < 16 := by
  have hsize := byte.toNat_lt
  omega

/-- What was there of an escape is kept, so no quote is left that ends the string. -/
theorem escapeAfter?_escapeFrom {kept : Bool} {text : Bytes}
    (h : kept = true → startsEscape text = true) :
    escapeAfter? kept (escapeFrom kept text) = some false := by
  induction text generalizing kept with
  | nil =>
    cases kept with
    | true => cases h rfl
    | false => rfl
  | cons byte rest ih =>
    cases kept with
    | true => exact ih (by simp)
    | false =>
      have hrest := @ih false (by simp)
      rw [escapeFrom]
      split
      next hbackslash =>
        subst hbackslash
        split
        next hstarts => exact ih fun _ => hstarts
        next => exact hrest
      next hbackslash =>
        split
        next hquote =>
          subst hquote
          exact hrest
        next hquote =>
          split
          next =>
            obtain ⟨hhigh, hhigh', -⟩ := hexDigit_spec (div_sixteen_lt byte)
            obtain ⟨hlow, hlow', -⟩ := hexDigit_spec (Nat.mod_lt byte.toNat (by decide : 0 < 16))
            have hdigits := IsStringContent.cons hhigh hhigh' (IsStringContent.cons hlow hlow' hrest)
            exact (IsStringContent.cons (by decide) (by decide)
              (IsStringContent.cons (by decide) (by decide) hdigits)).escaped
          next => exact IsStringContent.cons hquote hbackslash hrest

theorem isStringContent_escape (text : Bytes) : IsStringContent (escape text) :=
  escapeAfter?_escapeFrom (by simp)

theorem startsChar_escapeFrom {text : Bytes} (kept : Bool) (h : Bytes.startsChar text = true) :
    Bytes.startsChar (escapeFrom kept text) = true := by
  cases text with
  | nil => cases kept <;> rfl
  | cons byte rest =>
    cases kept with
    | true => exact h
    | false =>
      rw [escapeFrom]
      split
      · split <;> exact h
      · split
        · rfl
        · split
          · rfl
          · exact h

theorem isChain_escapeFrom {text : Bytes} (kept : Bool)
    (h : text.IsChain fun byte next => isAscii byte = true → continuesChar next = false) :
    (escapeFrom kept text).IsChain fun byte next => isAscii byte = true → continuesChar next = false := by
  induction text generalizing kept with
  | nil => cases kept <;> exact .nil
  | cons byte rest ih =>
    by_cases hascii : isAscii byte = true
    · have hwhole : Bytes.IsAligned (byte :: rest) := ⟨Bytes.startsChar_cons_of_isAscii hascii rest, h⟩
      have hrest := (Bytes.isAligned_cons_of_isAscii hascii).mp hwhole
      have hescaped (kept : Bool) : (escapeFrom kept rest).IsAligned :=
        ⟨startsChar_escapeFrom kept hrest.starts, ih kept hrest.chain⟩
      refine Bytes.IsAligned.chain ?_
      cases kept with
      | true => exact (hescaped false).cons hascii
      | false =>
        rw [escapeFrom]
        split
        · split
          · exact (hescaped true).cons hascii
          · exact ((hescaped false).cons hascii).cons hascii
        · split
          · exact ((hescaped false).cons hascii).cons rfl
          · split
            · have hhigh := (hexDigit_spec (div_sixteen_lt byte)).2.2
              have hlow := (hexDigit_spec (Nat.mod_lt byte.toNat (by decide : 0 < 16))).2.2
              exact (((((hescaped false).cons hlow).cons hhigh).cons rfl).cons rfl).cons rfl |>.cons rfl
            · exact (hescaped false).cons hascii
    · -- A byte that is no ASCII stands for itself and allows any byte behind it.
      have hcons (kept : Bool) : (byte :: escapeFrom kept rest).IsChain fun byte next =>
          isAscii byte = true → continuesChar next = false := by
        have hrest := ih kept h.tail
        cases hout : escapeFrom kept rest with
        | nil => exact .singleton byte
        | cons next out => exact List.isChain_cons_cons.mpr ⟨fun hbyte => absurd hbyte hascii, hout ▸ hrest⟩
      cases kept with
      | true => exact hcons false
      | false =>
        have hne (other : UInt8) (hother : isAscii other = true) : byte ≠ other := by
          rintro rfl
          exact hascii hother
        have hcontrol : ¬ byte < 0x20 := by
          intro hlt
          refine hascii ?_
          rw [isAscii, decide_eq_true_eq]
          exact UInt8.lt_trans hlt (by decide)
        rw [escapeFrom, if_neg (hne _ rfl), if_neg (hne _ rfl), if_neg hcontrol]
        exact hcons false

theorem isAligned_escape {text : Bytes} (h : text.IsAligned) : (escape text).IsAligned :=
  ⟨startsChar_escapeFrom false h.starts, isChain_escapeFrom false h.chain⟩

theorem escape_eq_self {text : Bytes} (h : ∀ byte ∈ text, isUnescaped byte = true) :
    escape text = text := by
  induction text with
  | nil => rfl
  | cons byte rest ih =>
    obtain ⟨hbyte, hrest⟩ := List.forall_mem_cons.mp h
    simp only [isUnescaped, Bool.and_eq_true, decide_eq_true_eq, bne_iff_ne] at hbyte
    have hcontrol : ¬ byte < 0x20 := UInt8.not_lt.mpr hbyte.1.1
    have hescape : escapeFrom false rest = rest := ih hrest
    rw [escape, escapeFrom, if_neg hbyte.2, if_neg hbyte.1.2, if_neg hcontrol, hescape]

end Writer

namespace writtenLexicon

theorem string_escape {text : Bytes} (h : text.IsAligned) :
    writtenLexicon.string (Writer.escape text) :=
  ⟨Writer.isStringContent_escape text, Writer.isAligned_escape h⟩

theorem string_of_unescaped {text : Bytes}
    (h : ∀ byte ∈ text, isUnescaped byte = true ∧ isAscii byte = true) :
    writtenLexicon.string text := by
  have hescape := Writer.escape_eq_self fun byte hmem => (h byte hmem).1
  rw [← hescape]
  exact string_escape (Bytes.isAligned_of_isAscii fun byte hmem => (h byte hmem).2)

theorem of_isNumeric {byte : UInt8} (h : isNumeric byte = true) :
    isUnescaped byte = true ∧ isPlain byte = true ∧ isAscii byte = true := by
  have hbits : ∀ bits : BitVec 8, isNumeric ⟨bits⟩ = true →
      isUnescaped ⟨bits⟩ = true ∧ isPlain ⟨bits⟩ = true ∧ isAscii ⟨bits⟩ = true := by
    decide
  exact hbits byte.toBitVec h

theorem string_of_isNumeric {text : Bytes} (h : ∀ byte ∈ text, isNumeric byte = true) :
    writtenLexicon.string text :=
  string_of_unescaped fun byte hmem => ⟨(of_isNumeric (h byte hmem)).1, (of_isNumeric (h byte hmem)).2.2⟩

theorem literal_of_isNumeric {text : Bytes} (hne : text ≠ [])
    (h : ∀ byte ∈ text, isNumeric byte = true) : writtenLexicon.literal text :=
  ⟨hne, fun byte hmem => (of_isNumeric (h byte hmem)).2⟩

theorem literal_of_all {text : Bytes} (hne : text ≠ [])
    (h : text.all (fun byte => isPlain byte && isAscii byte) = true) : writtenLexicon.literal text := by
  refine ⟨hne, fun byte hmem => ?_⟩
  simpa using List.all_eq_true.mp h byte hmem

end writtenLexicon

theorem Instant.isUnescaped_write (instant : Instant) :
    ∀ byte ∈ instant.write, isUnescaped byte = true ∧ isAscii byte = true := by
  have hdigits {text : Bytes} (h : ∀ byte ∈ text, isDigit byte = true) :
      ∀ byte ∈ text, isUnescaped byte = true ∧ isAscii byte = true := by
    intro byte hmem
    obtain ⟨hunescaped, -, hascii⟩ := writtenLexicon.of_isNumeric (isNumeric_of_isDigit (h byte hmem))
    exact ⟨hunescaped, hascii⟩
  have hpadded (width n : Nat) := hdigits (isDigit_padded width n)
  have hyear (year : Int) : ∀ byte ∈ writeYear year, isUnescaped byte = true ∧ isAscii byte = true := by
    rw [writeYear]
    split
    · exact hpadded 4 _
    · refine List.forall_mem_cons.mpr ⟨?_, hpadded 4 _⟩
      split <;> exact ⟨rfl, rfl⟩
  have hfraction (nanos : Nat) :
      ∀ byte ∈ writeFraction nanos, isUnescaped byte = true ∧ isAscii byte = true := by
    rw [writeFraction]
    split
    · simp
    · split
      · exact List.forall_mem_cons.mpr ⟨⟨rfl, rfl⟩, hpadded 3 _⟩
      · split
        · exact List.forall_mem_cons.mpr ⟨⟨rfl, rfl⟩, hpadded 6 _⟩
        · exact List.forall_mem_cons.mpr ⟨⟨rfl, rfl⟩, hpadded 9 _⟩
  simp only [write, List.forall_mem_append, List.forall_mem_cons]
  exact ⟨⟨⟨⟨⟨⟨⟨hyear _, ⟨rfl, rfl⟩, hpadded 2 _⟩, ⟨rfl, rfl⟩, hpadded 2 _⟩, ⟨rfl, rfl⟩, hpadded 2 _⟩,
    ⟨rfl, rfl⟩, hpadded 2 _⟩, ⟨rfl, rfl⟩, hpadded 2 _⟩, hfraction _⟩, ⟨rfl, rfl⟩, by simp⟩

end SchemaJson
