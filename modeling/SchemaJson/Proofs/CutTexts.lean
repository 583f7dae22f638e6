import SchemaJson.Proofs.ScanInvariants
import SchemaJson.Proofs.WrittenValues

/-! Scanning a text cuts out texts. A cut beside a character leaves a text on both sides, and a
span that would end inside of one is empty. -/

namespace SchemaJson

namespace Bytes

theorem isText_nil : IsText [] := ⟨"", rfl⟩

theorem isText_iff {bytes : Bytes} :
    IsText bytes ↔ ∃ chars : List Char, bytes = chars.flatMap String.utf8EncodeChar := by
  have hbytes (text : String) : ofString text = text.toList.flatMap String.utf8EncodeChar := by
    simp [ofString, ← String.utf8Encode_toList, List.utf8Encode]
  constructor
  · rintro ⟨text, rfl⟩
    exact ⟨text.toList, hbytes text⟩
  · rintro ⟨chars, rfl⟩
    exact ⟨String.ofList chars, by rw [hbytes, String.toList_ofList]⟩

theorem continuesChar_of_mem_tail {c : Char} {byte : UInt8}
    (h : byte ∈ (String.utf8EncodeChar c).tail) : continuesChar byte = true := by
  have hsmall : ∀ n < 64, continuesChar (UInt8.ofNat (n + 128)) = true := by decide
  have hcontinues (n : Nat) : continuesChar (UInt8.ofNat (n % 64 + 128)) = true :=
    hsmall _ (Nat.mod_lt n (by decide))
  simp only [String.utf8EncodeChar] at h
  split at h
  · cases h
  · split at h
    · rw [List.mem_singleton.mp h]
      exact hcontinues _
    · split at h
      · rcases List.mem_pair.mp h with rfl | rfl
        · exact hcontinues _
        · exact hcontinues _
      · simp only [List.tail_cons, List.mem_cons, List.not_mem_nil, or_false] at h
        rcases h with rfl | rfl | rfl
        · exact hcontinues _
        · exact hcontinues _
        · exact hcontinues _

/-- A text that is cut in front of a character leaves two texts. -/
theorem IsText.of_append {before after : Bytes} (h : IsText (before ++ after))
    (hstarts : startsChar after = true) : IsText before ∧ IsText after := by
  obtain ⟨chars, hchars⟩ := isText_iff.mp h
  clear h
  induction chars generalizing before with
  | nil =>
    obtain ⟨rfl, rfl⟩ := List.append_eq_nil_iff.mp hchars
    exact ⟨isText_nil, isText_nil⟩
  | cons c chars ih =>
    rw [List.flatMap_cons] at hchars
    rcases List.append_eq_append_iff.mp hchars with ⟨cut, hcut, rfl⟩ | ⟨rest, rfl, hrest⟩
    · cases before with
      | nil =>
        rw [List.nil_append] at hcut
        subst hcut
        exact ⟨isText_nil, isText_iff.mpr ⟨c :: chars, List.flatMap_cons.symm⟩⟩
      | cons head before =>
        cases cut with
        | nil =>
          rw [List.append_nil] at hcut
          rw [← hcut]
          exact ⟨isText_iff.mpr ⟨[c], by simp⟩, isText_iff.mpr ⟨chars, by simp⟩⟩
        | cons byte cut =>
          -- A cut inside a character is in front of a byte that continues it.
          have hmem : byte ∈ (String.utf8EncodeChar c).tail := by simp [hcut]
          simp [startsChar, continuesChar_of_mem_tail hmem] at hstarts
    · obtain ⟨hbefore, hafter⟩ := ih hrest.symm
      obtain ⟨before, rfl⟩ := isText_iff.mp hbefore
      exact ⟨isText_iff.mpr ⟨c :: before, List.flatMap_cons.symm⟩, hafter⟩

/-- The bytes are the end of a text. They may start inside a character. -/
def EndText (bytes : Bytes) : Prop := ∃ before, IsText (before ++ bytes)

theorem IsText.endText {bytes : Bytes} (h : IsText bytes) : EndText bytes := ⟨[], h⟩

theorem EndText.drop {bytes : Bytes} (h : EndText bytes) (count : Nat) : EndText (bytes.drop count) := by
  obtain ⟨before, htext⟩ := h
  exact ⟨before ++ bytes.take count, by rwa [List.append_assoc, List.take_append_drop]⟩

/-- From where a character starts, the end of a text is a text. -/
theorem EndText.isText {bytes : Bytes} (h : EndText bytes) (hstarts : startsChar bytes = true) :
    IsText bytes := by
  obtain ⟨before, htext⟩ := h
  exact (htext.of_append hstarts).2

theorem EndText.cut {bytes : Bytes} (h : EndText bytes) (length : Nat) : IsText (cut bytes length) := by
  rw [Bytes.cut]
  split
  next hcut =>
    simp only [Bool.and_eq_true] at hcut
    have hbytes := h.isText hcut.1.1
    rw [← List.take_append_drop length bytes] at hbytes
    exact (hbytes.of_append hcut.1.2).1
  next => exact isText_nil

end Bytes

theorem Cursor.isText_capture {cursor : Cursor} (h : cursor.ahead.EndText) (skipped length : Nat)
    (shape : Shape) : (cursor.capture skipped length shape).text.IsText :=
  (h.drop skipped).cut length

namespace Scan

variable {α : Type}

/-- Inside a text the step stays inside it, and what it gives is one of the results. -/
def StaysInText (step : Scan α) (Result : α → Prop) : Prop :=
  ∀ start stop a, start.ahead.EndText → Gives step start a stop → stop.ahead.EndText ∧ Result a

/-- Inside a text a scan stays inside it, and the spans it cuts out are texts. -/
def textual : ScanInvariant where
  cursor cursor := cursor.ahead.EndText
  span span := span.text.IsText
  error _ := True
  advance count h := h.drop count
  separated _ h := h
  capture skipped length shape h := Cursor.isText_capture h skipped length shape
  structural _ _ := trivial
  name _ _ := trivial
  classStart _ _ := trivial

namespace StaysInText

/-- The texts that are given for members, each of them a text. -/
def AreTexts (given : List (Option Span)) : Prop := ∀ span, some span ∈ given → span.text.IsText

theorem of_keeps {R : α → α → Prop} {Result : α → Prop} {step : Scan α}
    (h : textual.Keeps R step) (hresult : ∀ a, R a a → Result a) : StaysInText step Result := by
  intro start stop a hstart hgives
  have hok : (outcome step start).1 = .ok a := congrArg Prod.fst hgives
  have hstop := h.cursor hstart
  rw [hgives] at hstop
  exact ⟨hstop, hresult a (h.result hstart hok)⟩

theorem value : StaysInText Scan.value fun span => span.text.IsText :=
  of_keeps Pairing.Steps.value fun _ h => h.2

theorem memberTexts (table : MemberTable) (className : String) :
    StaysInText (Scan.memberTexts table className) AreTexts :=
  of_keeps (Pairing.Steps.memberTexts table className) fun _ h =>
    ScanInvariant.span_of_memberTexts h

theorem documentArray (allowTrailing : Bool) :
    StaysInText (Scan.documentArray allowTrailing) fun span => span.text.IsText :=
  of_keeps (Pairing.Steps.documentArray allowTrailing) fun _ h => h.2

end StaysInText

end Scan

/-- The elements that are met in a text are texts, also when the walk breaks off. -/
theorem ArrayView.isText_of_spans {view : ArrayView} (h : view.span.text.IsText) :
    ∀ span ∈ view.spans.1, span.text.IsText := by
  have hstart : Scan.textual.cursor (Cursor.ofSpan view.span) := h.endText
  exact ScanInvariant.span_of_arrayElements hstart

end SchemaJson
