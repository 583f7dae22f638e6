import SchemaJson.Proofs.BalancedText

/-! Texts that can stand between two quotes. A string ends at the quote behind such a text, and the
search for a closing bracket passes over it. -/

namespace SchemaJson

/-- Whether the next byte is escaped after some bytes of a string in which no quote ends it. -/
def escapeAfter? : (escaped : Bool) → Bytes → Option Bool
  | escaped, [] => some escaped
  | true, _ :: rest => escapeAfter? false rest
  | false, byte :: rest =>
    if byte = Ascii.quote then none else escapeAfter? (byte == Ascii.backslash) rest

theorem escapeAfter?_append (escaped : Bool) (first second : Bytes) :
    escapeAfter? escaped (first ++ second)
      = (escapeAfter? escaped first).bind fun middle => escapeAfter? middle second := by
  induction first generalizing escaped with
  | nil => rfl
  | cons byte first ih =>
    cases escaped with
    | true => exact ih false
    | false =>
      simp only [List.cons_append, escapeAfter?]
      split
      · rfl
      · exact ih _

theorem unescapedQuoteFrom_append {escaped stop : Bool} {text : Bytes}
    (h : escapeAfter? escaped text = some stop) (passed : Nat) (rest : Bytes) :
    unescapedQuoteFrom escaped passed (text ++ rest)
      = unescapedQuoteFrom stop (passed + text.length) rest := by
  induction text generalizing escaped passed with
  | nil =>
    simp only [escapeAfter?, Option.some.injEq] at h
    subst h
    rfl
  | cons byte text ih =>
    have hlen : passed + 1 + text.length = passed + (byte :: text).length := by
      simp only [List.length_cons]
      omega
    cases escaped with
    | true =>
      rw [← hlen]
      exact ih h (passed + 1)
    | false =>
      simp only [escapeAfter?] at h
      split at h
      · cases h
      next hquote =>
        simp only [List.cons_append, unescapedQuoteFrom, hquote, if_false]
        rw [← hlen]
        exact ih h (passed + 1)

theorem escapeAfter?_of_unescapedQuoteFrom {escaped : Bool} {passed last : Nat} {text : Bytes}
    (h : unescapedQuoteFrom escaped passed text = some last) :
    ∃ content rest, text = content ++ Ascii.quote :: rest ∧ last = passed + content.length ∧
      escapeAfter? escaped content = some false := by
  induction text generalizing escaped passed with
  | nil => cases escaped <;> simp [unescapedQuoteFrom] at h
  | cons byte text ih =>
    cases escaped with
    | true =>
      obtain ⟨content, rest, htext, hlast, hrun⟩ := ih h
      refine ⟨byte :: content, rest, by simp [htext], ?_, hrun⟩
      simp only [List.length_cons]
      omega
    | false =>
      simp only [unescapedQuoteFrom] at h
      split at h
      next hquote =>
        simp only [Option.some.injEq] at h
        exact ⟨[], text, by simp [hquote], by simp [h], rfl⟩
      next hquote =>
        obtain ⟨content, rest, htext, hlast, hrun⟩ := ih h
        refine ⟨byte :: content, rest, by simp [htext], ?_, by simpa [escapeAfter?, hquote]⟩
        simp only [List.length_cons]
        omega

/-- Every quote in the text is escaped, and no escape is left unfinished at its end. -/
def IsStringContent (text : Bytes) : Prop := escapeAfter? false text = some false

instance (text : Bytes) : Decidable (IsStringContent text) :=
  inferInstanceAs (Decidable (_ = _))

theorem IsStringContent.append {first second : Bytes} (hfirst : IsStringContent first)
    (hsecond : IsStringContent second) : IsStringContent (first ++ second) := by
  rw [IsStringContent, escapeAfter?_append, hfirst]
  exact hsecond

theorem unescapedQuote?_eq_some_iff {text : Bytes} {last : Nat} :
    unescapedQuote? text = some last ↔
      ∃ content rest, text = content ++ Ascii.quote :: rest ∧ last = content.length ∧
        IsStringContent content := by
  constructor
  · intro h
    obtain ⟨content, rest, htext, hlast, hrun⟩ := escapeAfter?_of_unescapedQuoteFrom h
    exact ⟨content, rest, htext, by omega, hrun⟩
  · rintro ⟨content, rest, rfl, rfl, h⟩
    rw [unescapedQuote?, unescapedQuoteFrom_append h]
    simp [unescapedQuoteFrom]

/-- Between quotes the search for a bracket sees escapes only. -/
theorem Nesting.run?_quoted (container : Container) (depth : Nat) {escaped stop : Bool}
    {text : Bytes} (h : escapeAfter? escaped text = some stop) :
    run? container ⟨depth, true, escaped⟩ text = some ⟨depth, true, stop⟩ := by
  induction text generalizing escaped with
  | nil =>
    simp only [escapeAfter?, Option.some.injEq] at h
    rw [run?, h]
  | cons byte text ih =>
    have hgo : ¬ closes container.opening container.closing ⟨depth, true, escaped⟩ byte = true := by
      simp [closes_iff]
    rw [run?, if_neg hgo]
    cases escaped with
    | true => exact ih h
    | false =>
      simp only [escapeAfter?] at h
      split at h
      · cases h
      next hquote =>
        by_cases hbackslash : byte = Ascii.backslash
        · simp only [hbackslash, beq_self_eq_true] at h
          simp only [step, hbackslash, if_true, Bool.false_eq_true, if_false]
          exact ih h
        · have hescaped : (byte == Ascii.backslash) = false := by simpa using hbackslash
          rw [hescaped] at h
          simp only [step, hbackslash, hquote, if_true, if_false, Bool.false_eq_true]
          exact ih h

theorem IsBalanced.quoted {container : Container} {content : Bytes} (h : IsStringContent content) :
    IsBalanced container (Ascii.quote :: content ++ [Ascii.quote]) := by
  have hopen : Nesting.run? container ⟨1, false, false⟩ [Ascii.quote]
      = some ⟨1, true, false⟩ := by
    cases container <;> rfl
  have hclose : Nesting.run? container ⟨1, true, false⟩ [Ascii.quote]
      = some ⟨1, false, false⟩ := by
    cases container <;> rfl
  calc Nesting.run? container ⟨1, false, false⟩ ([Ascii.quote] ++ content ++ [Ascii.quote])
      = Nesting.run? container ⟨1, true, false⟩ (content ++ [Ascii.quote]) := by
        rw [List.append_assoc, Nesting.run?_append_of_eq hopen]
    _ = Nesting.run? container ⟨1, true, false⟩ [Ascii.quote] :=
        Nesting.run?_append_of_eq (Nesting.run?_quoted container 1 h) _
    _ = some ⟨1, false, false⟩ := hclose

end SchemaJson
