import SchemaJson.Json.Scan
import SchemaJson.Json.Writer

/-! Texts that leave the search for a closing bracket where it was. The search ends exactly behind
such a text: a bracketed value is its opening bracket, a balanced text, and its closing bracket. -/

namespace SchemaJson

namespace Nesting

/-- The search after a text in which it does not end. -/
def run? (container : Container) : Nesting → Bytes → Option Nesting
  | nesting, [] => some nesting
  | nesting, byte :: rest =>
    if nesting.closes container.opening container.closing byte then none
    else run? container (nesting.step container.opening container.closing byte) rest

theorem run?_append (container : Container) (nesting : Nesting) (first second : Bytes) :
    run? container nesting (first ++ second)
      = (run? container nesting first).bind fun middle => run? container middle second := by
  induction first generalizing nesting with
  | nil => rfl
  | cons byte first ih =>
    simp only [List.cons_append, run?]
    split
    · rfl
    · exact ih _

theorem run?_append_of_eq {container : Container} {nesting middle : Nesting}
    {first : Bytes} (h : run? container nesting first = some middle) (second : Bytes) :
    run? container nesting (first ++ second) = run? container middle second := by
  rw [run?_append, h]
  rfl

theorem run?_deeper {container : Container} {nesting stop : Nesting} {text : Bytes}
    (h : run? container nesting text = some stop) (levels : Nat) :
    run? container { nesting with depth := nesting.depth + levels } text
      = some { stop with depth := stop.depth + levels } := by
  induction text generalizing nesting with
  | nil =>
    simp only [run?, Option.some.injEq] at h
    subst h
    rfl
  | cons byte text ih =>
    simp only [run?] at h ⊢
    split at h
    · cases h
    next hclose =>
      have hopen : Nesting.closes container.opening container.closing
          { nesting with depth := nesting.depth + levels } byte = false := by
        simp only [closes, Bool.not_eq_true] at hclose ⊢
        grind
      have hstep : Nesting.step container.opening container.closing
          { nesting with depth := nesting.depth + levels } byte
          = { nesting.step container.opening container.closing byte with
              depth := (nesting.step container.opening container.closing byte).depth + levels } := by
        simp only [closes, Bool.not_eq_true] at hclose
        simp only [step]
        grind
      rw [hopen, if_neg (by simp), hstep]
      exact ih h

theorem matchingBracketFrom_append {container : Container} {nesting middle : Nesting}
    {text : Bytes} (h : run? container nesting text = some middle) (passed : Nat) (rest : Bytes) :
    matchingBracketFrom container.opening container.closing nesting passed (text ++ rest)
      = matchingBracketFrom container.opening container.closing middle (passed + text.length)
          rest := by
  induction text generalizing nesting passed with
  | nil =>
    simp only [run?, Option.some.injEq] at h
    subst h
    rfl
  | cons byte text ih =>
    simp only [run?] at h
    split at h
    · cases h
    next hclose =>
      have hlen : passed + 1 + text.length = passed + (byte :: text).length := by
        simp only [List.length_cons]
        omega
      simp only [List.cons_append, matchingBracketFrom, hclose]
      rw [← hlen]
      exact ih h (passed + 1)

theorem run?_of_matchingBracketFrom {container : Container} {nesting : Nesting} {passed last : Nat}
    {text : Bytes}
    (h : matchingBracketFrom container.opening container.closing nesting passed text = some last) :
    ∃ inner byte rest stop, text = inner ++ byte :: rest ∧ last = passed + inner.length ∧
      run? container nesting inner = some stop ∧
      stop.closes container.opening container.closing byte = true := by
  induction text generalizing nesting passed with
  | nil => simp [matchingBracketFrom] at h
  | cons byte text ih =>
    simp only [matchingBracketFrom] at h
    split at h
    next hclose =>
      simp only [Option.some.injEq] at h
      exact ⟨[], byte, text, nesting, rfl, by simp [h], rfl, hclose⟩
    next hclose =>
      obtain ⟨inner, found, rest, stop, htext, hlast, hrun, hstop⟩ := ih h
      refine ⟨byte :: inner, found, rest, stop, by simp [htext], ?_, ?_, hstop⟩
      · simp only [List.length_cons]
        omega
      · simp only [run?, hclose]
        exact hrun

theorem one_le_depth_of_run? {container : Container} {nesting stop : Nesting} {text : Bytes}
    (h : run? container nesting text = some stop) (hdepth : 1 ≤ nesting.depth) :
    1 ≤ stop.depth := by
  induction text generalizing nesting with
  | nil =>
    simp only [run?, Option.some.injEq] at h
    exact h ▸ hdepth
  | cons byte text ih =>
    simp only [run?] at h
    split at h
    · cases h
    next hclose =>
      apply ih h
      simp only [closes, Bool.not_eq_true] at hclose
      simp only [step]
      grind

@[simp]
theorem escaped_step (openByte closeByte : UInt8) (nesting : Nesting) (byte : UInt8) :
    (nesting.step openByte closeByte byte).escaped
      = (!nesting.escaped && byte == Ascii.backslash) := by
  simp only [step]
  grind

@[simp]
theorem quoted_step (openByte closeByte : UInt8) (nesting : Nesting) (byte : UInt8) :
    (nesting.step openByte closeByte byte).quoted
      = (nesting.quoted ^^ (!nesting.escaped && byte == Ascii.quote)) := by
  simp only [step]
  grind

theorem escaped_of_run? {container : Container} {nesting stop : Nesting} {text : Bytes}
    {last : UInt8} (h : run? container nesting (text ++ [last]) = some stop)
    (hlast : last ≠ Ascii.backslash) : stop.escaped = false := by
  rw [run?_append] at h
  obtain ⟨middle, -, hstep⟩ := Option.bind_eq_some_iff.mp h
  simp only [run?] at hstep
  split at hstep
  · cases hstep
  · rw [← Option.some.inj hstep]
    simp [hlast]

/-- Searches that start on the two sides of a quote are on its two sides behind any text. -/
theorem quoted_of_run? {container : Container} {nesting nesting' stop stop' : Nesting}
    {text : Bytes} (h : run? container nesting text = some stop)
    (h' : run? container nesting' text = some stop') (hescaped : nesting'.escaped = nesting.escaped)
    (hquoted : nesting'.quoted = !nesting.quoted) : stop'.quoted = !stop.quoted := by
  induction text generalizing nesting nesting' with
  | nil =>
    rw [← Option.some.inj h, ← Option.some.inj h']
    exact hquoted
  | cons byte text ih =>
    simp only [run?] at h h'
    split at h
    · cases h
    split at h'
    · cases h'
    refine ih h h' ?_ ?_
    · simp [hescaped]
    · simp [hescaped, hquoted]

theorem closes_iff {container : Container} {nesting : Nesting} {byte : UInt8} :
    nesting.closes container.opening container.closing byte = true ↔
      byte = container.closing ∧ nesting.escaped = false ∧ nesting.quoted = false ∧
        nesting.depth ≤ 1 := by
  cases container <;>
    simp only [closes, Container.opening, Container.closing, Bool.and_eq_true, Bool.not_eq_true',
      bne_iff_ne, beq_iff_eq, decide_eq_true_eq] <;>
    grind

end Nesting

/-- Read from the first level inside a container, the text closes its quotes and escapes, and its
brackets of the container's kind pair up. -/
def IsBalanced (container : Container) (text : Bytes) : Prop :=
  Nesting.run? container ⟨1, false, false⟩ text = some ⟨1, false, false⟩

instance (container : Container) (text : Bytes) : Decidable (IsBalanced container text) :=
  inferInstanceAs (Decidable (_ = _))

/-- Nothing escapes the byte behind the text. -/
def Bytes.EndsPlain (text : Bytes) : Prop := ∀ last ∈ text.getLast?, last ≠ Ascii.backslash

namespace IsBalanced

variable {container : Container}

theorem append {first second : Bytes} (hfirst : IsBalanced container first)
    (hsecond : IsBalanced container second) : IsBalanced container (first ++ second) := by
  rw [IsBalanced, Nesting.run?_append_of_eq hfirst]
  exact hsecond

theorem of_plain {text : Bytes}
    (h : ∀ byte ∈ text, byte ≠ Ascii.backslash ∧ byte ≠ Ascii.quote ∧
      byte ≠ container.opening ∧ byte ≠ container.closing) : IsBalanced container text := by
  induction text with
  | nil => rfl
  | cons byte text ih =>
    obtain ⟨hbackslash, hquote, hopen, hclose⟩ := h byte (by simp)
    have hstep : Nesting.step container.opening container.closing ⟨1, false, false⟩ byte
        = ⟨1, false, false⟩ := by
      simp [Nesting.step, hbackslash, hquote, hopen, hclose]
    have hgo : ¬ Nesting.closes container.opening container.closing ⟨1, false, false⟩ byte
        = true := by
      rw [Nesting.closes_iff]
      exact fun hand => hclose hand.1
    rw [IsBalanced, Nesting.run?, if_neg hgo, hstep]
    exact ih fun other hmem => h other (by simp [hmem])

theorem bracketed {inner : Bytes} (h : IsBalanced container inner) :
    IsBalanced container (container.opening :: inner ++ [container.closing]) := by
  have hopen : Nesting.run? container ⟨1, false, false⟩ [container.opening]
      = some ⟨2, false, false⟩ := by
    cases container <;> rfl
  have hclose : Nesting.run? container ⟨2, false, false⟩ [container.closing]
      = some ⟨1, false, false⟩ := by
    cases container <;> rfl
  have hinner : Nesting.run? container ⟨2, false, false⟩ inner = some ⟨2, false, false⟩ :=
    Nesting.run?_deeper h 1
  calc Nesting.run? container ⟨1, false, false⟩ ([container.opening] ++ inner ++ [container.closing])
      = Nesting.run? container ⟨2, false, false⟩ (inner ++ [container.closing]) := by
        rw [List.append_assoc, Nesting.run?_append_of_eq hopen]
    _ = Nesting.run? container ⟨2, false, false⟩ [container.closing] :=
        Nesting.run?_append_of_eq hinner _
    _ = some ⟨1, false, false⟩ := hclose

/-- In front of a balanced end of a balanced text, the text is balanced, unless a backslash escapes
the byte where the end starts: a level left open there would stay open, and so would a quote. -/
theorem of_append_right {front back : Bytes} (h : IsBalanced container (front ++ back))
    (hback : IsBalanced container back) (hfront : front.EndsPlain) : IsBalanced container front := by
  rw [IsBalanced, Nesting.run?_append] at h
  obtain ⟨⟨depth, quoted, escaped⟩, hmiddle, hrest⟩ := Option.bind_eq_some_iff.mp h
  have hdepth : 1 ≤ depth := Nesting.one_le_depth_of_run? hmiddle (Nat.le_refl 1)
  obtain rfl : escaped = false := by
    cases hlast : front.getLast? with
    | none =>
      rw [List.getLast?_eq_none_iff.mp hlast] at hmiddle
      cases hmiddle
      rfl
    | some last =>
      obtain ⟨front, rfl⟩ := List.getLast?_eq_some_iff.mp hlast
      exact Nesting.escaped_of_run? hmiddle (hfront last hlast)
  cases quoted with
  | false =>
    obtain ⟨levels, rfl⟩ := Nat.exists_eq_add_of_le hdepth
    have hdeeper := (Nesting.run?_deeper hback levels).symm.trans hrest
    simp only [Option.some.injEq, Nesting.mk.injEq] at hdeeper
    rw [hdeeper.1] at hmiddle
    exact hmiddle
  | true => cases Nesting.quoted_of_run? hback hrest rfl rfl

end IsBalanced

/-- The search for the bracket that matches an opening one ends behind a balanced text. -/
theorem matchingBracket?_eq_some_iff {container : Container} {text : Bytes} {last : Nat} :
    matchingBracket? container.opening container.closing (container.opening :: text) = some last ↔
      ∃ inner rest, text = inner ++ container.closing :: rest ∧ last = inner.length + 1 ∧
        IsBalanced container inner := by
  have hopen : Nesting.run? container .start [container.opening] = some ⟨1, false, false⟩ := by
    cases container <;> rfl
  have hsearch : matchingBracket? container.opening container.closing (container.opening :: text)
      = matchingBracketFrom container.opening container.closing ⟨1, false, false⟩ 1 text :=
    Nesting.matchingBracketFrom_append hopen 0 text
  rw [hsearch]
  constructor
  · intro h
    obtain ⟨inner, byte, rest, stop, rfl, rfl, hrun, hstop⟩ := Nesting.run?_of_matchingBracketFrom h
    obtain ⟨rfl, hescaped, hquoted, hdepth⟩ := Nesting.closes_iff.mp hstop
    have hpos := Nesting.one_le_depth_of_run? hrun (Nat.le_refl 1)
    refine ⟨inner, rest, rfl, Nat.add_comm _ _, ?_⟩
    rw [IsBalanced, hrun]
    grind [Nesting]
  · rintro ⟨inner, rest, rfl, rfl, h⟩
    have hstop : Nesting.closes container.opening container.closing ⟨1, false, false⟩
        container.closing = true := by
      cases container <;> rfl
    rw [Nesting.matchingBracketFrom_append h, matchingBracketFrom, if_pos hstop, Nat.add_comm]

end SchemaJson
