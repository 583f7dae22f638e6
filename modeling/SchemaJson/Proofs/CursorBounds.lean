import SchemaJson.Proofs.ScanFailures
import SchemaJson.Proofs.ScanInvariants

/-! Whatever is asked of a cursor, in whatever order and wherever it stands, it stays in its text and
does not go back. Every step goes forward, also where it fails, and forward is never past the end. -/

namespace SchemaJson

namespace Scan

variable {α : Type}

/-- The step leaves the cursor where it was or further on, whether it succeeds or fails. -/
def GoesForward (step : Scan α) : Prop := ∀ start : Cursor, start.Reaches (outcome step start).2

/-- Whatever a scan does takes the cursor further from its origin. -/
def forward (origin : Cursor) : ScanInvariant where
  cursor := origin.Reaches
  span _ := True
  error _ := True
  advance {start} count h := h.trans (start.reaches_advance count)
  -- The separator that is remembered has no say in where the cursor stands.
  separated _ h := by
    obtain ⟨raw, hahead, hindex, htext, hbase⟩ := h
    exact ⟨raw, hahead, hindex, htext, hbase⟩
  capture _ _ _ _ := trivial
  structural _ _ := trivial
  name _ _ := trivial
  classStart _ _ := trivial

theorem GoesForward.of_keeps {R : Cursor → α → α → Prop} {step : Scan α}
    (h : ∀ origin, (forward origin).Keeps (R origin) step) : GoesForward step :=
  fun start => (h start).cursor (.refl start)

end Scan

namespace Cursor

/-- What a cursor can be asked for that may move it. Everything else only looks at it. -/
inductive Call where
  /-- The byte at the cursor. -/
  | byte
  | advance (count : Nat)
  | skipBlanks
  | string
  | array
  | object
  | literal
  | value
  | separator (atEnd : StructureFault)
  | separatedValue
  | name
  | memberTexts (table : MemberTable) (className : String)
  deriving DecidableEq, Repr

/-- The cursor behind the call, which may have failed. -/
def Call.run : Call → Cursor → Cursor
  | byte => Cursor.advance 1
  | advance count => Cursor.advance count
  | skipBlanks => Cursor.skipBlanks
  | string => fun cursor => (Scan.outcome Scan.string cursor).2
  | array => fun cursor => (Scan.outcome Scan.array cursor).2
  | object => fun cursor => (Scan.outcome Scan.object cursor).2
  | literal => fun cursor => (Scan.outcome Scan.literal cursor).2
  | value => fun cursor => (Scan.outcome Scan.value cursor).2
  | separator atEnd => fun cursor => (Scan.outcome (Scan.separator atEnd) cursor).2
  | separatedValue => fun cursor => (Scan.outcome Scan.separatedValue cursor).2
  | name => fun cursor => (Scan.outcome Scan.name cursor).2
  | memberTexts table className =>
    fun cursor => (Scan.outcome (Scan.memberTexts table className) cursor).2

/-- The cursor behind all the calls, each made whether or not the ones before it failed. -/
def after (cursor : Cursor) (calls : List Call) : Cursor :=
  calls.foldl (fun cursor call => call.run cursor) cursor

open Scan Scan.Pairing in
theorem Call.reaches_run (call : Call) (cursor : Cursor) : cursor.Reaches (call.run cursor) := by
  cases call with
  | byte => exact cursor.reaches_advance 1
  | advance count => exact cursor.reaches_advance count
  | skipBlanks => exact cursor.reaches_skipBlanks
  | string => exact GoesForward.of_keeps (fun _ => Steps.string) cursor
  | array =>
    exact GoesForward.of_keeps (fun _ => Steps.bracketed _ _ _ (ScanInvariant.reports _)) cursor
  | object =>
    exact GoesForward.of_keeps (fun _ => Steps.bracketed _ _ _ (ScanInvariant.reports _)) cursor
  | literal => exact GoesForward.of_keeps (fun _ => Steps.literal) cursor
  | value => exact GoesForward.of_keeps (fun _ => Steps.value) cursor
  | separator atEnd =>
    exact GoesForward.of_keeps (fun _ => Steps.separator (ScanInvariant.reports atEnd)) cursor
  | separatedValue => exact GoesForward.of_keeps (fun _ => Steps.separatedValue) cursor
  | name => exact GoesForward.of_keeps (fun _ => Steps.name) cursor
  | memberTexts table className =>
    exact GoesForward.of_keeps (fun _ => Steps.memberTexts table className) cursor

theorem reaches_after (cursor : Cursor) (calls : List Call) : cursor.Reaches (cursor.after calls) := by
  induction calls generalizing cursor with
  | nil => exact .refl cursor
  | cons call calls ih => exact (call.reaches_run cursor).trans (ih (call.run cursor))

theorem after_append (cursor : Cursor) (calls more : List Call) :
    cursor.after (calls ++ more) = (cursor.after calls).after more :=
  List.foldl_append

/-- The cursor stands in a text that starts at the offset, and what is behind its place is ahead of
it. -/
structure StandsIn (text : Bytes) (offset : Nat) (cursor : Cursor) : Prop where
  text_eq : cursor.text = text
  base_eq : cursor.base = offset
  index_le : cursor.index ≤ text.length
  ahead_eq : cursor.ahead = text.drop cursor.index

theorem standsIn_ofSpan (span : Span) : (ofSpan span).StandsIn span.text span.offset :=
  ⟨rfl, rfl, Nat.zero_le _, rfl⟩

theorem StandsIn.of_reaches {text : Bytes} {offset : Nat} {start stop : Cursor}
    (h : start.StandsIn text offset) (hreaches : start.Reaches stop) : stop.StandsIn text offset := by
  obtain ⟨raw, hpasses⟩ := hreaches
  have hdrop : text.drop start.index = raw ++ stop.ahead := h.ahead_eq ▸ hpasses.ahead
  have hlength := congrArg List.length hdrop
  rw [List.length_drop, List.length_append] at hlength
  have hle := h.index_le
  refine ⟨hpasses.text.trans h.text_eq, hpasses.base.trans h.base_eq, ?_, ?_⟩
  · rw [hpasses.index]
    omega
  · rw [hpasses.index, ← List.drop_drop, hdrop, List.drop_left]

theorem StandsIn.bytesLeft_eq {text : Bytes} {offset : Nat} {cursor : Cursor}
    (h : cursor.StandsIn text offset) : cursor.bytesLeft + cursor.index = text.length := by
  rw [bytesLeft, h.text_eq]
  exact Nat.sub_add_cancel h.index_le

theorem StandsIn.offset_eq {text : Bytes} {offset : Nat} {cursor : Cursor}
    (h : cursor.StandsIn text offset) : cursor.offset = offset + cursor.index := by
  rw [Cursor.offset, h.base_eq]

/-- A cursor is put at any byte of a text, inside a character or not, and asked for anything any
number of times. Then its place is one of the text, with the bytes behind it ahead and left; its offset
is as far from its place as at the start; and whatever it is asked for next, it does not go back. -/
theorem calls_stay_in_text (span : Span) (place : Nat) (calls more : List Call) :
    let start := (ofSpan span).advance place
    let here := start.after calls
    start.index = min place span.text.length ∧
      here.index ≤ span.text.length ∧
      here.ahead = span.text.drop here.index ∧
      here.bytesLeft + here.index = span.text.length ∧
      here.offset = span.offset + here.index ∧
      here.index ≤ (start.after (calls ++ more)).index := by
  intro start here
  have hstart : start.StandsIn span.text span.offset :=
    (standsIn_ofSpan span).of_reaches ((ofSpan span).reaches_advance place)
  have hhere := hstart.of_reaches (start.reaches_after calls)
  have hplace : start.index = 0 + (span.text.take place).length := rfl
  refine ⟨?_, hhere.index_le, hhere.ahead_eq, hhere.bytesLeft_eq, hhere.offset_eq, ?_⟩
  · rw [hplace, Nat.zero_add, List.length_take]
  · rw [after_append]
    exact (here.reaches_after more).index_le

end Cursor

end SchemaJson
