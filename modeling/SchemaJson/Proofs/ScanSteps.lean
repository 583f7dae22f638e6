import Mathlib.Data.List.TakeDrop
import Mathlib.Data.List.TakeWhile
import SchemaJson.Json.Object
import SchemaJson.Proofs.Sequences

/-! Scanning steps as relations between two cursors. A program of steps is taken apart once, here;
later proofs see only which cursors its steps connect. -/

namespace SchemaJson

namespace Cursor

theorem advance_advance (cursor : Cursor) (m n : Nat) :
    (cursor.advance m).advance n = cursor.advance (m + n) := by
  have hlen : (cursor.ahead.take m).length + ((cursor.ahead.drop m).take n).length
      = (cursor.ahead.take (m + n)).length := by
    simp only [List.length_take, List.length_drop]
    omega
  simp only [advance, List.drop_drop]
  congr 1
  omega

@[simp]
theorem ahead_advance (cursor : Cursor) (n : Nat) :
    (cursor.advance n).ahead = cursor.ahead.drop n := rfl

@[simp]
theorem ahead_skipBlanks (cursor : Cursor) :
    cursor.skipBlanks.ahead = cursor.ahead.dropWhile isBlank := by
  have hsplit := List.takeWhile_append_dropWhile (p := isBlank) (l := cursor.ahead)
  calc cursor.ahead.drop (cursor.ahead.takeWhile isBlank).length
      = (cursor.ahead.takeWhile isBlank ++ cursor.ahead.dropWhile isBlank).drop
          (cursor.ahead.takeWhile isBlank).length := by rw [hsplit]
    _ = cursor.ahead.dropWhile isBlank := List.drop_left

@[simp]
theorem ahead_ofSpan (span : Span) : (ofSpan span).ahead = span.text := rfl

@[simp]
theorem ahead_ofText (text : Bytes) : (ofText text).ahead = text := rfl

/-- The cursor went over `raw`, and nothing else of it changed but the separator it remembers. -/
structure Passes (start : Cursor) (raw : Bytes) (stop : Cursor) : Prop where
  ahead : start.ahead = raw ++ stop.ahead
  index : stop.index = start.index + raw.length
  text : stop.text = start.text
  base : stop.base = start.base

namespace Passes

variable {start middle stop : Cursor} {raw raw' : Bytes}

theorem refl (cursor : Cursor) : cursor.Passes [] cursor := ⟨rfl, rfl, rfl, rfl⟩

theorem trans (h : start.Passes raw middle) (h' : middle.Passes raw' stop) :
    start.Passes (raw ++ raw') stop := by
  refine ⟨?_, ?_, h'.text.trans h.text, h'.base.trans h.base⟩
  · rw [h.ahead, h'.ahead, List.append_assoc]
  · rw [h'.index, h.index, List.length_append, Nat.add_assoc]

theorem offset (h : start.Passes raw stop) : stop.offset = start.offset + raw.length := by
  rw [Cursor.offset, Cursor.offset, h.base, h.index, Nat.add_assoc]

theorem ahead_eq {rest : Bytes} (h : start.Passes raw stop) (hahead : start.ahead = raw ++ rest) :
    stop.ahead = rest :=
  List.append_cancel_left (h.ahead.symm.trans hahead)

end Passes

theorem passes_advance {start : Cursor} {raw rest : Bytes} (h : start.ahead = raw ++ rest) :
    start.Passes raw (start.advance raw.length) := by
  refine ⟨?_, ?_, rfl, rfl⟩
  · simp [h]
  · simp [advance, h]

theorem passes_skipBlanks (start : Cursor) :
    start.Passes (start.ahead.takeWhile isBlank) start.skipBlanks :=
  passes_advance (List.takeWhile_append_dropWhile (p := isBlank) (l := start.ahead)).symm

end Cursor

namespace Scan

variable {α β : Type}

/-- What the step does at a cursor. -/
def outcome (step : Scan α) (start : Cursor) : Except Error α × Cursor := step.run.run start

theorem outcome_bind (step : Scan α) (next : α → Scan β) (start : Cursor) :
    outcome (step >>= next) start = match outcome step start with
      | (.ok a, middle) => outcome (next a) middle
      | (.error error, middle) => (.error error, middle) := by
  simp only [outcome, ExceptT.run_bind, StateT.run_bind]
  rcases h : step.run.run start with ⟨_ | a, middle⟩ <;> rfl

/-- The step succeeds at `start` with that result and leaves the cursor at `stop`. -/
def Gives (step : Scan α) (start : Cursor) (result : α) (stop : Cursor) : Prop :=
  outcome step start = (.ok result, stop)

theorem Gives.unique {step : Scan α} {start stop stop' : Cursor} {a b : α}
    (h : Gives step start a stop) (h' : Gives step start b stop') : a = b ∧ stop = stop' := by
  obtain ⟨hresult, hstop⟩ := Prod.mk.inj (h.symm.trans h')
  exact ⟨Except.ok.inj hresult, hstop⟩

@[simp]
theorem gives_pure {start stop : Cursor} {a b : α} :
    Gives (pure a) start b stop ↔ a = b ∧ start = stop := by
  constructor
  · intro h
    cases h
    exact ⟨rfl, rfl⟩
  · rintro ⟨rfl, rfl⟩
    rfl

@[simp]
theorem gives_bind {step : Scan α} {next : α → Scan β} {start stop : Cursor} {b : β} :
    Gives (step >>= next) start b stop ↔
      ∃ a middle, Gives step start a middle ∧ Gives (next a) middle b stop := by
  rcases h : outcome step start with ⟨_ | a, middle⟩
  · simp [Gives, outcome_bind, h]
  · simp only [Gives, outcome_bind, h, Prod.mk.injEq, Except.ok.injEq]
    constructor
    · intro hnext
      exact ⟨a, middle, ⟨rfl, rfl⟩, hnext⟩
    · rintro ⟨_, _, ⟨rfl, rfl⟩, hnext⟩
      exact hnext

@[simp]
theorem gives_map {step : Scan α} {f : α → β} {start stop : Cursor} {b : β} :
    Gives (f <$> step) start b stop ↔ ∃ a, Gives step start a stop ∧ f a = b := by
  rw [← bind_pure_comp, gives_bind]
  constructor
  · rintro ⟨a, middle, ha, hb⟩
    obtain ⟨rfl, rfl⟩ := gives_pure.mp hb
    exact ⟨a, ha, rfl⟩
  · rintro ⟨a, ha, rfl⟩
    exact ⟨a, stop, ha, gives_pure.mpr ⟨rfl, rfl⟩⟩

theorem outcome_lift (result : Except Error α) (start : Cursor) :
    outcome (liftM result) start = (result, start) := by
  cases result <;> rfl

@[simp]
theorem gives_lift {result : Except Error α} {start stop : Cursor} {a : α} :
    Gives (liftM result) start a stop ↔ result = .ok a ∧ start = stop := by
  rw [Gives, outcome_lift, Prod.mk.injEq]

@[simp]
theorem gives_get {start stop cursor : Cursor} :
    Gives get start cursor stop ↔ start = cursor ∧ start = stop := by
  constructor
  · intro h
    cases h
    exact ⟨rfl, rfl⟩
  · rintro ⟨rfl, rfl⟩
    rfl

@[simp]
theorem gives_move {f : Cursor → Cursor} {start stop : Cursor} {u : Unit} :
    Gives (move f) start u stop ↔ f start = stop := by
  constructor
  · intro h
    cases h
    rfl
  · rintro rfl
    rfl

@[simp]
theorem not_gives_throw {error : Error} {start stop : Cursor} {a : α} :
    ¬ Gives (throw error) start a stop := by
  intro h
  cases h

@[simp]
theorem not_gives_fail {fault : StructureFault} {start stop : Cursor} {a : α} :
    ¬ Gives (fail fault) start a stop := by
  intro h
  cases h

@[simp]
theorem gives_skipBlanks {start stop : Cursor} {u : Unit} :
    Gives skipBlanks start u stop ↔ start.skipBlanks = stop :=
  gives_move

end Scan

namespace Schema

variable {schema : Schema} {classes : ClassReader} {context : Context} {start stop : Cursor}
  {stored : List Value}

theorem exists_given_of_readObject
    (h : Scan.Gives (schema.readObject classes context) start stored stop) :
    ∃ given, Scan.Gives (Scan.memberTexts schema.table schema.className) start given stop ∧
      schema.table.missing? given = none ∧ ∃ fields,
        schema.table.fields classes given context = .ok fields ∧
        ArgType.buildAll classes schema.signature.arguments fields = .ok stored := by
  simp only [readObject, Scan.gives_bind, Scan.gives_lift] at h
  obtain ⟨given, _, hgiven, harguments, rfl⟩ := h
  rw [arguments] at harguments
  split at harguments
  next => cases harguments
  next hmissing =>
    obtain ⟨fields, hfields, hbuild⟩ := bind_eq_ok_iff.mp harguments
    exact ⟨given, hgiven, hmissing, fields, hfields, hbuild⟩

theorem exists_gives_of_decode {text : Bytes} {options : ReadOptions}
    (h : schema.decode classes text options = .ok stored) :
    ∃ stop, Scan.Gives (schema.readObject classes (.root options.maxDepth)) (.ofText text) stored
      stop := by
  have hroot : Scan.Gives (do
      let stored ← schema.readObject classes (.root options.maxDepth)
      Scan.finish options.allowTrailing
      return stored) (.ofText text) stored _ := Prod.ext h rfl
  simp only [Scan.gives_bind, Scan.gives_pure] at hroot
  obtain ⟨_, stop, hread, _, _, -, rfl, -⟩ := hroot
  exact ⟨stop, hread⟩

end Schema

end SchemaJson
