import SchemaJson.Json.Decode

/-! Asking an array for its elements one at a time. Text behind the element asked for last has not been
looked at, and after the last element or a failure there is nothing more to get. -/

namespace SchemaJson

/-- How far the walk over the elements of an array has come. -/
structure ElementWalk where
  view : ArrayView
  cursor : Cursor
  /-- Whether the opening bracket lies behind the cursor. -/
  started : Bool
  finished : Bool
  deriving DecidableEq, Repr

namespace ElementWalk

def ofView (view : ArrayView) : ElementWalk := ⟨view, .ofSpan view.span, false, false⟩

/-- Decodes the element at the cursor. The separator behind it is taken before that. -/
def element (classes : ClassReader) (walk : ElementWalk) :
    Except Error (Option Field) × ElementWalk :=
  match Scan.element.run.run walk.cursor with
  | (.error error, cursor) => (.error error, { walk with cursor })
  | (.ok (span, isLast), cursor) =>
    ((span.decode classes walk.view.label walk.view.element walk.view.context).map some,
      { walk with cursor, finished := isLast })

def step (classes : ClassReader) (walk : ElementWalk) : Except Error (Option Field) × ElementWalk :=
  if walk.finished then (.ok none, walk)
  else if walk.started then walk.element classes
  else
    match Scan.arrayStart.run.run walk.cursor with
    | (.error error, cursor) => (.error error, { walk with cursor, started := true })
    | (.ok true, cursor) => (.ok none, { walk with cursor, started := true, finished := true })
    | (.ok false, cursor) => element classes { walk with cursor, started := true }

/-- The next element, or why there is none; nothing once the elements are all there. -/
def next (classes : ClassReader) (walk : ElementWalk) :
    Option (Except Error Field) × ElementWalk :=
  match walk.step classes with
  | (.ok (some field), walk) => (some (.ok field), walk)
  | (.ok none, walk) => (none, walk)
  | (.error error, walk) => (some (.error error), { walk with finished := true })

/-- What is got after the walk was asked so many times before. -/
def get? (classes : ClassReader) : (asked : Nat) → ElementWalk → Option (Except Error Field)
  | 0, walk => (walk.next classes).1
  | asked + 1, walk => get? classes asked (walk.next classes).2

end ElementWalk

end SchemaJson
