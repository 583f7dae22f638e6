import SchemaJson.Toml.Scalar

/-! TOML documents: nested values, the lines of a document, and the tables that the lines define
together. A table is defined once, and a key once in its table. -/

namespace SchemaJson.Toml

open Reader

def place : (path : List Bytes) → Value → Table → Table
  | [], _, table => table
  | [key], value, table => table ++ [(key, value)]
  | key :: path, value, table =>
    match table.lookup key with
    | some (.table inner) =>
      table.map fun entry =>
        if entry.1 == key then (key, .table (place path value inner)) else entry
    | _ => table ++ [(key, .table (place path value []))]

/-- The inline table with these values under their paths, none of which starts with another. -/
def inlineTable? : List (List Bytes × Value) → Option Table
  | [] => some []
  | entries =>
    let paths := entries.map Prod.fst
    let apart := paths.Pairwise fun p q => !p.isPrefixOf q && !q.isPrefixOf p
    if apart then some (entries.foldl (fun table entry => place entry.1 entry.2 table) []) else none

mutual

/-- A value in which arrays and tables nest at most `levels` deep. -/
def value : (levels : Nat) → Reader Value
  | 0 => scalar
  | levels + 1 => fun text =>
    match text with
    | 0x5b :: rest =>
      match (do anyBlank; one Ascii.closeBracket : Reader Unit) rest with
      | some (_, rest) => some (.array [], rest)
      | none => (items levels (rest.length + 1) rest).map fun (items, rest) => (.array items, rest)
    | 0x7b :: rest =>
      match (do spaces; one Ascii.closeBrace : Reader Unit) rest with
      | some (_, rest) => some (.table [], rest)
      | none => do
        let (entries, rest) ← entries levels (rest.length + 1) rest
        return (.table (← inlineTable? entries), rest)
    | _ => scalar text
termination_by levels => (levels, 0)

/-- The elements of an array and its closing bracket. -/
def items (levels : Nat) : (steps : Nat) → Reader (List Value)
  | 0 => failure
  | steps + 1 => do
    anyBlank
    let item ← value levels
    anyBlank
    match ← get with
    | 0x5d :: rest => do
      set rest
      return [item]
    | 0x2c :: rest => do
      set rest
      anyBlank
      match ← get with
      | 0x5d :: rest => do
        set rest
        return [item]
      | _ => return item :: (← items levels steps)
    | _ => failure
termination_by steps => (levels, steps + 1)

/-- The entries of an inline table and its closing brace. -/
def entries (levels : Nat) : (steps : Nat) → Reader (List (List Bytes × Value))
  | 0 => failure
  | steps + 1 => do
    let path ← key
    one 0x3d
    spaces
    let content ← value levels
    spaces
    match ← get with
    | 0x7d :: rest => do
      set rest
      return [(path, content)]
    | 0x2c :: rest => do
      set rest
      return (path, content) :: (← entries levels steps)
    | _ => failure
termination_by steps => (levels, steps + 1)

end

inductive Line where
  | blank
  | entry (path : List Bytes) (value : Value)
  | table (path : List Bytes)
  /-- One more table of an array of tables. -/
  | element (path : List Bytes)

def line : Reader Line := do
  spaces
  match ← get with
  | 0x5b :: 0x5b :: rest => do
    set rest
    let path ← key
    one Ascii.closeBracket
    one Ascii.closeBracket
    lineEnd
    return .element path
  | 0x5b :: rest => do
    set rest
    let path ← key
    one Ascii.closeBracket
    lineEnd
    return .table path
  | 0x23 :: _ | 0x0a :: _ | 0x0d :: _ | [] => do
    lineEnd
    return .blank
  | _ => do
    let path ← key
    one 0x3d
    spaces
    let content ← value (greatestNesting - 1)
    lineEnd
    return .entry path content

def lines : (steps : Nat) → Bytes → Option (List Line)
  | 0, _ => none
  | steps + 1, text =>
    match line text with
    | none => none
    | some (first, []) => some [first]
    | some (first, rest) => (lines steps rest).map (first :: ·)

/-- How a table came to be. -/
inductive Origin where
  /-- By its own header. -/
  | header
  /-- By the header of a table inside it. -/
  | path
  /-- By a key with points. -/
  | dotted
  deriving DecidableEq, Repr

/-- A table while its document is read. -/
inductive Node where
  | value (content : Value)
  | table (origin : Origin) (entries : List (Bytes × Node))
  /-- An array of tables, the latest first. -/
  | elements (latest : List (Bytes × Node)) (earlier : List Node)

abbrev Nodes := List (Bytes × Node)

def Nodes.set (nodes : Nodes) (key : Bytes) (node : Node) : Nodes :=
  if (nodes.lookup key).isSome then
    nodes.map fun entry => if entry.1 == key then (key, node) else entry
  else nodes ++ [(key, node)]

/-- Changes the table that a path leads to. `viaHeader` tells a header's path from the points of a
key; the latter does not go through a table that has a header. -/
def alter (viaHeader : Bool) (change : Origin → Nodes → Option Nodes) :
    (path : List Bytes) → Origin → Nodes → Option Nodes
  | [], origin, nodes => change origin nodes
  | key :: path, _, nodes =>
    match nodes.lookup key with
    | none => do
      let origin := if viaHeader then Origin.path else .dotted
      let inner ← alter viaHeader change path origin []
      return Nodes.set nodes key (.table origin inner)
    | some (.value _) => none
    | some (.elements latest earlier) => do
      let latest ← alter viaHeader change path .header latest
      return Nodes.set nodes key (.elements latest earlier)
    | some (.table origin inner) =>
      if !viaHeader && origin == .header then none
      else do
        let inner ← alter viaHeader change path origin inner
        return Nodes.set nodes key (.table origin inner)

/-- Adds a key to the table of the latest header. Keys with points only reach tables that such keys
have made. -/
def addEntry (path : List Bytes) (content : Value) (nodes : Nodes) : Option Nodes := do
  let key ← path.getLast?
  let inner := path.dropLast
  alter false (fun origin table =>
    if (!inner.isEmpty && origin != .dotted) || (table.lookup key).isSome then none
    else some (table ++ [(key, .value content)])) inner .header nodes

def addTable (path : List Bytes) (nodes : Nodes) : Option Nodes := do
  let key ← path.getLast?
  alter true (fun _ table =>
    match table.lookup key with
    | none => some (Nodes.set table key (.table .header []))
    | some (.table .path inner) => some (Nodes.set table key (.table .header inner))
    | some _ => none) path.dropLast .header nodes

def addElement (path : List Bytes) (nodes : Nodes) : Option Nodes := do
  let key ← path.getLast?
  alter true (fun _ table =>
    match table.lookup key with
    | none => some (Nodes.set table key (.elements [] []))
    | some (.elements latest earlier) =>
      some (Nodes.set table key (.elements [] (.table .header latest :: earlier)))
    | some _ => none) path.dropLast .header nodes

/-- Changes the table that the latest header started. -/
def within (header : List Bytes) (change : Nodes → Option Nodes) (nodes : Nodes) : Option Nodes :=
  alter true (fun _ table => change table) header .header nodes

/-- Takes the lines in order. `header` is the path of the latest header. -/
def build : (header : List Bytes) → List Line → Nodes → Option Nodes
  | _, [], nodes => some nodes
  | header, .blank :: rest, nodes => build header rest nodes
  | header, .entry path content :: rest, nodes => do
    build header rest (← within header (addEntry path content) nodes)
  | _, .table path :: rest, nodes => do build path rest (← addTable path nodes)
  | _, .element path :: rest, nodes => do build path rest (← addElement path nodes)

mutual

def Node.toValue : Node → Value
  | .value content => content
  | .table _ nodes => .table (toTable nodes)
  | .elements latest earlier => .array (toValues earlier [.table (toTable latest)])

def toTable : List (Bytes × Node) → Table
  | [] => []
  | (key, node) :: rest => (key, node.toValue) :: toTable rest

/-- The tables of an array in the order of the document, in front of `later` ones. -/
def toValues : List Node → List Value → List Value
  | [], later => later
  | node :: earlier, later => toValues earlier (node.toValue :: later)

end

/-- A byte order mark is no part of the document. -/
def withoutMark : Bytes → Bytes
  | 0xef :: 0xbb :: 0xbf :: rest => rest
  | text => text

def parse (text : Bytes) : Option Table := do
  let text := withoutMark text
  return toTable (← build [] (← lines (text.length + 1) text) [])

end SchemaJson.Toml
