import LogQuery.Settings.Loose

/-!
# Assembling TOML tables

A TOML text builds its tables statement by statement. A header opens a table, a dotted key opens tables on
its way to the last name, and neither may open a table again that the other has closed. A draft
remembers how each table came to be, until the text has ended.
-/

namespace LogQuery.Toml

/-- A table under construction, or what stands in one. -/
inductive Draft where
  | value (v : Loose)
  /-- `implied` tables were only passed through, `dotted` ones were opened by a dotted key. -/
  | table (implied dotted : Bool) (members : List (String × Draft))
  /-- Tables that were opened one after the other under the same name; only the last can grow. -/
  | tables (earlier : List Draft) (last : Draft)
  deriving Inhabited

namespace Draft

def empty : Draft := table false false []

/-- Changes the table at the end of a path, and opens the tables on the way that are missing. With
`dotted`, the path is the front of a dotted key and may not pass a table that a header has opened. -/
def descend? (dotted : Bool) (f : Draft → Option Draft) : List String → Draft → Option Draft
  | [], d => f d
  | k :: path, table i t ms =>
    match Members.find? ms k with
    | none => (descend? dotted f path (table true dotted [])).map fun d =>
        table i t (Members.insert k d ms)
    | some (tables earlier last) => (descend? dotted f path last).map fun d =>
        table i t (Members.insert k (tables earlier d) ms)
    | some (table i' t' ms') =>
      if dotted && !i' then none
      else (descend? dotted f path (table i' t' ms')).map fun d => table i t (Members.insert k d ms)
    | some (value _) => none
  | _ :: _, value _ => none
  | _ :: _, tables _ _ => none

/-- Puts a value under a free name of a table. A dotted key ends in a table that dotted keys have
opened, a plain one never does. -/
def put? (path : List String) (k : String) (v : Loose) : Draft → Option Draft
  | table i t ms =>
    if t = path.isEmpty || (Members.find? ms k).isSome then none
    else some (table i t (Members.insert k (value v) ms))
  | value _ => none
  | tables _ _ => none

/-- The statement that gives a value to a key. -/
def assign? (path : List String) (k : String) (v : Loose) (d : Draft) : Option Draft :=
  d.descend? true (put? path k v) path

/-- The table that a header opens, from what its name stands for so far. -/
def open? : Option Draft → Option Draft
  | none => some empty
  | some (table true false ms) => some (table false false ms)
  | some _ => none

/-- Opens a table and fills it. -/
def section? (fill : Draft → Option Draft) (k : String) : Draft → Option Draft
  | table i t ms => do
    let opened ← open? (Members.find? ms k)
    let d ← fill opened
    some (table i t (Members.insert k d ms))
  | value _ => none
  | tables _ _ => none

/-- Opens one more table of several under the same name and fills it. -/
def element? (fill : Draft → Option Draft) (k : String) : Draft → Option Draft
  | table i t ms => do
    let d ← fill empty
    match Members.find? ms k with
    | none => some (table i t (Members.insert k (tables [] d) ms))
    | some (tables earlier last) => some (table i t (Members.insert k (tables (earlier ++ [last]) d) ms))
    | some _ => none
  | value _ => none
  | tables _ _ => none

mutual

def toLoose : Draft → Loose
  | value v => v
  | table _ _ ms => .table (membersToLoose ms)
  | tables earlier last => .list (itemsToLoose earlier ++ [toLoose last])

def itemsToLoose : List Draft → List Loose
  | [] => []
  | d :: ds => toLoose d :: itemsToLoose ds

def membersToLoose : List (String × Draft) → List (String × Loose)
  | [] => []
  | (k, d) :: ms => (k, toLoose d) :: membersToLoose ms

end

end Draft

end LogQuery.Toml
