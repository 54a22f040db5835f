import DeliveryRules.Toml.Fault

/-!
# Tables in the making

A table is a list of members. A key with points goes through tables, which are put in where they are
missing, and no name is given twice.

* `Item`: a member of a table that is not complete yet.
* `Entries.put`: puts in a member under a key.
* `Entries.openTable`, `Entries.openItem`: put in what a header stands for.
* `inlineTable`: the table of pairs in braces.
-/

namespace DeliveryRules.Toml

/-- A member of a table that is not complete yet. A table is implicit until a header opens it, and
dotted if it comes from a key with points. -/
inductive Item where
  | value (v : Toml)
  | table (implicit dotted : Bool) (entries : List (String × Item))
  | tables (items : List (List (String × Item)))

abbrev Entries := List (String × Item)

namespace Item

mutual

def toToml : Item → Toml
  | .value v => v
  | .table _ _ entries => .table (ofEntries entries)
  | .tables items => .array (ofTables items)

def ofEntries : Entries → List (String × Toml)
  | [] => []
  | (name, item) :: es => (name, toToml item) :: ofEntries es

def ofTables : List Entries → List Toml
  | [] => []
  | es :: items => .table (ofEntries es) :: ofTables items

end

/-- A value in braces is a table, too, which no key can add to. -/
def ofToml : Toml → Item
  | .table members => .table false false (members.map fun m => (m.1, .value m.2))
  | v => .value v

end Item

namespace Entries

def replace (es : Entries) (name : String) (item : Item) : Entries :=
  es.map fun e => if e.1 = name then (name, item) else e

/-- Changes the entries of the table that a key leads to, of which `way` was followed already.
Tables that are not there yet are put in, as implicit ones; `f` is told whether the last one is
dotted. -/
def changeAt (dotted : Bool) (f : Bool → Entries → Except Cause Entries) :
    List String → List String → Bool → Entries → Except Cause Entries
  | [], _, isDotted, es => f isDotted es
  | name :: key, way, _, es =>
    match es.lookup name with
    | none => do
      let inner ← changeAt dotted f key (way ++ [name]) dotted []
      return es ++ [(name, .table true dotted inner)]
    | some (.value v) => .error (.extendsValue (way ++ [name]) v.typeName)
    | some (.table implicit isDotted inner) =>
      if dotted && !implicit then .error (.duplicateKey name none)
      else do
        let inner ← changeAt dotted f key (way ++ [name]) isDotted inner
        return replace es name (.table implicit isDotted inner)
    | some (.tables items) => do
      let inner ← changeAt dotted f key (way ++ [name]) false (items.getLast?.getD [])
      return replace es name (.tables (items.dropLast ++ [inner]))

/-- Puts in a member under a key with points. The names before the last lead to its table; `table`
is the way to where the key starts, if that is known. -/
def put (table : Option (List String)) (names : List String) (name : String) (item : Item)
    (es : Entries) : Except Cause Entries :=
  let add (isDotted : Bool) (es : Entries) : Except Cause Entries :=
    if isDotted == names.isEmpty then .error (.duplicateKey name none)
    else if es.any (·.1 = name) then .error (.duplicateKey name table)
    else .ok (es ++ [(name, item)])
  changeAt true add names [] false es

/-- Opens a table by its header. -/
def openTable (way : List String) (name : String) (es : Entries) : Except Cause Entries :=
  match es.lookup name with
  | none => .ok (es ++ [(name, .table false false [])])
  | some (.table true false inner) =>
    .ok (es.filter (·.1 ≠ name) ++ [(name, .table false false inner)])
  | some _ => .error (.duplicateKey name (some way))

/-- Opens one more table in an array of tables. -/
def openItem (way : List String) (name : String) (es : Entries) : Except Cause Entries :=
  match es.lookup name with
  | none => .ok (es ++ [(name, .tables [[]])])
  | some (.tables items) => .ok (replace es name (.tables (items ++ [[]])))
  | some _ => .error (.duplicateKey name (some way))

end Entries

/-- The table of pairs in braces. -/
def inlineTable (pairs : List (List String × Toml)) : Except Cause Toml := do
  let entries ← pairs.foldlM (fun es pair =>
    Entries.put none pair.1.dropLast (pair.1.getLastD "") (.ofToml pair.2) es) []
  return .table (Item.ofEntries entries)

end DeliveryRules.Toml
