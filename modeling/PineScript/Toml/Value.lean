/-!
# TOML values

A table keeps its entries in the order in which they were made. Nothing here reads the value of a
float or a date, so only their kind is kept.
-/

namespace PineScript.Toml

inductive Value where
  | string (text : String)
  | integer (value : Int)
  | float
  | boolean (value : Bool)
  | date
  | time
  | datetime
  | array (items : List Value)
  | table (entries : List (String × Value))

abbrev Table := List (String × Value)

abbrev Key := List String

namespace Value

/-- The name of a value's kind in messages. -/
def kindName : Value → String
  | string _ => "str"
  | integer _ => "int"
  | float => "float"
  | boolean _ => "bool"
  | date => "datetime.date"
  | time => "datetime.time"
  | datetime => "datetime.datetime"
  | array _ => "list"
  | table _ => "dict"

def isContainer : Value → Bool
  | array _ | table _ => true
  | _ => false

end Value

namespace Table

def has (t : Table) (name : String) : Bool := (t.lookup name).isSome

/-- Replaces the value of an entry that is there. -/
def replace (t : Table) (name : String) (v : Value) : Table :=
  t.map fun (n, old) => if n = name then (n, v) else (n, old)

/-- Adds an entry that is not there. -/
def add (t : Table) (name : String) (v : Value) : Option Table :=
  if t.has name then none else some (t ++ [(name, v)])

/-- Changes the table at a key, making the tables on the way. Where `intoArrays` holds, an array
stands for its last table. There is no result if something else stands on the way. -/
def within (intoArrays : Bool) (f : Table → Option Table) : Key → Table → Option Table
  | [], t => f t
  | name :: key, t =>
    match t.lookup name with
    | none => do return t ++ [(name, .table (← within intoArrays f key []))]
    | some (.table inner) => do
      return t.replace name (.table (← within intoArrays f key inner))
    | some (.array items) =>
      match intoArrays, items.getLast? with
      | true, some (.table inner) => do
        let last := Value.table (← within intoArrays f key inner)
        return t.replace name (.array (items.dropLast ++ [last]))
      | _, _ => none
    | some _ => none

/-- Appends an empty table to the array of an entry. -/
def appendTable (name : String) (t : Table) : Option Table :=
  match t.lookup name with
  | none => some (t ++ [(name, .array [.table []])])
  | some (.array items) => some (t.replace name (.array (items ++ [.table []])))
  | some _ => none

end Table

end PineScript.Toml
