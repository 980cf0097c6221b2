import DeskCalculator.Error

/-!
# Symbol tables

A table holds the declared names with their values, in the order of declaration and each name once.
Names are compared exactly.
-/

namespace DeskCalculator

structure SymbolTable where
  entries : List (String × Binary64)
  nodup : (entries.map Prod.fst).Nodup := by simp

namespace SymbolTable

def empty : SymbolTable := { entries := [] }

def find? (table : SymbolTable) (name : String) : Option Binary64 := table.entries.lookup name

def isDeclared (table : SymbolTable) (name : String) : Bool := (table.find? name).isSome

def size (table : SymbolTable) : Nat := table.entries.length

def isEmpty (table : SymbolTable) : Bool := table.entries.isEmpty

/-- The value of a name, which has to have been declared. -/
def lookup (table : SymbolTable) (name : String) : Except Cause Binary64 :=
  match table.find? name with
  | some value => .ok value
  | none => .error (.undefinedVariable name)

theorem not_mem_of_find?_eq_none {table : SymbolTable} {name : String}
    (h : table.find? name = none) : name ∉ table.entries.map Prod.fst := by
  intro hm
  obtain ⟨⟨n, v⟩, he, rfl⟩ := List.mem_map.1 hm
  have := List.lookup_eq_none_iff.1 h _ he
  simp at this

def declare (table : SymbolTable) (name : String) (value : Binary64) :
    Except Cause SymbolTable :=
  match h : table.find? name with
  | some _ => .error (.duplicateDeclaration name)
  | none =>
    .ok
      { entries := table.entries ++ [(name, value)]
        nodup := by
          simp only [List.map_append, List.map_cons, List.map_nil]
          refine List.nodup_append.2 ⟨table.nodup, by simp, ?_⟩
          rintro a ha b hb rfl
          simp only [List.mem_singleton] at hb
          exact not_mem_of_find?_eq_none h (hb ▸ ha) }

def set (table : SymbolTable) (name : String) (value : Binary64) : Except Cause SymbolTable :=
  match table.find? name with
  | none => .error (.undefinedVariable name)
  | some _ =>
    .ok
      { entries := table.entries.map fun entry =>
          if entry.1 = name then (name, value) else entry
        nodup := by
          have h : (table.entries.map fun entry =>
              if entry.1 = name then (name, value) else entry).map Prod.fst =
              table.entries.map Prod.fst := by
            rw [List.map_map]
            refine List.map_congr_left fun entry _ => ?_
            by_cases he : entry.1 = name <;> simp [he]
          rw [h]
          exact table.nodup }

/-- The table that declares some names in order; of a name given twice the first value counts. -/
def ofList (entries : List (String × Binary64)) : SymbolTable :=
  entries.foldl (fun table entry => (table.declare entry.1 entry.2).toOption.getD table) empty

/-- The names that every session begins with. -/
def constants : SymbolTable :=
  ofList [("pi", (Decimal.mk 31415926535 (-10)).toBinary64),
    ("e", (Decimal.mk 27182818284 (-10)).toBinary64)]

end SymbolTable

end DeskCalculator
