/-
GraphQL.Schema.NameIndex — tables from names to positions.

  §1 Tables  — finding a name and adding one.
  §2 Lists   — the table of a list of names.

A hashed table is known here by its entries, in no order that matters: each name has
one at most. A name that is there already keeps its position.
-/
import GraphQL.Text.Bytes

namespace GraphQL

/-! ## §1 Tables -/

/-- A table of names, each with a position. -/
structure NameIndex where
  entries : List (Bytes × Nat)

namespace NameIndex

/-- A table without names. -/
def empty : NameIndex := ⟨[]⟩

/-- The position of a name. -/
def find? (index : NameIndex) (name : Bytes) : Option Nat := index.entries.lookup name

/-- The name is there. -/
def contains (index : NameIndex) (name : Bytes) : Bool := (index.find? name).isSome

/-- The table with another name, unless it is there already. -/
def emplace (index : NameIndex) (name : Bytes) (position : Nat) : NameIndex :=
  if index.contains name then index else ⟨(name, position) :: index.entries⟩

/-! ## §2 Lists -/

/-- The table with further names, whose positions follow each other. -/
def emplaceAll (index : NameIndex) (position : Nat) : List Bytes → NameIndex
  | [] => index
  | name :: rest => (index.emplace name position).emplaceAll (position + 1) rest

/-- The table of the names of a list, with their positions in it. -/
def ofNames (names : List Bytes) : NameIndex := empty.emplaceAll 0 names

theorem emplaceAll_concat (index : NameIndex) (position : Nat) (names : List Bytes)
    (name : Bytes) : index.emplaceAll position (names ++ [name]) =
      (index.emplaceAll position names).emplace name (position + names.length) := by
  induction names generalizing index position with
  | nil => rfl
  | cons first rest ih =>
    rw [List.cons_append, emplaceAll, ih, emplaceAll, List.length_cons, Nat.add_assoc,
      Nat.add_comm 1]

/-- A name at the end of a list has its entry added last. -/
theorem ofNames_concat (names : List Bytes) (name : Bytes) :
    ofNames (names ++ [name]) = (ofNames names).emplace name names.length := by
  rw [ofNames, emplaceAll_concat, Nat.zero_add, ofNames]

end NameIndex

end GraphQL
