/-
GraphQL.Proofs.Value.Positions — parts of values and the paths that lead to them.

  §1 Parts  — the part of a value at a path.
  §2 Keys   — the keys of a path.

A path leads into objects by keys and into lists by indices. Where a step does
not fit there is no part. The keys of a path leave out the indices, so they are
the same for all items of a list.
-/
import GraphQL.Report.Record

namespace GraphQL

/-! ## §1 Parts -/

namespace Value

/-- The part of a value one step down. -/
def step? : PathSegment → Value → Option Value
  | .key name, .object members => members.lookup name
  | .index position, .list items => items[position]?
  | _, _ => none

/-- The part of a value at a path. -/
def at? (value : Value) : ResponsePath → Option Value
  | [] => some value
  | segment :: rest => (value.step? segment).bind fun part => part.at? rest

@[simp]
theorem at?_nil (value : Value) : value.at? [] = some value := rfl

theorem at?_cons (value : Value) (segment : PathSegment) (rest : ResponsePath) :
    value.at? (segment :: rest) = (value.step? segment).bind (·.at? rest) :=
  rfl

@[simp]
theorem step?_object (members : Members) (name : Bytes) :
    (object members).step? (.key name) = members.lookup name :=
  rfl

@[simp]
theorem step?_list (items : List Value) (position : Nat) :
    (list items).step? (.index position) = items[position]? :=
  rfl

/-- A longer path leads on from where the shorter one leads. -/
theorem at?_append (value : Value) (path rest : ResponsePath) :
    value.at? (path ++ rest) = (value.at? path).bind (·.at? rest) := by
  induction path generalizing value with
  | nil => rfl
  | cons segment path ih =>
    rw [List.cons_append, at?_cons, at?_cons, Option.bind_assoc]
    exact congrArg _ (funext ih)

end Value

/-! ## §2 Keys -/

/-- The key of a step that has one. -/
def PathSegment.key? : PathSegment → Option Bytes
  | .key name => some name
  | .index _ => none

/-- The keys of a path, in order. -/
def ResponsePath.keys (path : ResponsePath) : List Bytes := path.filterMap PathSegment.key?

namespace ResponsePath

@[simp]
theorem keys_nil : keys [] = [] := rfl

@[simp]
theorem keys_cons_key (name : Bytes) (rest : ResponsePath) :
    keys (.key name :: rest) = name :: keys rest :=
  rfl

@[simp]
theorem keys_cons_index (position : Nat) (rest : ResponsePath) :
    keys (.index position :: rest) = keys rest :=
  rfl

@[simp]
theorem keys_append (path rest : ResponsePath) : keys (path ++ rest) = keys path ++ keys rest :=
  List.filterMap_append

end ResponsePath

end GraphQL
