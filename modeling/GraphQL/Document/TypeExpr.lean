/-
GraphQL.Document.TypeExpr — type expressions: a named type inside list and
non-null wrappers.

  §1 Expressions  — the type, its wrappers and how they are taken off.
  §2 Text         — the written form, and the form that messages use.

The leaf is a parameter: a name where a type is written, the identifier of a
declared type where it is understood.
-/
import GraphQL.Text.Bytes

namespace GraphQL

/-! ## §1 Expressions -/

/-- A named type and its wrappers. -/
inductive TypeExpr (α : Type) where
  | named (leaf : α)
  | list (element : TypeExpr α)
  | nonNull (inner : TypeExpr α)
deriving DecidableEq, Inhabited

/-- A wrapper of a type expression. -/
inductive Wrapper where
  | list
  | nonNull
deriving DecidableEq

namespace TypeExpr

variable {α β : Type}

/-- The named type inside all wrappers. -/
def leaf : TypeExpr α → α
  | .named leaf => leaf
  | .list element => element.leaf
  | .nonNull inner => inner.leaf

/-- The wrappers, outermost first. -/
def wrappers : TypeExpr α → List Wrapper
  | .named _ => []
  | .list element => .list :: element.wrappers
  | .nonNull inner => .nonNull :: inner.wrappers

/-- The same wrappers around another leaf. -/
def map (f : α → β) : TypeExpr α → TypeExpr β
  | .named leaf => .named (f leaf)
  | .list element => .list (element.map f)
  | .nonNull inner => .nonNull (inner.map f)

/-- Null is not a value of the type. -/
def isNonNull : TypeExpr α → Bool
  | .nonNull _ => true
  | _ => false

/-- The outermost wrapper is a list. -/
def isList : TypeExpr α → Bool
  | .list _ => true
  | _ => false

/-- The expression without its outermost wrapper. -/
def inner : TypeExpr α → TypeExpr α
  | .named leaf => .named leaf
  | .list element => element
  | .nonNull inner => inner

/-- The expression that admits null as well. -/
def nullable : TypeExpr α → TypeExpr α
  | .nonNull inner => inner
  | type => type

/-! ## §2 Text -/

/-- The written form: brackets around a list's element, an exclamation mark
after a type that is not null. -/
def text : TypeExpr Bytes → Bytes
  | .named name => name
  | .list element => ascii '[' :: element.text ++ [ascii ']']
  | .nonNull inner => inner.text ++ [ascii '!']

/-- The form used in messages about values, where non-null markers are left out. -/
def displayText : TypeExpr Bytes → Bytes
  | .named name => name
  | .list element => ascii '[' :: element.displayText ++ [ascii ']']
  | .nonNull inner => inner.displayText

end TypeExpr

end GraphQL
