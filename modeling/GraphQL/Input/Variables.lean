/-
GraphQL.Input.Variables — the variables of an operation.

Every declared variable is checked, whether the operation uses it or not. A
variable takes the supplied value, or else its default; one that takes
neither stays without value, which is an error if its type is non-null.
Deprecated fields are reported where the variable is used as an argument.
-/
import GraphQL.Input.Coercion
import GraphQL.Report.Record

namespace GraphQL

/-- What a variable comes to: its value, if it has one, and the records about it. -/
abbrev BindingResult := Option Value × List ErrorRecord

/-- The values of the variables that have one, and what was wrong with others. -/
structure VariableBindings where
  values : Members
  errors : List ErrorRecord

namespace VariableDefinition

/-- A record about a variable, at its definition. -/
def record (definition : VariableDefinition) (message : Message) : ErrorRecord :=
  ⟨message, [definition.location], none⟩

/-- What an issue with a variable's value says, if anything. -/
def issueMessage (issue : Issue) : Option Message :=
  match issue.kind with
  | .invalid => some (.inputInvalid .variableInput issue.path issue.typeName)
  | .missing => some (.inputMissing .variableInput issue.path issue.typeName)
  | .unknown => some (.inputUnknown .variableInput issue.path)
  | .deprecated _ => none

/-- The value of a variable and the records about it, from the result of a
coercion. -/
def settle (definition : VariableDefinition) (coerced : Coerced) :
    BindingResult :=
  (match coerced.outcome with
    | .ok value => some value
    | _ => none,
    (coerced.issues.filterMap issueMessage).map definition.record)

variable {m : Type → Type} [Monad m]

/-- The value of a variable of a known type. -/
def bindAt (schema : Schema m) (definition : VariableDefinition) (supplied : Option Value)
    (type : TypeExpr TypeId) : Engine m BindingResult := do
  match supplied, definition.default with
  | some value, _ =>
    definition.settle <$> value.coerce schema (some definition.location) type definition.name
  | none, some literal => definition.settle <$> literal.coerce schema [] type definition.name
  | none, none =>
    if type.isNonNull then
      return (none, [definition.record
        (.inputMissing .variableInput definition.name (schema.displayText type))])
    else return (none, [])

/-- The type that a variable is declared with, if it is one that takes input. -/
def inputType? (schema : Schema m) (definition : VariableDefinition) :
    Option (TypeExpr TypeId) :=
  (schema.understand? definition.type).filter fun type => !schema.isObjectType type.leaf

/-- The value of one variable and the records about it. -/
def bind (schema : Schema m) (supplied : Value) (definition : VariableDefinition) :
    Engine m BindingResult :=
  match inputType? schema definition with
  | none => return (none, [definition.record (.typeUnknown definition.name definition.type)])
  | some type => definition.bindAt schema (supplied.member? definition.name) type

end VariableDefinition

namespace VariableBindings

/-- Adds what a variable comes to. Where a name is defined again, the later value
takes the place of the one before. -/
def add (bound : VariableBindings) (name : Bytes) (result : BindingResult) : VariableBindings :=
  ⟨match result.1 with
    | some value => assign bound.values name value
    | none => bound.values, bound.errors ++ result.2⟩

variable {m : Type → Type} [Monad m]

/-- Binds further variables one after another. -/
def bindFurther (schema : Schema m) (supplied : Value) :
    VariableBindings → List VariableDefinition → Engine m VariableBindings
  | bound, [] => return bound
  | bound, definition :: rest => do
    let result ← definition.bind schema supplied
    bindFurther schema supplied (bound.add definition.name result) rest

/-- Binds the variables of an operation in the order of their definitions. -/
def ofDefinitions (schema : Schema m) (supplied : Value)
    (definitions : List VariableDefinition) : Engine m VariableBindings :=
  bindFurther schema supplied ⟨[], []⟩ definitions

end VariableBindings

end GraphQL
