/-
GraphQL.Things.Catalogue — a small catalogue of things and its schema.

  §1 Things      — what the catalogue holds.
  §2 Resolvers   — reading and changing it.
  §3 Schema      — the types served.

Resolvers read their arguments with the JSON library of the host. A read that
fails raises the library's message.
-/
import GraphQL.Json.Library
import GraphQL.Log.Console
import GraphQL.Schema.Definition

namespace GraphQL.Things

/-! ## §1 Things -/

/-- A thing with an identifier, a name and a value. -/
structure Thing where
  id : Bytes
  name : Bytes
  value : Int32

/-- A thing as a value. -/
def Thing.toValue (thing : Thing) : Value :=
  .object [(utf8 "id", .string thing.id), (utf8 "name", .string thing.name),
    (utf8 "value", .int thing.value.toInt64)]

/-- The things there are. -/
abbrev Catalogue := List Thing

/-- The things at the start. -/
def Catalogue.initial : Catalogue :=
  [⟨utf8 "foo", utf8 "Foo", 4⟩, ⟨utf8 "bar", utf8 "Bar", 5⟩]

/-- The thing of an identifier. -/
def Catalogue.thing? (catalogue : Catalogue) (id : Bytes) : Option Thing :=
  catalogue.find? (·.id == id)

/-- The catalogue with another value for the thing of an identifier. -/
def Catalogue.withValue (catalogue : Catalogue) (id : Bytes) (value : Int32) : Catalogue :=
  catalogue.map fun thing => if thing.id == id then { thing with value } else thing

/-! ## §2 Resolvers -/

/-- Computations on the catalogue. -/
abbrev Host := Hosted Catalogue

/-- The thing of an identifier in the catalogue as it is. -/
def find (id : Bytes) : Host (Option Thing) :=
  Hosted.update fun catalogue => (catalogue.thing? id, catalogue)

/-- Changes the value of a thing. -/
def setValue (thing : Thing) (value : Int32) : Host Resolution :=
  Hosted.update fun catalogue =>
    (.ok { thing with value }.toValue, catalogue.withValue thing.id value)

/-- Answers a thing. -/
def thingResolution (id : Bytes) : Host Resolution := do
  match ← find id with
  | some thing => return .ok thing.toValue
  | none => return .error (utf8 "No thing with id " ++ quoted id)

/-- Goes on with what is read; a failure raises its message. -/
def withRead {α : Type} (read : Except Bytes α) (next : α → Host Resolution) : Host Resolution :=
  match read with
  | .ok a => next a
  | .error message => return .raised message

section Resolvers

variable (library : Json.Library)

/-- The other one of the two things. -/
def otherThing : Resolver Host := fun _ _ parent =>
  withRead (library.text (parent.member (utf8 "id"))) fun id =>
    thingResolution (if id = utf8 "foo" then utf8 "bar" else utf8 "foo")

/-- The thing of the identifier given as argument. -/
def thingById : Resolver Host := fun arguments _ _ =>
  withRead (library.text (arguments.member (utf8 "id"))) thingResolution

/-- The thing of the identifier in the context of the request. -/
def thingByContext : Resolver Host := fun _ context _ =>
  if context.has (utf8 "thing") then
    withRead (library.text (context.member (utf8 "thing"))) thingResolution
  else return .error (utf8 "No :id context provided")

/-- Changes the thing of the identifier given as argument. The new value is read once
the thing is found. -/
def updateById : Resolver Host := fun arguments _ _ =>
  withRead (library.text (arguments.member (utf8 "id"))) fun id => do
    match ← find id with
    | none => return .error (utf8 "No thing to update")
    | some thing =>
      withRead (library.int ((arguments.member (utf8 "thing")).member (utf8 "value")))
        (setValue thing)

end Resolvers

/-- The number given as argument. -/
def number : Resolver Host := fun arguments _ _ => return .ok (arguments.member (utf8 "val"))

/-! ## §3 Schema -/

/-- An argument without default and description. -/
def plainArgument (name type : String) : ArgumentDefinition :=
  ⟨utf8 name, utf8 type, none, none, []⟩

/-- A field with arguments and a resolver. -/
def plainField (name type : String) (arguments : List ArgumentDefinition)
    (resolver : Option (Resolver Host)) : FieldDefinition Host :=
  ⟨utf8 name, utf8 type, arguments, resolver, none, []⟩

/-- The type of changes to a thing. -/
def inputThingType : DefinitionStep Host :=
  .input (utf8 "InputThing") none [plainArgument "value" "Int!"]

section Definitions

variable (library : Json.Library)

/-- The type of things. -/
def thingType : DefinitionStep Host :=
  .object (utf8 "Thing") (some (utf8 "Something with a name and a value"))
    [plainField "id" "String" [] none, plainField "name" "String" [] none,
      plainField "value" "Int" [] none,
      plainField "other_thing" "Thing" [] (some (otherThing library))]

/-- The queries. -/
def queries : DefinitionStep Host :=
  .query none
    [plainField "thing" "Thing"
        [plainArgument "id" "String!",
          { plainArgument "deprecated_arg" "String" with deprecation := some ⟨none⟩ },
          { plainArgument "deprecated_arg_with_reason" "String" with
            deprecation := some ⟨some (utf8 "reason")⟩ }]
        (some (thingById library)),
      { plainField "deprecated_thing" "Thing" [plainArgument "id" "String!"]
          (some (thingById library)) with
        deprecation := some ⟨some (utf8 "use `thing' instead")⟩ },
      plainField "thingByContext" "Thing" [] (some (thingByContext library)),
      plainField "number" "Int" [plainArgument "val" "Int!"] (some number)]

/-- The mutations. -/
def mutations : DefinitionStep Host :=
  .mutation none
    [plainField "updateThing" "Thing"
      [plainArgument "id" "String!", plainArgument "thing" "InputThing!"]
      (some (updateById library))]

/-- The definitions of the schema. -/
def definitions : Definitions Host :=
  Definitions.ofSteps [thingType library, inputThingType, queries library, mutations library]

end Definitions

end GraphQL.Things
