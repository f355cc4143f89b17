/-
GraphQL.Proofs.Grammar.Sequence — the token sequences of documents.

  §1 Types       — a name inside brackets and exclamation marks.
  §2 Literals    — values, lists and objects.
  §3 Selections  — fields with aliases, arguments and nested fields.
  §4 Operations  — the form with a keyword, the short form of an anonymous
                   query, and documents.

The sequence of a part is a function of the part, except that an anonymous
query without variables may begin with its brace. Locations play no part.
-/
import GraphQL.Proofs.Grammar.Layout

namespace GraphQL

/-! ## §1 Types -/

/-- The tokens of a written type. -/
def TypeExpr.tokens : TypeExpr Bytes → List Token
  | .named name => [.name name]
  | .list element =>
    .punctuator .openBracket :: element.tokens ++ [.punctuator .closeBracket]
  | .nonNull inner => inner.tokens ++ [.punctuator .bang]

/-! ## §2 Literals -/

/-- The tokens of a name, a colon and a value. -/
def Entry.tokens {α : Type} (value : α → List Token) (entry : Entry α) : List Token :=
  .name entry.name :: .punctuator .colon :: value entry.value

namespace Literal

mutual

/-- The tokens of a literal. -/
def tokens : Literal → List Token
  | .null _ => [.name (utf8 "null")]
  | .int _ n => [.int n]
  | .float _ x => [.float x]
  | .string _ text => [.string text]
  | .boolean _ b => [.name (if b then utf8 "true" else utf8 "false")]
  | .enum _ word => [.name word]
  | .list _ items =>
    .punctuator .openBracket :: itemTokens items ++ [.punctuator .closeBracket]
  | .object _ fields =>
    .punctuator .openBrace :: fieldTokens fields ++ [.punctuator .closeBrace]
  | .reference _ name => [.punctuator .dollar, .name name]

/-- The tokens of the items of a list. -/
def itemTokens : List Literal → List Token
  | [] => []
  | item :: rest => tokens item ++ itemTokens rest

/-- The tokens of the fields of an object. -/
def fieldTokens : List (Entry Literal) → List Token
  | [] => []
  | ⟨name, value, _⟩ :: rest =>
    (.name name :: .punctuator .colon :: tokens value) ++ fieldTokens rest

end

theorem itemTokens_eq (items : List Literal) : itemTokens items = items.flatMap tokens := by
  induction items with
  | nil => rfl
  | cons item rest ih => rw [itemTokens, ih, List.flatMap_cons]

theorem fieldTokens_eq (fields : List (Entry Literal)) :
    fieldTokens fields = fields.flatMap (Entry.tokens tokens) := by
  induction fields with
  | nil => rfl
  | cons field rest ih => rw [fieldTokens, ih, List.flatMap_cons]; rfl

theorem tokens_list (location : Location) (items : List Literal) :
    (list location items).tokens =
      .punctuator .openBracket :: items.flatMap tokens ++ [.punctuator .closeBracket] := by
  rw [tokens, itemTokens_eq]

theorem tokens_object (location : Location) (fields : List (Entry Literal)) :
    (object location fields).tokens =
      .punctuator .openBrace :: fields.flatMap (Entry.tokens tokens) ++
        [.punctuator .closeBrace] := by
  rw [tokens, fieldTokens_eq]

end Literal

/-! ## §3 Selections -/

/-- The tokens of items in parentheses, which are left out where there is no
item. -/
def parenthesisedTokens {α : Type} (item : α → List Token) : List α → List Token
  | [] => []
  | first :: rest =>
    .punctuator .openParen :: (first :: rest).flatMap item ++ [.punctuator .closeParen]

/-- The tokens before the name of a field with an alias. -/
def aliasTokens : Option Bytes → List Token
  | none => []
  | some name => [.name name, .punctuator .colon]

/-- The tokens of the arguments of a field. -/
def argumentTokens (arguments : List (Entry Literal)) : List Token :=
  parenthesisedTokens (Entry.tokens Literal.tokens) arguments

namespace Field

mutual

/-- The tokens of a field. -/
def tokens : Field → List Token
  | ⟨aliasName, name, arguments, selections, _⟩ =>
    aliasTokens aliasName ++ .name name :: argumentTokens arguments ++ nestedTokens selections

/-- The tokens of the selections nested in a field, none if it has none. -/
def nestedTokens : List Field → List Token
  | [] => []
  | first :: rest =>
    .punctuator .openBrace :: (tokens first ++ restTokens rest) ++ [.punctuator .closeBrace]

/-- The tokens of fields in a row. -/
def restTokens : List Field → List Token
  | [] => []
  | field :: rest => tokens field ++ restTokens rest

end

theorem restTokens_eq (fields : List Field) : restTokens fields = fields.flatMap tokens := by
  induction fields with
  | nil => rfl
  | cons field rest ih => rw [restTokens, ih, List.flatMap_cons]

end Field

/-- The tokens of fields in braces. -/
def bracedTokens (fields : List Field) : List Token :=
  .punctuator .openBrace :: fields.flatMap Field.tokens ++ [.punctuator .closeBrace]

theorem Field.nestedTokens_eq (fields : List Field) :
    Field.nestedTokens fields = if fields.isEmpty then [] else bracedTokens fields := by
  cases fields with
  | nil => rfl
  | cons first rest =>
    rw [Field.nestedTokens, Field.restTokens_eq]
    rfl

/-! ## §4 Operations -/

/-- The tokens of a default value. -/
def defaultTokens : Option Literal → List Token
  | none => []
  | some value => .punctuator .equals :: value.tokens

/-- The tokens of a variable definition. -/
def VariableDefinition.tokens (definition : VariableDefinition) : List Token :=
  .punctuator .dollar :: .name definition.name :: .punctuator .colon
    :: definition.type.tokens ++ defaultTokens definition.default

/-- The keyword of an operation. -/
def OperationKind.keyword : OperationKind → Bytes
  | .query => utf8 "query"
  | .mutation => utf8 "mutation"

/-- The token of an operation's name. -/
def operationNameTokens : Option Bytes → List Token
  | none => []
  | some name => [.name name]

/-- The tokens of an operation that begins with its keyword. -/
def Operation.tokens (operation : Operation) : List Token :=
  .name operation.kind.keyword :: operationNameTokens operation.name
    ++ parenthesisedTokens VariableDefinition.tokens operation.variableDefinitions
    ++ bracedTokens operation.selections

/-- The token sequences of an operation. -/
inductive Operation.Form (operation : Operation) : List Token → Prop where
  | full : Operation.Form operation operation.tokens
  /-- An anonymous query without variables may leave its keyword out. -/
  | short : operation.kind = .query → operation.name = none →
    operation.variableDefinitions = [] →
    Operation.Form operation (bracedTokens operation.selections)

/-- The token sequences of operations one after another. -/
inductive FormOfAll : List Operation → List Token → Prop where
  | nil : FormOfAll [] []
  | cons {operation : Operation} {rest : List Operation} {tokens more : List Token} :
    operation.Form tokens → FormOfAll rest more → FormOfAll (operation :: rest) (tokens ++ more)

/-- The token sequences of a document. -/
def Document.Form (document : Document) (tokens : List Token) : Prop :=
  FormOfAll document.operations tokens

/-- The text spells the document: it is a layout of one of its token sequences. -/
def Document.SpelledBy (document : Document) (text : Bytes) : Prop :=
  ∃ tokens, document.Form tokens ∧ LaidOut tokens text

end GraphQL
