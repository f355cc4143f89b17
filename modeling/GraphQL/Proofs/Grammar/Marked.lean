/-
GraphQL.Proofs.Grammar.Marked — the token sequences of documents, with the
positions that their nodes give.

  §1 Pieces      — a token, marked if a node begins with it.
  §2 Literals    — values, lists and objects.
  §3 Selections  — fields with arguments and nested fields.
  §4 Operations  — variables, the two forms of an operation, and documents.
  §5 Layouts     — marks that are the positions of the words.
  §6 Offsets     — the same, with the offset of each word told.

A node begins with the first of its tokens, and no two nodes begin with the same
one. So the pieces of a document have its nodes in document order, each before the
nodes inside it, and what is said of the offsets of pieces is said of nodes.
-/
import GraphQL.Proofs.Document.Position
import GraphQL.Proofs.Grammar.Sequence
import Mathlib.Data.List.Forall2

namespace GraphQL

/-! ## §1 Pieces -/

/-- A token, and the position of the node that begins with it, if one does. -/
structure Piece where
  token : Token
  mark : Option Location

/-- A token that no node begins with. -/
def Token.plain (t : Token) : Piece := ⟨t, none⟩

/-- The pieces of a node at a position: it begins with the first of them. -/
def beginning (location : Location) : List Piece → List Piece
  | [] => []
  | first :: rest => ⟨first.token, some location⟩ :: rest

@[simp] theorem map_token_beginning (location : Location) (pieces : List Piece) :
    (beginning location pieces).map Piece.token = pieces.map Piece.token := by
  cases pieces <;> rfl

@[simp] theorem map_token_plain (tokens : List Token) :
    (tokens.map Token.plain).map Piece.token = tokens := by
  simp [Function.comp_def, Token.plain]

/-! ## §2 Literals -/

/-- The pieces of a name, a colon and a value. -/
def Entry.pieces {α : Type} (value : α → List Piece) (entry : Entry α) : List Piece :=
  beginning entry.location
    (Token.plain (.name entry.name) :: Token.plain (.punctuator .colon) :: value entry.value)

theorem map_token_entry {α : Type} {value : α → List Piece} {tokens : α → List Token}
    (h : ∀ a, (value a).map Piece.token = tokens a) (entry : Entry α) :
    (entry.pieces value).map Piece.token = entry.tokens tokens := by
  simp [Entry.pieces, Entry.tokens, h, Token.plain]

namespace Literal

mutual

/-- The pieces of a literal. -/
def pieces : Literal → List Piece
  | .list location items =>
    beginning location (Token.plain (.punctuator .openBracket) :: itemPieces items ++
      [Token.plain (.punctuator .closeBracket)])
  | .object location fields =>
    beginning location (Token.plain (.punctuator .openBrace) :: fieldPieces fields ++
      [Token.plain (.punctuator .closeBrace)])
  | literal => beginning literal.location (literal.tokens.map Token.plain)

/-- The pieces of the items of a list. -/
def itemPieces : List Literal → List Piece
  | [] => []
  | item :: rest => pieces item ++ itemPieces rest

/-- The pieces of the fields of an object. -/
def fieldPieces : List (Entry Literal) → List Piece
  | [] => []
  | ⟨name, value, location⟩ :: rest =>
    beginning location (Token.plain (.name name) :: Token.plain (.punctuator .colon) ::
      pieces value) ++ fieldPieces rest

end

mutual

theorem map_token_pieces : ∀ l : Literal, l.pieces.map Piece.token = l.tokens
  | .list _ items => by simp [pieces, tokens, map_token_itemPieces items, Token.plain]
  | .object _ fields => by simp [pieces, tokens, map_token_fieldPieces fields, Token.plain]
  | .null _ | .int _ _ | .float _ _ | .string _ _ | .boolean _ _ | .enum _ _ | .reference _ _ => by
    simp only [pieces, map_token_beginning, map_token_plain]

theorem map_token_itemPieces : ∀ items : List Literal,
    (itemPieces items).map Piece.token = itemTokens items
  | [] => rfl
  | item :: rest => by
    simp [itemPieces, itemTokens, map_token_pieces item, map_token_itemPieces rest]

theorem map_token_fieldPieces : ∀ fields : List (Entry Literal),
    (fieldPieces fields).map Piece.token = fieldTokens fields
  | [] => rfl
  | ⟨name, value, _⟩ :: rest => by
    simp [fieldPieces, fieldTokens, map_token_pieces value, map_token_fieldPieces rest, Token.plain]

end

theorem itemPieces_eq (items : List Literal) : itemPieces items = items.flatMap pieces := by
  induction items with
  | nil => rfl
  | cons item rest ih => rw [itemPieces, ih, List.flatMap_cons]

theorem fieldPieces_eq (fields : List (Entry Literal)) :
    fieldPieces fields = fields.flatMap (Entry.pieces pieces) := by
  induction fields with
  | nil => rfl
  | cons field rest ih => rw [fieldPieces, ih, List.flatMap_cons]; rfl

end Literal

/-! ## §3 Selections -/

/-- The pieces of items in parentheses, which are left out where there is no item. -/
def parenthesisedPieces {α : Type} (item : α → List Piece) : List α → List Piece
  | [] => []
  | first :: rest => Token.plain (.punctuator .openParen) :: (first :: rest).flatMap item ++
      [Token.plain (.punctuator .closeParen)]

theorem map_token_parenthesised {α : Type} {item : α → List Piece} {tokens : α → List Token}
    (h : ∀ a, (item a).map Piece.token = tokens a) (items : List α) :
    (parenthesisedPieces item items).map Piece.token = parenthesisedTokens tokens items := by
  cases items with
  | nil => rfl
  | cons first rest =>
    simp [parenthesisedPieces, parenthesisedTokens, List.map_flatMap, h, Token.plain]

/-- The pieces of the arguments of a field. -/
def argumentPieces (arguments : List (Entry Literal)) : List Piece :=
  parenthesisedPieces (Entry.pieces Literal.pieces) arguments

namespace Field

mutual

/-- The pieces of a field. -/
def pieces : Field → List Piece
  | ⟨aliasName, name, arguments, selections, location⟩ =>
    beginning location ((aliasTokens aliasName ++ [Token.name name]).map Token.plain ++
      argumentPieces arguments ++ nestedPieces selections)

/-- The pieces of the selections nested in a field, none if it has none. -/
def nestedPieces : List Field → List Piece
  | [] => []
  | first :: rest => Token.plain (.punctuator .openBrace) :: (pieces first ++ restPieces rest) ++
      [Token.plain (.punctuator .closeBrace)]

/-- The pieces of fields in a row. -/
def restPieces : List Field → List Piece
  | [] => []
  | field :: rest => pieces field ++ restPieces rest

end

theorem map_token_arguments (arguments : List (Entry Literal)) :
    (argumentPieces arguments).map Piece.token = argumentTokens arguments :=
  map_token_parenthesised (map_token_entry Literal.map_token_pieces) arguments

mutual

theorem map_token_pieces : ∀ f : Field, f.pieces.map Piece.token = f.tokens
  | ⟨aliasName, name, arguments, selections, _⟩ => by
    simp [pieces, tokens, map_token_arguments, map_token_nestedPieces selections, Token.plain,
      Function.comp_def]

theorem map_token_nestedPieces : ∀ fields : List Field,
    (nestedPieces fields).map Piece.token = nestedTokens fields
  | [] => rfl
  | first :: rest => by
    simp [nestedPieces, nestedTokens, map_token_pieces first, map_token_restPieces rest,
      Token.plain]

theorem map_token_restPieces : ∀ fields : List Field,
    (restPieces fields).map Piece.token = restTokens fields
  | [] => rfl
  | field :: rest => by
    simp [restPieces, restTokens, map_token_pieces field, map_token_restPieces rest]

end

theorem restPieces_eq (fields : List Field) : restPieces fields = fields.flatMap pieces := by
  induction fields with
  | nil => rfl
  | cons field rest ih => rw [restPieces, ih, List.flatMap_cons]

end Field

/-- The pieces of fields in braces. -/
def bracedPieces (fields : List Field) : List Piece :=
  Token.plain (.punctuator .openBrace) :: fields.flatMap Field.pieces ++
    [Token.plain (.punctuator .closeBrace)]

theorem Field.nestedPieces_eq (fields : List Field) :
    Field.nestedPieces fields = if fields.isEmpty then [] else bracedPieces fields := by
  cases fields with
  | nil => rfl
  | cons first rest =>
    rw [Field.nestedPieces, Field.restPieces_eq]
    rfl

/-! ## §4 Operations -/

/-- The pieces of a default value. -/
def defaultPieces : Option Literal → List Piece
  | none => []
  | some value => Token.plain (.punctuator .equals) :: value.pieces

/-- The pieces of a variable definition. -/
def VariableDefinition.pieces (definition : VariableDefinition) : List Piece :=
  beginning definition.location ((.punctuator .dollar :: .name definition.name ::
    .punctuator .colon :: definition.type.tokens).map Token.plain ++
      defaultPieces definition.default)

/-- The pieces of an operation that begins with its keyword. -/
def Operation.pieces (operation : Operation) : List Piece :=
  beginning operation.location
    ((.name operation.kind.keyword :: operationNameTokens operation.name).map Token.plain ++
      parenthesisedPieces VariableDefinition.pieces operation.variableDefinitions ++
      bracedPieces operation.selections)

/-- The token sequences of an operation, marked. -/
inductive Operation.MarkedForm (operation : Operation) : List Piece → Prop where
  | full : Operation.MarkedForm operation operation.pieces
  /-- An anonymous query without variables may leave its keyword out. -/
  | short : operation.kind = .query → operation.name = none →
    operation.variableDefinitions = [] →
      Operation.MarkedForm operation
        (beginning operation.location (bracedPieces operation.selections))

/-- The token sequences of a document, marked. -/
def Document.MarkedForm (document : Document) (pieces : List Piece) : Prop :=
  ∃ parts, List.Forall₂ Operation.MarkedForm document.operations parts ∧ pieces = parts.flatten

theorem map_token_braced (fields : List Field) :
    (bracedPieces fields).map Piece.token = bracedTokens fields := by
  simp [bracedPieces, bracedTokens, List.map_flatMap, Field.map_token_pieces, Token.plain]

theorem VariableDefinition.map_token_pieces (definition : VariableDefinition) :
    definition.pieces.map Piece.token = definition.tokens := by
  obtain ⟨name, type, default, location⟩ := definition
  cases default with
  | none => simp [pieces, tokens, defaultPieces, defaultTokens, Token.plain, Function.comp_def]
  | some value =>
    simp [pieces, tokens, defaultPieces, defaultTokens, Token.plain, Function.comp_def,
      Literal.map_token_pieces]

theorem Operation.form_of_markedForm {operation : Operation} {pieces : List Piece}
    (h : operation.MarkedForm pieces) : operation.Form (pieces.map Piece.token) := by
  cases h with
  | full =>
    have htokens : operation.pieces.map Piece.token = operation.tokens := by
      simp [Operation.pieces, Operation.tokens, map_token_braced, Token.plain, Function.comp_def,
        map_token_parenthesised VariableDefinition.map_token_pieces]
    exact htokens ▸ .full
  | short hkind hname hdefinitions =>
    rw [map_token_beginning, map_token_braced]
    exact .short hkind hname hdefinitions

theorem formOfAll_of_markedForms {operations : List Operation} {parts : List (List Piece)}
    (h : List.Forall₂ Operation.MarkedForm operations parts) :
    FormOfAll operations (parts.flatten.map Piece.token) := by
  induction h with
  | nil => exact .nil
  | cons hfirst _ ih =>
    rw [List.flatten_cons, List.map_append]
    exact .cons (Operation.form_of_markedForm hfirst) ih

/-- Without its marks, a marked form of a document is a form of it. -/
theorem Document.form_of_markedForm {document : Document} {pieces : List Piece}
    (h : document.MarkedForm pieces) : document.Form (pieces.map Piece.token) := by
  obtain ⟨parts, hparts, rfl⟩ := h
  exact formOfAll_of_markedForms hparts

/-! ## §5 Layouts -/

/-- `Laid` for pieces: the position that a mark gives is that of the word. -/
def LaidMarked (source : Bytes) : List Piece → Bytes → Bytes → Prop
  | [], text, rest => text = rest
  | p :: ps, text, rest => ∃ gap word middle, text = gap ++ (word ++ middle) ∧ Ignored gap ∧
      p.token.Spells word ∧ p.token.StopsAt middle ∧
      (∀ location ∈ p.mark, location = .before source (word ++ middle)) ∧
      LaidMarked source ps middle rest

/-- `Read` for pieces. -/
def ReadMarked (source : Bytes) (ps : List Piece) (text rest : Bytes) : Prop :=
  ∃ middle, LaidMarked source ps text middle ∧ Gap middle rest

section Layouts

variable {source text middle rest : Bytes} {ps qs : List Piece}

theorem LaidMarked.append (h₁ : LaidMarked source ps text middle)
    (h₂ : LaidMarked source qs middle rest) : LaidMarked source (ps ++ qs) text rest := by
  induction ps generalizing text with
  | nil =>
    obtain rfl : text = middle := h₁
    exact h₂
  | cons p ps ih =>
    obtain ⟨gap, word, after, htext, hgap, hword, hstop, hmark, hps⟩ := h₁
    exact ⟨gap, word, after, htext, hgap, hword, hstop, hmark, ih hps⟩

theorem LaidMarked.prepend {p : Piece} (hgap : Gap text middle)
    (h : LaidMarked source (p :: ps) middle rest) : LaidMarked source (p :: ps) text rest := by
  obtain ⟨gap, word, after, rfl, hg, hword, hstop, hmark, hps⟩ := h
  have hne : gap ++ (word ++ after) ≠ [] := by simp [hword.ne_nil]
  obtain ⟨earlier, rfl, hearlier⟩ := hgap.exists_ignored hne
  exact ⟨earlier ++ gap, word, after, by simp, hearlier.append hg, hword, hstop, hmark, hps⟩

theorem ReadMarked.append (h₁ : ReadMarked source ps text middle)
    (h₂ : ReadMarked source qs middle rest) : ReadMarked source (ps ++ qs) text rest := by
  obtain ⟨mid₁, hps, hgap₁⟩ := h₁
  obtain ⟨mid₂, hqs, hgap₂⟩ := h₂
  cases qs with
  | nil =>
    obtain rfl : middle = mid₂ := hqs
    rw [List.append_nil]
    exact ⟨mid₁, hps, hgap₁.trans hgap₂⟩
  | cons q qs => exact ⟨mid₂, hps.append (hqs.prepend hgap₁), hgap₂⟩

theorem Read.plain {ts : List Token} (h : Read ts text rest) :
    ReadMarked source (ts.map Token.plain) text rest := by
  obtain ⟨middle, hlaid, hgap⟩ := h
  refine ⟨middle, ?_, hgap⟩
  clear hgap
  induction ts generalizing text with
  | nil => exact hlaid
  | cons t ts ih =>
    obtain ⟨gap, word, after, htext, hg, hword, hstop, hts⟩ := hlaid
    exact ⟨gap, word, after, htext, hg, hword, hstop, nofun, ih hts⟩

end Layouts

/-! ## §6 Offsets -/

/-- What there is of `text` from `start` on is the pieces, each one's word at its
offset, with ignored text before, between and after the words. -/
inductive StandsAt (text : Bytes) : (start : Nat) → List (Piece × Nat) → Prop where
  | done {start : Nat} : Trailing (text.drop start) → StandsAt text start []
  | next {start : Nat} {gap word rest : Bytes} {piece : Piece} {more : List (Piece × Nat)} :
    text.drop start = gap ++ (word ++ rest) → Ignored gap → piece.token.Spells word →
    piece.token.StopsAt rest → StandsAt text (start + gap.length + word.length) more →
      StandsAt text start ((piece, start + gap.length) :: more)

/-- Each piece stands after the ones before it. -/
theorem StandsAt.increasing {text : Bytes} {start : Nat} {placed : List (Piece × Nat)}
    (h : StandsAt text start placed) :
    (∀ p ∈ placed, start ≤ p.2) ∧ (placed.map Prod.snd).Pairwise (· < ·) := by
  induction h with
  | done _ => simp
  | @next start gap word rest piece more _ _ hword _ _ ih =>
    obtain ⟨hlater, hpairwise⟩ := ih
    have hpositive : 0 < word.length := List.length_pos_iff.mpr hword.ne_nil
    refine ⟨List.forall_mem_cons.mpr ⟨Nat.le_add_right _ _, fun p hp => ?_⟩, ?_⟩
    · have := hlater p hp
      omega
    · rw [List.map_cons, List.pairwise_cons]
      refine ⟨fun offset hoffset => ?_, hpairwise⟩
      obtain ⟨p, hp, rfl⟩ := List.mem_map.mp hoffset
      have := hlater p hp
      omega

/-- A marked layout of the last part of a text, with the offsets of the words. -/
theorem LaidMarked.standsAt {source earlier : Bytes} {ps : List Piece} {text rest : Bytes}
    (h : LaidMarked source ps text rest) (hsource : source = earlier ++ text)
    (hrest : Trailing rest) :
    ∃ placed : List (Piece × Nat), placed.map Prod.fst = ps ∧
      StandsAt source earlier.length placed ∧
        ∀ p ∈ placed, ∀ location ∈ p.1.mark, location = .of source p.2 := by
  induction ps generalizing earlier text with
  | nil =>
    obtain rfl : text = rest := h
    refine ⟨[], rfl, .done ?_, by simp⟩
    rwa [hsource, List.drop_left]
  | cons p ps ih =>
    obtain ⟨gap, word, middle, rfl, hgap, hword, hstop, hmark, hps⟩ := h
    have hmiddle : source = (earlier ++ gap ++ word) ++ middle := by simp [hsource]
    obtain ⟨placed, rfl, hplaced, hmarks⟩ := ih hps hmiddle
    have hoffset : source.length - (word ++ middle).length = earlier.length + gap.length := by
      simp only [hsource, List.length_append]
      omega
    have hdrop : source.drop earlier.length = gap ++ (word ++ middle) := by
      rw [hsource, List.drop_left]
    simp only [List.length_append] at hplaced
    refine ⟨(p, earlier.length + gap.length) :: placed, rfl,
      .next hdrop hgap hword hstop hplaced, List.forall_mem_cons.mpr ⟨?_, hmarks⟩⟩
    rw [Location.before, hoffset] at hmark
    exact hmark

end GraphQL
