/-
GraphQL.Proofs.Reading.RoundTrip — printed documents are read back.

  §1 Doubles    — documents without literals that have no printed word.
  §2 Words      — the tokens of such a document are printable.
  §3 Documents  — whatever ignored text stands between the words.

The nodes of a tree and its tokens are compared by induction on nesting, so a
condition on nodes becomes one on tokens.
-/
import GraphQL.Proofs.Grammar.Printed
import GraphQL.Proofs.Reading.CompleteDocument

namespace GraphQL

/-! ## §1 Doubles -/

/-- The literal is a double. -/
def Literal.isFloat : Literal → Bool
  | .float _ _ => true
  | _ => false

/-- No double stands in the literal. -/
def Literal.FloatFree (literal : Literal) : Prop := ∀ node ∈ literal.nodes, node.isFloat = false

/-- No double stands in the arguments of the field and of those nested in it. -/
def Field.FloatFree (field : Field) : Prop :=
  ∀ node ∈ field.nodes, ∀ argument ∈ node.arguments, argument.value.FloatFree

/-- No double stands in the operation. -/
structure Operation.FloatFree (operation : Operation) : Prop where
  defaults : ∀ definition ∈ operation.variableDefinitions, ∀ value ∈ definition.default,
    value.FloatFree
  selections : ∀ field ∈ operation.selections, field.FloatFree

/-- No double stands in the document. -/
def Document.FloatFree (document : Document) : Prop :=
  ∀ operation ∈ document.operations, operation.FloatFree

/-! ## §2 Words -/

/-- All tokens have printed words. -/
def AllPrintable (tokens : List Token) : Prop := ∀ t ∈ tokens, t.Printable

@[simp] theorem allPrintable_nil : AllPrintable [] := by simp [AllPrintable]

@[simp] theorem allPrintable_cons {t : Token} {ts : List Token} :
    AllPrintable (t :: ts) ↔ t.Printable ∧ AllPrintable ts := List.forall_mem_cons

@[simp] theorem allPrintable_append {ts us : List Token} :
    AllPrintable (ts ++ us) ↔ AllPrintable ts ∧ AllPrintable us := List.forall_mem_append

theorem allPrintable_flatMap {α : Type} {tokens : α → List Token} {items : List α}
    (h : ∀ a ∈ items, AllPrintable (tokens a)) : AllPrintable (items.flatMap tokens) := by
  intro t ht
  obtain ⟨a, ha, hmem⟩ := List.mem_flatMap.mp ht
  exact h a ha t hmem

theorem allPrintable_parenthesised {α : Type} {tokens : α → List Token} {items : List α}
    (h : ∀ a ∈ items, AllPrintable (tokens a)) :
    AllPrintable (parenthesisedTokens tokens items) := by
  cases items with
  | nil => exact allPrintable_nil
  | cons first more =>
    simp only [parenthesisedTokens, List.cons_append, allPrintable_cons, allPrintable_append]
    exact ⟨trivial, allPrintable_flatMap h, trivial, allPrintable_nil⟩

theorem TypeExpr.tokens_printable {type : TypeExpr Bytes} (h : isName type.leaf = true) :
    AllPrintable type.tokens := by
  induction type with
  | named word =>
    simp only [TypeExpr.tokens, allPrintable_cons]
    exact ⟨h, allPrintable_nil⟩
  | list element ih => simpa [TypeExpr.tokens, Token.Printable] using ih h
  | nonNull inner ih => simpa [TypeExpr.tokens, Token.Printable] using ih h

mutual

/-- The words of a literal that is well formed at every node. -/
theorem Literal.tokens_printable : ∀ l : Literal, l.WellFormed → l.FloatFree →
    AllPrintable l.tokens
  | .null _, _, _ => allPrintable_cons.mpr ⟨by rfl, allPrintable_nil⟩
  | .boolean _ true, _, _ => allPrintable_cons.mpr ⟨by rfl, allPrintable_nil⟩
  | .boolean _ false, _, _ => allPrintable_cons.mpr ⟨by rfl, allPrintable_nil⟩
  | .int _ _, _, _ => allPrintable_cons.mpr ⟨trivial, allPrintable_nil⟩
  | .float location x, _, hfree => by
    have := hfree (.float location x) (by simp [Literal.nodes])
    cases this
  | .string location text, hl, _ => by
    have htext := hl (.string location text) (by simp [Literal.nodes])
    exact allPrintable_cons.mpr ⟨htext, allPrintable_nil⟩
  | .enum location word, hl, _ => by
    have hword := hl (.enum location word) (by simp [Literal.nodes])
    exact allPrintable_cons.mpr ⟨hword.1, allPrintable_nil⟩
  | .reference location variableName, hl, _ => by
    have hname := hl (.reference location variableName) (by simp [Literal.nodes])
    exact allPrintable_cons.mpr ⟨trivial, allPrintable_cons.mpr ⟨hname, allPrintable_nil⟩⟩
  | .list _ items, hl, hfree => by
    have hitems := Literal.itemTokens_printable items (Literal.forall_nodes_list.mp hl).2
      (Literal.forall_nodes_list.mp hfree).2
    simp only [Literal.tokens, List.cons_append, allPrintable_cons, allPrintable_append]
    exact ⟨trivial, hitems, trivial, allPrintable_nil⟩
  | .object _ fields, hl, hfree => by
    obtain ⟨hproper, hvalues⟩ := Literal.forall_nodes_object.mp hl
    have hfields := Literal.fieldTokens_printable fields (List.forall_mem_map.mp hproper.lexical)
      hvalues (Literal.forall_nodes_object.mp hfree).2
    simp only [Literal.tokens, List.cons_append, allPrintable_cons, allPrintable_append]
    exact ⟨trivial, hfields, trivial, allPrintable_nil⟩

theorem Literal.itemTokens_printable : ∀ items : List Literal, (∀ i ∈ items, i.WellFormed) →
    (∀ i ∈ items, i.FloatFree) → AllPrintable (Literal.itemTokens items)
  | [], _, _ => allPrintable_nil
  | item :: rest, hitems, hfree => by
    obtain ⟨hitem, hrest⟩ := List.forall_mem_cons.mp hitems
    obtain ⟨hitemFree, hrestFree⟩ := List.forall_mem_cons.mp hfree
    exact allPrintable_append.mpr ⟨Literal.tokens_printable item hitem hitemFree,
      Literal.itemTokens_printable rest hrest hrestFree⟩

theorem Literal.fieldTokens_printable : ∀ fields : List (Entry Literal),
    (∀ f ∈ fields, isName f.name = true) → (∀ f ∈ fields, f.value.WellFormed) →
    (∀ f ∈ fields, f.value.FloatFree) → AllPrintable (Literal.fieldTokens fields)
  | [], _, _, _ => allPrintable_nil
  | ⟨name, value, location⟩ :: rest, hnames, hfields, hfree => by
    obtain ⟨hname, hnames⟩ := List.forall_mem_cons.mp hnames
    obtain ⟨hvalue, hrest⟩ := List.forall_mem_cons.mp hfields
    obtain ⟨hvalueFree, hrestFree⟩ := List.forall_mem_cons.mp hfree
    simp only [Literal.fieldTokens, List.cons_append, allPrintable_cons, allPrintable_append]
    exact ⟨hname, trivial, Literal.tokens_printable value hvalue hvalueFree,
      Literal.fieldTokens_printable rest hnames hrest hrestFree⟩

end

theorem argumentTokens_printable {arguments : List (Entry Literal)}
    (hnames : ∀ a ∈ arguments, isName a.name = true)
    (hvalues : ∀ a ∈ arguments, a.value.WellFormed ∧ a.value.FloatFree) :
    AllPrintable (argumentTokens arguments) := by
  refine allPrintable_parenthesised fun a ha => ?_
  simp only [Entry.tokens, allPrintable_cons]
  exact ⟨hnames a ha, trivial, a.value.tokens_printable (hvalues a ha).1 (hvalues a ha).2⟩

mutual

/-- The words of a field that is well formed at every node. -/
theorem Field.tokens_printable : ∀ f : Field, f.WellFormed → f.FloatFree → AllPrintable f.tokens
  | ⟨aliasName, name, arguments, selections, location⟩, hf, hfree => by
    obtain ⟨hproper, hnested⟩ := Field.forall_nodes.mp hf
    obtain ⟨hargumentsFree, hnestedFree⟩ := Field.forall_nodes.mp hfree
    have haliasName : AllPrintable (aliasTokens aliasName) := by
      cases aliasName with
      | none => exact allPrintable_nil
      | some word =>
        exact allPrintable_cons.mpr ⟨hproper.aliasName word rfl,
          allPrintable_cons.mpr ⟨trivial, allPrintable_nil⟩⟩
    have harguments := argumentTokens_printable
      (List.forall_mem_map.mp hproper.argumentNames.lexical)
      fun a ha => ⟨hproper.arguments a ha, hargumentsFree a ha⟩
    simp only [Field.tokens, List.append_assoc, List.cons_append, allPrintable_cons,
      allPrintable_append]
    exact ⟨haliasName, hproper.name, harguments,
      Field.nestedTokens_printable selections hnested hnestedFree⟩

theorem Field.nestedTokens_printable : ∀ fields : List Field, (∀ f ∈ fields, f.WellFormed) →
    (∀ f ∈ fields, f.FloatFree) → AllPrintable (Field.nestedTokens fields)
  | [], _, _ => allPrintable_nil
  | first :: rest, hfields, hfree => by
    obtain ⟨hfirst, hrest⟩ := List.forall_mem_cons.mp hfields
    obtain ⟨hfirstFree, hrestFree⟩ := List.forall_mem_cons.mp hfree
    simp only [Field.nestedTokens, List.cons_append, allPrintable_cons, allPrintable_append]
    exact ⟨trivial, ⟨Field.tokens_printable first hfirst hfirstFree,
      Field.restTokens_printable rest hrest hrestFree⟩, trivial, allPrintable_nil⟩

theorem Field.restTokens_printable : ∀ fields : List Field, (∀ f ∈ fields, f.WellFormed) →
    (∀ f ∈ fields, f.FloatFree) → AllPrintable (Field.restTokens fields)
  | [], _, _ => allPrintable_nil
  | field :: rest, hfields, hfree => by
    obtain ⟨hfield, hrest⟩ := List.forall_mem_cons.mp hfields
    obtain ⟨hfieldFree, hrestFree⟩ := List.forall_mem_cons.mp hfree
    exact allPrintable_append.mpr ⟨Field.tokens_printable field hfield hfieldFree,
      Field.restTokens_printable rest hrest hrestFree⟩

end

theorem bracedTokens_printable {fields : List Field} (hfields : ∀ f ∈ fields, f.WellFormed)
    (hfree : ∀ f ∈ fields, f.FloatFree) : AllPrintable (bracedTokens fields) := by
  simp only [bracedTokens, List.cons_append, allPrintable_cons, allPrintable_append]
  exact ⟨trivial, allPrintable_flatMap fun f hf => f.tokens_printable (hfields f hf) (hfree f hf),
    trivial, allPrintable_nil⟩

theorem VariableDefinition.tokens_printable {d : VariableDefinition} (hname : isName d.name = true)
    (hd : d.WellFormed) (hfree : ∀ value ∈ d.default, value.FloatFree) :
    AllPrintable d.tokens := by
  have hdefault : AllPrintable (defaultTokens d.default) := by
    cases hvalue : d.default with
    | none => exact allPrintable_nil
    | some value =>
      exact allPrintable_cons.mpr
        ⟨trivial, value.tokens_printable (hd.default value hvalue) (hfree value hvalue)⟩
  simp only [VariableDefinition.tokens, List.cons_append, allPrintable_cons, allPrintable_append]
  exact ⟨trivial, hname, trivial, TypeExpr.tokens_printable hd.typeName, hdefault⟩

theorem Operation.Form.printable {o : Operation} {tokens : List Token} (hform : o.Form tokens)
    (ho : o.WellFormed) (hfree : o.FloatFree) : AllPrintable tokens := by
  have hselections := bracedTokens_printable ho.fields hfree.selections
  cases hform with
  | short => exact hselections
  | full =>
    have hkeyword : isName o.kind.keyword = true := by cases o.kind <;> rfl
    have hname : AllPrintable (operationNameTokens o.name) := by
      cases hword : o.name with
      | none => exact allPrintable_nil
      | some word => exact allPrintable_cons.mpr ⟨ho.name word hword, allPrintable_nil⟩
    have hnames : ∀ d ∈ o.variableDefinitions, isName d.name = true :=
      List.forall_mem_map.mp ho.variableNames.lexical
    have hdefinitions := allPrintable_parenthesised fun d hd =>
      VariableDefinition.tokens_printable (hnames d hd) (ho.definitions d hd) (hfree.defaults d hd)
    simp only [Operation.tokens, List.cons_append, List.append_assoc, allPrintable_cons,
      allPrintable_append]
    exact ⟨hkeyword, hname, hdefinitions, hselections⟩

theorem Document.Form.printable {document : Document} {tokens : List Token}
    (hform : document.Form tokens) (hd : document.WellFormed) (hfree : document.FloatFree) :
    AllPrintable tokens := by
  obtain ⟨operations⟩ := document
  have hoperations : ∀ o ∈ operations, o.WellFormed ∧ o.FloatFree :=
    fun o ho => ⟨hd.operations o ho, hfree o ho⟩
  clear hd hfree
  change FormOfAll operations tokens at hform
  induction hform with
  | nil => exact allPrintable_nil
  | cons hfirst _ ih =>
    obtain ⟨ho, hrest⟩ := List.forall_mem_cons.mp hoperations
    exact allPrintable_append.mpr ⟨hfirst.printable ho.1 ho.2, ih hrest⟩

/-! ## §3 Documents -/

/-- A well-formed document without doubles is read from its printed form, whatever
ignored text stands before, between and after the words. -/
theorem Document.ofText_printed {document : Document} (h : document.WellFormed)
    (hfree : document.FloatFree) {tokens : List Token} (hform : document.Form tokens)
    {gap : Nat → Bytes} (hgap : Separates gap tokens) :
    ∃ found, Document.ofText (printed gap tokens) = .ok found ∧
      found.unplaced = document.unplaced :=
  Document.ofText_of_spelledBy h ⟨tokens, hform, laidOut_printed hgap (hform.printable h hfree)⟩

theorem Document.ofText_printed_list : ∃ found,
    Document.ofText (printed (fun _ => [ascii ' ', ascii '#', ascii '"', ascii '\n'])
      [.punctuator .openBrace, .name (utf8 "a"), .punctuator .openParen, .name (utf8 "x"),
        .punctuator .colon, .punctuator .openBracket, .string (utf8 "\"é\n"), .int (-1),
        .punctuator .closeBracket, .punctuator .closeParen, .punctuator .closeBrace]) = .ok found ∧
      found.unplaced = Document.unplaced ⟨[⟨.query, none, [], [⟨none, utf8 "a", [⟨utf8 "x",
        .list .start [.string .start (utf8 "\"é\n"), .int .start (-1)], .start⟩], [], .start⟩],
        .start⟩]⟩ := by
  have hlist : (Literal.list .start
      [.string .start (utf8 "\"é\n"), .int .start (-1)]).WellFormed := by
    refine Literal.forall_nodes_list.mpr ⟨trivial, ?_⟩
    simp only [List.forall_mem_cons, Literal.nodes, List.not_mem_nil, false_implies, implies_true,
      and_true]
    exact ⟨⟨_, rfl⟩, by decide, by decide⟩
  have hfield : Field.WellFormed ⟨none, utf8 "a", [⟨utf8 "x",
      .list .start [.string .start (utf8 "\"é\n"), .int .start (-1)], .start⟩], [], .start⟩ :=
    Field.forall_nodes.mpr
      ⟨⟨by simp, rfl, ⟨by simp; rfl, by simp⟩, by simpa using hlist⟩, by simp⟩
  refine Document.ofText_printed ?_ ?_ ?_ ⟨fun _ _ => ?_, fun _ _ _ _ _ _ => ?_⟩
  · refine ⟨by simp, by simp, by simp, ?_⟩
    rw [List.forall_mem_singleton]
    refine ⟨by simp, ⟨by simp, by simp⟩, by simp, by simp, by simpa using hfield, ?_⟩
    rw [List.forall_mem_singleton]
    decide
  · refine List.forall_mem_singleton.mpr ⟨by simp, ?_⟩
    simp [Field.FloatFree, Field.nodes, Field.nestedNodes, Literal.FloatFree, Literal.nodes,
      Literal.itemNodes, Literal.isFloat]
  · exact .cons (.short rfl rfl rfl) .nil
  · exact .blank rfl (.comment (List.forall_mem_singleton.mpr rfl) rfl .nil)
  · exact List.cons_ne_nil _ _
end GraphQL
