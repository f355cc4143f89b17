/-
GraphQL.Proofs.Reading.SoundDocument — documents that are read were written, and
are well formed.

  §1 Types       — by induction on the nesting budget.
  §2 Fields      — aliases, arguments, and the selections of one level.
  §3 Selections  — by induction on the nesting budget again.
  §4 Operations  — variables, and the two ways to begin.
  §5 Documents   — operations up to the end of the text.

The lemmas continue those about literals: `selections` and `literal` run on one
budget, so every path counts the levels of both.
-/
import GraphQL.Proofs.Document.Equality
import GraphQL.Proofs.Reading.SoundLiteral
import Mathlib.Data.Nat.SuccPred

namespace GraphQL.Reading

variable {α : Type}

/-! ## §1 Types -/

/-- What is asked of a written type of at most `budget` levels. -/
structure FitsType (budget : Nat) (type : TypeExpr Bytes) : Prop where
  leaf : isName type.leaf = true
  marks : type.MarkedOnce
  levels : type.levels ≤ budget

theorem gives_nonNullMark {budget : Nat} {type : TypeExpr Bytes} (hfits : FitsType budget type)
    (hplain : type.isNonNull = false) {c c' : Cursor} {marked : TypeExpr Bytes}
    (h : (nonNullMark type).run c = .ok (marked, c')) :
    ∃ marks, marked.tokens = type.tokens ++ marks ∧ Read marks c.rest c'.rest ∧
      FitsType budget marked := by
  obtain ⟨found, _, haccept, h⟩ := bind_ok.mp h
  have hread := read_of_accept .bang haccept
  split at h
  · rename_i hfound
    obtain ⟨rfl, rfl⟩ := pure_ok.mp h
    rw [if_pos hfound] at hread
    exact ⟨_, rfl, hread, hfits.leaf, ⟨hplain, hfits.marks⟩, hfits.levels⟩
  · rename_i hfound
    obtain ⟨rfl, rfl⟩ := pure_ok.mp h
    rw [if_neg hfound] at hread
    exact ⟨[], (List.append_nil _).symm, hread, hfits⟩

theorem gives_typeWith {element : Reading (TypeExpr Bytes)} {budget : Nat}
    (helement : Gives element TypeExpr.tokens (FitsType budget)) :
    Gives (typeWith element) TypeExpr.tokens (FitsType (budget + 1)) := by
  intro c type c' h
  obtain ⟨found, _, haccept, h⟩ := bind_ok.mp h
  have hopen := read_of_accept .openBracket haccept
  split at h
  · rename_i hfound
    obtain ⟨inner, _, hinner, h⟩ := bind_ok.mp h
    obtain ⟨_, _, hclose, h⟩ := bind_ok.mp h
    obtain ⟨hread, hfits⟩ := helement hinner
    have hlist : FitsType (budget + 1) (.list inner) :=
      ⟨hfits.leaf, hfits.marks, Nat.succ_le_succ hfits.levels⟩
    obtain ⟨marks, htokens, hmarks, hmarked⟩ := gives_nonNullMark hlist rfl h
    rw [if_pos hfound] at hopen
    refine ⟨?_, hmarked⟩
    rw [htokens]
    exact ((hopen.append hread).append (read_of_expect .closeBracket hclose)).append hmarks
  · rename_i hfound
    obtain ⟨word, _, hname, h⟩ := bind_ok.mp h
    obtain ⟨hread, hlexical⟩ := read_of_name hname
    have hnamed : FitsType (budget + 1) (.named word) :=
      ⟨hlexical, trivial, Nat.succ_le_succ (Nat.zero_le _)⟩
    obtain ⟨marks, htokens, hmarks, hmarked⟩ := gives_nonNullMark hnamed rfl h
    rw [if_neg hfound] at hopen
    refine ⟨?_, hmarked⟩
    rw [htokens]
    exact (hopen.append hread).append hmarks

theorem gives_writtenType (budget : Nat) :
    Gives (writtenType budget) TypeExpr.tokens (FitsType budget) := by
  induction budget with
  | zero => exact fun _ _ _ h => (fail_ok.mp h).elim
  | succ budget ih => exact gives_typeWith ih

/-! ## §2 Fields -/

theorem read_of_noDirective {c c' : Cursor} {u : Unit} (h : noDirective.run c = .ok (u, c')) :
    c = c' := by
  obtain ⟨found, _, hpeek, h⟩ := bind_ok.mp h
  obtain ⟨rfl, rfl⟩ := peek_ok.mp hpeek
  split at h
  · exact (fail_ok.mp h).elim
  · exact (pure_ok.mp h).2

theorem read_of_aliasAndName {c c' : Cursor} {aliasName : Option Bytes} {word : Bytes}
    (h : aliasAndName.run c = .ok ((aliasName, word), c')) :
    Read (aliasTokens aliasName ++ [.name word]) c.rest c'.rest ∧
      (∀ name ∈ aliasName, isName name = true) ∧ isName word = true := by
  obtain ⟨first, _, hfirst, h⟩ := bind_ok.mp h
  obtain ⟨_, settled, hskip, h⟩ := bind_ok.mp h
  obtain ⟨found, _, hpeek, h⟩ := bind_ok.mp h
  obtain ⟨rfl, rfl⟩ := peek_ok.mp hpeek
  obtain ⟨hread, hlexical⟩ := read_of_name hfirst
  have hfirst := hread.append (gap_of_skipBlanks hskip).1.read
  split at h
  · rename_i hcolon
    obtain ⟨_, _, hadvance, h⟩ := bind_ok.mp h
    obtain rfl := advance_ok.mp hadvance
    obtain ⟨second, _, hsecond, h⟩ := bind_ok.mp h
    obtain ⟨_, _, hskip', h⟩ := bind_ok.mp h
    obtain ⟨heq, rfl⟩ := pure_ok.mp h
    obtain ⟨rfl, rfl⟩ := Prod.mk.inj heq
    obtain ⟨hread', hlexical'⟩ := read_of_name hsecond
    have hsecond := hread'.append (gap_of_skipBlanks hskip').1.read
    exact ⟨(hfirst.append (read_of_head? .colon hcolon)).append hsecond,
      by simpa using hlexical, hlexical'⟩
  · obtain ⟨heq, rfl⟩ := pure_ok.mp h
    obtain ⟨rfl, rfl⟩ := Prod.mk.inj heq
    exact ⟨hfirst, by simp, hlexical⟩

theorem gives_fieldArguments {value : Reading Literal} {budget : Nat}
    (hvalue : Gives value Literal.tokens (Fits .allowed budget)) :
    Gives (fieldArguments value) argumentTokens fun arguments =>
      ProperNames (arguments.map (·.name)) ∧ ∀ a ∈ arguments, Fits .allowed budget a.value := by
  intro c arguments c' h
  obtain ⟨found, _, hpeek, h⟩ := bind_ok.mp h
  obtain ⟨rfl, rfl⟩ := peek_ok.mp hpeek
  split at h
  · obtain ⟨arguments', _, harguments, h⟩ := bind_ok.mp h
    obtain ⟨_, _, hskip, h⟩ := bind_ok.mp h
    obtain ⟨rfl, rfl⟩ := pure_ok.mp h
    obtain ⟨hread, hfollows⟩ :=
      gives_parenthesised (gives_entry .duplicateArgument hvalue) (by simp [Entry.tokens])
        harguments
    refine ⟨?_, follows_named.mp hfollows⟩
    simpa [argumentTokens] using hread.append (gap_of_skipBlanks hskip).1.read
  · obtain ⟨rfl, rfl⟩ := pure_ok.mp h
    exact ⟨(Gap.refl _).read, ⟨by simp, by simp⟩, by simp⟩

/-- What is asked of a field below which at most `budget` levels nest. -/
structure FitsField (budget : Nat) (field : Field) : Prop where
  wellFormed : field.WellFormed
  depth : field.depth ≤ budget

theorem Field.tokens_ne_nil (field : Field) : field.tokens ≠ [] := by
  obtain ⟨aliasName, name, arguments, selections, location⟩ := field
  simp [Field.tokens]

/-- The nested selections of a field are given with one level less. -/
def GivesNested (selections : Reading (List Field)) (budget : Nat) : Prop :=
  Gives selections bracedTokens fun fields =>
    fields ≠ [] ∧ ∀ nested ∈ fields, nested.WellFormed ∧ nested.depth + 1 ≤ budget

theorem gives_field {value : Reading Literal} {selections : Reading (List Field)} {budget : Nat}
    (hvalue : Gives value Literal.tokens (Fits .allowed budget))
    (hselections : GivesNested selections budget) :
    Gives (field value selections) Field.tokens (FitsField budget) := by
  intro c f c' h
  obtain ⟨location, _, hposition, h⟩ := bind_ok.mp h
  obtain ⟨rfl, rfl⟩ := position_ok.mp hposition
  obtain ⟨⟨aliasName, word⟩, _, hnames, h⟩ := bind_ok.mp h
  obtain ⟨arguments, _, harguments, h⟩ := bind_ok.mp h
  obtain ⟨_, _, hdirective, h⟩ := bind_ok.mp h
  obtain rfl := read_of_noDirective hdirective
  obtain ⟨found, _, hpeek, h⟩ := bind_ok.mp h
  obtain ⟨rfl, rfl⟩ := peek_ok.mp hpeek
  obtain ⟨hreadNames, haliasName, hname⟩ := read_of_aliasAndName hnames
  obtain ⟨hreadArguments, hargumentNames, hvalues⟩ := gives_fieldArguments hvalue harguments
  have hread := hreadNames.append hreadArguments
  -- With or without nested selections, the field itself is the same.
  have fits {nested : List Field}
      (hnested : ∀ f ∈ nested, f.WellFormed ∧ f.depth + 1 ≤ budget) :
      FitsField budget ⟨aliasName, word, arguments, nested, c.location⟩ := by
    have hproper : Field.Proper ⟨aliasName, word, arguments, nested, c.location⟩ :=
      ⟨haliasName, hname, hargumentNames, fun a ha => (hvalues a ha).wellFormed⟩
    exact ⟨Field.forall_nodes.mpr ⟨hproper, fun f hf => (hnested f hf).1⟩,
      Field.depth_le.mpr ⟨fun a ha => (hvalues a ha).depth, fun f hf => (hnested f hf).2⟩⟩
  split at h
  · obtain ⟨nested, _, hnested, h⟩ := bind_ok.mp h
    obtain ⟨rfl, rfl⟩ := pure_ok.mp h
    obtain ⟨hreadNested, hne, hfits⟩ := hselections hnested
    refine ⟨?_, fits hfits⟩
    rw [Field.tokens, Field.nestedTokens_eq, if_neg (by simpa using hne)]
    simpa using hread.append hreadNested
  · obtain ⟨rfl, rfl⟩ := pure_ok.mp h
    refine ⟨?_, fits (by simp)⟩
    simpa [Field.tokens, Field.nestedTokens] using hread

theorem gives_selection {field : Reading Field} {P : Field → Prop}
    (hfield : Gives field Field.tokens P) : Gives (selection field) Field.tokens P := by
  intro c f c' h
  obtain ⟨found, _, hpeek, h⟩ := bind_ok.mp h
  obtain ⟨rfl, rfl⟩ := peek_ok.mp hpeek
  split at h
  · exact (fail_ok.mp h).elim
  · exact hfield h

theorem gives_bracedFields {field : Reading Field} {P : Field → Prop}
    (hfield : Gives field Field.tokens P) :
    Gives (bracedFields field) bracedTokens fun fields => fields ≠ [] ∧ ∀ f ∈ fields, P f := by
  intro c fields c' h
  obtain ⟨_, _, hopen, h⟩ := bind_ok.mp h
  obtain ⟨fields', _, hfields, h⟩ := bind_ok.mp h
  split at h
  · exact (fail_ok.mp h).elim
  · rename_i hne
    obtain ⟨_, _, hclose, h⟩ := bind_ok.mp h
    obtain ⟨rfl, rfl⟩ := pure_ok.mp h
    obtain ⟨hread, hfollows⟩ := gives_itemsUntil (ascii '}') (Q := fun _ => P)
      (fun _ => gives_selection hfield) Field.tokens_ne_nil hfields
    exact ⟨((read_of_expect .openBrace hopen).append hread).append
      (read_of_expect .closeBrace hclose), by simpa using hne, follows_const.mp hfollows⟩

/-! ## §3 Selections -/

theorem gives_selections (budget : Nat) : GivesNested (selections budget) budget := by
  induction budget with
  | zero => exact fun _ _ _ h => (fail_ok.mp h).elim
  | succ budget ih =>
    intro c fields c' h
    obtain ⟨hread, hne, hfits⟩ :=
      gives_bracedFields (gives_field (gives_literal .allowed budget) ih) h
    exact ⟨hread, hne, fun f hf => ⟨(hfits f hf).wellFormed, Nat.succ_le_succ (hfits f hf).depth⟩⟩

/-! ## §4 Operations -/

theorem gives_defaultValue :
    Gives defaultValue defaultTokens fun default =>
      ∀ value ∈ default, Fits .refused nestingLimit value := by
  intro c default c' h
  obtain ⟨found, _, haccept, h⟩ := bind_ok.mp h
  have hequals := read_of_accept .equals haccept
  split at h
  · rename_i hfound
    obtain ⟨value, hvalue, rfl⟩ := map_ok.mp h
    obtain ⟨hread, hfits⟩ := gives_literal .refused nestingLimit hvalue
    rw [if_pos hfound] at hequals
    exact ⟨hequals.append hread, by simpa using hfits⟩
  · rename_i hfound
    obtain ⟨rfl, rfl⟩ := pure_ok.mp h
    rw [if_neg hfound] at hequals
    exact ⟨hequals, by simp⟩

theorem gives_variableDefinition (earlier : List VariableDefinition) :
    Gives (variableDefinition earlier) VariableDefinition.tokens
      (Named (·.name) VariableDefinition.WellFormed earlier) := by
  intro c definition c' h
  obtain ⟨location, _, hposition, h⟩ := bind_ok.mp h
  obtain ⟨rfl, rfl⟩ := position_ok.mp hposition
  obtain ⟨_, _, hdollar, h⟩ := bind_ok.mp h
  obtain ⟨word, _, hname, h⟩ := bind_ok.mp h
  obtain ⟨hread, hlexical⟩ := read_of_name hname
  split at h
  · exact (failAt_ok.mp h).elim
  · rename_i hnew
    obtain ⟨_, _, hcolon, h⟩ := bind_ok.mp h
    obtain ⟨type, _, htype, h⟩ := bind_ok.mp h
    obtain ⟨default, _, hdefault, h⟩ := bind_ok.mp h
    obtain ⟨rfl, rfl⟩ := pure_ok.mp h
    obtain ⟨hreadType, hfits⟩ := gives_writtenType nestingLimit htype
    obtain ⟨hreadDefault, hvalue⟩ := gives_defaultValue hdefault
    have hreadName := ((read_of_expect .dollar hdollar).append hread).append
      (read_of_expect .colon hcolon)
    refine ⟨?_, hlexical, ?_, by simpa using hnew⟩
    · simpa [VariableDefinition.tokens] using (hreadName.append hreadType).append hreadDefault
    · exact ⟨hfits.leaf, hfits.marks, hfits.levels, fun v hv => (hvalue v hv).wellFormed,
        fun v hv => (hvalue v hv).constant rfl, fun v hv => (hvalue v hv).depth⟩

theorem gives_variableDefinitions :
    Gives variableDefinitions (parenthesisedTokens VariableDefinition.tokens) fun definitions =>
      ProperNames (definitions.map (·.name)) ∧ ∀ d ∈ definitions, d.WellFormed := by
  intro c definitions c' h
  obtain ⟨found, _, hpeek, h⟩ := bind_ok.mp h
  obtain ⟨rfl, rfl⟩ := peek_ok.mp hpeek
  split at h
  · obtain ⟨definitions', _, hdefinitions, h⟩ := bind_ok.mp h
    obtain ⟨_, _, hskip, h⟩ := bind_ok.mp h
    obtain ⟨rfl, rfl⟩ := pure_ok.mp h
    obtain ⟨hread, hfollows⟩ :=
      gives_parenthesised gives_variableDefinition (by simp [VariableDefinition.tokens])
        hdefinitions
    refine ⟨?_, follows_named.mp hfollows⟩
    simpa using hread.append (gap_of_skipBlanks hskip).1.read
  · obtain ⟨rfl, rfl⟩ := pure_ok.mp h
    exact ⟨(Gap.refl _).read, ⟨by simp, by simp⟩, by simp⟩

theorem read_of_operationKind {location : Location} {keyword : Bytes} {kind : OperationKind}
    {c c' : Cursor} (h : (operationKind location keyword).run c = .ok (kind, c')) :
    keyword = kind.keyword ∧ c = c' := by
  unfold operationKind at h
  split at h
  · rename_i hkeyword
    obtain ⟨rfl, rfl⟩ := pure_ok.mp h
    exact ⟨hkeyword, rfl⟩
  · split at h
    · rename_i hkeyword
      obtain ⟨rfl, rfl⟩ := pure_ok.mp h
      exact ⟨hkeyword, rfl⟩
    · split at h <;> exact (failAt_ok.mp h).elim

theorem gives_operationName :
    Gives operationName operationNameTokens fun found =>
      ∀ name ∈ found, isName name = true := by
  intro c found c' h
  obtain ⟨_, settled, hskip, h⟩ := bind_ok.mp h
  obtain ⟨next, _, hpeek, h⟩ := bind_ok.mp h
  obtain ⟨rfl, rfl⟩ := peek_ok.mp hpeek
  have hgap := (gap_of_skipBlanks hskip).1.read
  split at h
  · obtain ⟨word, _, hname, h⟩ := bind_ok.mp h
    obtain ⟨_, _, hskip', h⟩ := bind_ok.mp h
    obtain ⟨rfl, rfl⟩ := pure_ok.mp h
    obtain ⟨hread, hlexical⟩ := read_of_name hname
    refine ⟨?_, by simpa using hlexical⟩
    exact hgap.append (hread.append (gap_of_skipBlanks hskip').1.read)
  · obtain ⟨rfl, rfl⟩ := pure_ok.mp h
    exact ⟨hgap, by simp⟩

theorem gives_operationSelections :
    GivesNested operationSelections nestingLimit := by
  intro c fields c' h
  obtain ⟨_, _, hdirective, h⟩ := bind_ok.mp h
  obtain rfl := read_of_noDirective hdirective
  obtain ⟨found, _, hpeek, h⟩ := bind_ok.mp h
  obtain ⟨rfl, rfl⟩ := peek_ok.mp hpeek
  split at h
  · exact gives_selections nestingLimit h
  · exact (fail_ok.mp h).elim

/-- An operation has several token sequences, so it is stated which one was read. -/
theorem read_of_operation {o : Operation} {c c' : Cursor} (h : operation.run c = .ok (o, c')) :
    (∃ tokens, o.Form tokens ∧ tokens ≠ [] ∧ Read tokens c.rest c'.rest) ∧ o.WellFormed := by
  obtain ⟨location, _, hposition, h⟩ := bind_ok.mp h
  obtain ⟨rfl, rfl⟩ := position_ok.mp hposition
  obtain ⟨found, _, hpeek, h⟩ := bind_ok.mp h
  obtain ⟨rfl, rfl⟩ := peek_ok.mp hpeek
  split at h
  · obtain ⟨fields, _, hfields, h⟩ := bind_ok.mp h
    obtain ⟨rfl, rfl⟩ := pure_ok.mp h
    obtain ⟨hread, hne, hfits⟩ := gives_selections nestingLimit hfields
    exact ⟨⟨_, .short rfl rfl rfl, by simp [bracedTokens], hread⟩,
      { name := by simp
        variableNames := ⟨by simp, by simp⟩
        definitions := by simp
        nonempty := hne
        fields := fun f hf => (hfits f hf).1
        depth := fun f hf => (hfits f hf).2 }⟩
  · obtain ⟨keyword, _, hkeyword, h⟩ := bind_ok.mp h
    obtain ⟨kind, _, hkind, h⟩ := bind_ok.mp h
    obtain ⟨name, _, hname, h⟩ := bind_ok.mp h
    obtain ⟨definitions, _, hdefinitions, h⟩ := bind_ok.mp h
    obtain ⟨fields, _, hfields, h⟩ := bind_ok.mp h
    obtain ⟨rfl, rfl⟩ := pure_ok.mp h
    obtain ⟨rfl, rfl⟩ := read_of_operationKind hkind
    obtain ⟨hreadKeyword, -⟩ := read_of_name hkeyword
    obtain ⟨hreadName, hlexical⟩ := gives_operationName hname
    obtain ⟨hreadDefinitions, hnames, hdefinitions⟩ := gives_variableDefinitions hdefinitions
    obtain ⟨hreadFields, hne, hfits⟩ := gives_operationSelections hfields
    have hread := ((hreadKeyword.append hreadName).append hreadDefinitions).append hreadFields
    exact ⟨⟨_, .full, by simp [Operation.tokens], hread⟩,
      { name := hlexical
        variableNames := hnames
        definitions := hdefinitions
        nonempty := hne
        fields := fun f hf => (hfits f hf).1
        depth := fun f hf => (hfits f hf).2 }⟩

/-! ## §5 Documents -/

/-- What one step of reading operations says: another operation whose name is new,
or the end of the text. -/
theorem read_of_nextOperation {earlier : List Operation} {c c' : Cursor} {found : Option Operation}
    (h : (nextOperation earlier).run c = .ok (found, c')) :
    match found with
    | none => Read [] c.rest c'.rest ∧ c'.rest = []
    | some o => (∃ tokens, o.Form tokens ∧ tokens ≠ [] ∧ Read tokens c.rest c'.rest) ∧
        o.WellFormed ∧ ∀ e ∈ earlier, o.name ≠ none → e.name ≠ o.name := by
  obtain ⟨_, settled, hskip, h⟩ := bind_ok.mp h
  obtain ⟨next, _, hpeek, h⟩ := bind_ok.mp h
  obtain ⟨rfl, rfl⟩ := peek_ok.mp hpeek
  have hgap := (gap_of_skipBlanks hskip).1.read
  split at h
  · rename_i hend
    obtain ⟨rfl, rfl⟩ := pure_ok.mp h
    exact ⟨hgap, by simpa using hend⟩
  · obtain ⟨o, _, ho, h⟩ := bind_ok.mp h
    obtain ⟨⟨tokens, hform, hne, hread⟩, hwellFormed⟩ := read_of_operation ho
    split at h
    · exact (failAt_ok.mp h).elim
    · rename_i hnew
      obtain ⟨rfl, rfl⟩ := pure_ok.mp h
      refine ⟨⟨tokens, hform, hne, hgap.append hread⟩, hwellFormed, fun e he hnamed heq => hnew ?_⟩
      simp only [Bool.and_eq_true, List.any_eq_true]
      exact ⟨Option.isSome_iff_ne_none.mpr hnamed, e, he, beq_iff_eq.mpr heq⟩

theorem progresses_nextOperation : Progresses nextOperation := by
  intro earlier c o c' h
  obtain ⟨⟨tokens, -, hne, hread⟩, -⟩ := read_of_nextOperation h
  exact hread.length_lt hne

/-- What is known of operations that were read one after another. -/
structure ReadAll (earlier later : List Operation) (text rest : Bytes) : Prop where
  spelled : ∃ tokens, FormOfAll later tokens ∧ Read tokens text rest
  wellFormed : ∀ o ∈ later, o.WellFormed
  names : (later.filterMap (·.name)).Nodup
  newNames : ∀ e ∈ earlier, ∀ o ∈ later, o.name ≠ none → e.name ≠ o.name

/-- Another operation in front keeps the names distinct. -/
theorem ReadAll.cons {earlier later : List Operation} {o : Operation} {tokens : List Token}
    {text middle rest : Bytes} (hform : o.Form tokens) (hread : Read tokens text middle)
    (hwellFormed : o.WellFormed) (hnew : ∀ e ∈ earlier, o.name ≠ none → e.name ≠ o.name)
    (h : ReadAll (o :: earlier) later middle rest) : ReadAll earlier (o :: later) text rest where
  spelled :=
    have ⟨_, hforms, hmore⟩ := h.spelled
    ⟨_, .cons hform hforms, hread.append hmore⟩
  wellFormed := List.forall_mem_cons.mpr ⟨hwellFormed, h.wellFormed⟩
  names := by
    cases hname : o.name with
    | none => simpa [hname] using h.names
    | some word =>
      rw [List.filterMap_cons_some hname, List.nodup_cons]
      refine ⟨fun hmem => ?_, h.names⟩
      obtain ⟨p, hp, hword⟩ := List.mem_filterMap.mp hmem
      exact h.newNames o (by simp) p hp (by simp [hword]) (hname.trans hword.symm)
  newNames e he :=
    List.forall_mem_cons.mpr ⟨hnew e he, h.newNames e (List.mem_cons_of_mem o he)⟩

theorem readAll_of_repeats {earlier later : List Operation} {c c' : Cursor}
    (h : Repeats nextOperation earlier c later c') :
    ReadAll earlier later c.rest c'.rest ∧ c'.rest = [] := by
  induction h with
  | stop hfound =>
    obtain ⟨hread, hend⟩ := read_of_nextOperation hfound
    exact ⟨⟨⟨[], .nil, hread⟩, by simp, by simp, by simp⟩, hend⟩
  | next hfound _ ih =>
    obtain ⟨⟨tokens, hform, -, hread⟩, hwellFormed, hnew⟩ := read_of_nextOperation hfound
    exact ⟨ih.1.cons hform hread hwellFormed hnew, ih.2⟩

/-- Where text is left, the loop does not stop at once. -/
theorem ne_nil_of_repeats {items : List Operation} {c c' : Cursor} (hsettled : Settled c.rest)
    (hne : c.rest ≠ []) (h : Repeats nextOperation [] c items c') : items ≠ [] := by
  intro heq
  subst heq
  cases h with
  | stop hfound =>
    obtain ⟨_, middle, hskip, h⟩ := bind_ok.mp hfound
    obtain ⟨next, _, hpeek, h⟩ := bind_ok.mp h
    obtain ⟨rfl, rfl⟩ := peek_ok.mp hpeek
    obtain rfl : c = middle := by
      rw [← skipBlanks_ok.mp hskip, skipFrom_of_settled hsettled]
    split at h
    · rename_i hend
      exact hne (List.head?_eq_none_iff.mp hend)
    · obtain ⟨o, _, _, h⟩ := bind_ok.mp h
      split at h
      · exact (failAt_ok.mp h).elim
      · cases (pure_ok.mp h).1

/-- A document that is read was written, up to the end of the text, and is well
formed. -/
theorem spec_of_document {d : Document} {c c' : Cursor} (h : document.run c = .ok (d, c')) :
    (∃ tokens, d.Form tokens ∧ Read tokens c.rest []) ∧ d.WellFormed := by
  obtain ⟨_, settled, hskip, h⟩ := bind_ok.mp h
  obtain ⟨next, _, hpeek, h⟩ := bind_ok.mp h
  obtain ⟨rfl, rfl⟩ := peek_ok.mp hpeek
  obtain ⟨hgap, hsettled⟩ := gap_of_skipBlanks hskip
  split at h
  · exact (fail_ok.mp h).elim
  · rename_i hsome
    obtain ⟨operations, _, hoperations, h⟩ := bind_ok.mp h
    have hrepeats := (many_ok progresses_nextOperation).mp hoperations
    obtain ⟨hall, hend⟩ := readAll_of_repeats hrepeats
    rw [hend] at hall
    obtain ⟨tokens, hforms, hread⟩ := hall.spelled
    have hne : operations ≠ [] := ne_nil_of_repeats hsettled (by simpa using hsome) hrepeats
    -- The scan for an anonymous operation only decides; the operations are the same.
    have spec (hanonymous : 1 < operations.length → ∀ o ∈ operations, o.name ≠ none) :
        (∃ tokens, Document.Form ⟨operations⟩ tokens ∧ Read tokens c.rest []) ∧
          Document.WellFormed ⟨operations⟩ :=
      ⟨⟨tokens, hforms, hgap.read.append hread⟩, hne, hall.names, hanonymous, hall.wellFormed⟩
    split at h
    · split at h
      · exact (failAt_ok.mp h).elim
      · rename_i hlength
        obtain ⟨rfl, rfl⟩ := pure_ok.mp h
        exact spec fun hmany => absurd hmany hlength
    · rename_i hnone
      obtain ⟨rfl, rfl⟩ := pure_ok.mp h
      exact spec fun _ => by simpa using hnone

end GraphQL.Reading

namespace GraphQL

theorem Document.run_of_ofText {text : Bytes} {document : Document}
    (h : Document.ofText text = .ok document) :
    ∃ c, Reading.document.run ⟨text, Location.start⟩ = .ok (document, c) := by
  unfold Document.ofText at h
  split at h
  · rename_i c hrun
    obtain rfl := Except.ok.inj h
    exact ⟨c, hrun⟩
  · cases h

/-- A text is accepted only as a spelling of the document that is read from it. -/
theorem Document.spelledBy_of_ofText {text : Bytes} {document : Document}
    (h : Document.ofText text = .ok document) : document.SpelledBy text := by
  obtain ⟨c, hrun⟩ := Document.run_of_ofText h
  obtain ⟨⟨tokens, hform, tail, hlaid, hgap⟩, -⟩ := Reading.spec_of_document hrun
  exact ⟨tokens, hform, tail, hlaid, hgap.trailing⟩

theorem Document.spelledBy_query_text : ∃ document,
    Document.ofText (utf8 "query Q($v:T=1){a:f(x:$v){b}}") = .ok document ∧
      document.SpelledBy (utf8 "query Q($v:T=1){a:f(x:$v){b}}") := by
  have h : Document.ofText (utf8 "query Q($v:T=1){a:f(x:$v){b}}") = .ok ⟨[⟨.query, some (utf8 "Q"),
      [⟨utf8 "v", .named (utf8 "T"), some (.int ⟨1, 14⟩ 1), ⟨1, 9⟩⟩],
      [⟨some (utf8 "a"), utf8 "f", [⟨utf8 "x", .reference ⟨1, 23⟩ (utf8 "v"), ⟨1, 21⟩⟩],
        [⟨none, utf8 "b", [], [], ⟨1, 27⟩⟩], ⟨1, 17⟩⟩], ⟨1, 1⟩⟩]⟩ := by decide +kernel
  exact ⟨_, h, Document.spelledBy_of_ofText h⟩

/-- Every document that is read from a text is well formed. -/
theorem Document.wellFormed_of_ofText {text : Bytes} {document : Document}
    (h : Document.ofText text = .ok document) : document.WellFormed := by
  obtain ⟨c, hrun⟩ := Document.run_of_ofText h
  exact (Reading.spec_of_document hrun).2

theorem Document.wellFormed_mutation_text : ∃ document,
    Document.ofText (utf8 "mutation($v:[T!]!){a(o:{k:[$v]})}") = .ok document ∧
      document.WellFormed := by
  have h : Document.ofText (utf8 "mutation($v:[T!]!){a(o:{k:[$v]})}") = .ok ⟨[⟨.mutation, none,
      [⟨utf8 "v", .nonNull (.list (.nonNull (.named (utf8 "T")))), none, ⟨1, 10⟩⟩],
      [⟨none, utf8 "a", [⟨utf8 "o", .object ⟨1, 24⟩
        [⟨utf8 "k", .list ⟨1, 27⟩ [.reference ⟨1, 28⟩ (utf8 "v")], ⟨1, 25⟩⟩], ⟨1, 22⟩⟩],
        [], ⟨1, 20⟩⟩], ⟨1, 1⟩⟩]⟩ := by decide +kernel
  exact ⟨_, h, Document.wellFormed_of_ofText h⟩

end GraphQL
