/-
GraphQL.Proofs.Reading.DeepDocument — which spellings of a document are refused
because they nest too deeply.

  §1 Types       — by induction on the nesting budget.
  §2 Selections  — arguments and nested selections, by induction again.
  §3 Operations  — variables, then selections.
  §4 Documents   — the limit, for every spelling of a document.
  §5 List types  — a type with as many lists as the limit.

A part that holds several others is refused at the first of them that is too
deep, so each lemma asks which one that is and reads the parts before it.
-/
import GraphQL.Proofs.Document.Nesting
import GraphQL.Proofs.Reading.CompleteDocument
import GraphQL.Proofs.Reading.DeepLiteral

namespace GraphQL.Reading

variable {α : Type}

/-! ## §1 Types -/

theorem rejects_writtenType (budget : Nat) : ∀ type : TypeExpr Bytes, type.MarkedOnce →
    budget < type.levels → Rejects (writtenType budget) type.tokens := by
  induction budget with
  | zero => exact fun _ _ _ _ _ _ _ => .fail _
  | succ budget ih =>
    intro type hmarks hdeep following text rest hlaid
    obtain ⟨core, marked, rfl, hcore⟩ := exists_markedType hmarks
    have hlevels : (markedType marked core).levels = core.levels := by cases marked <;> rfl
    have hmarksCore : core.MarkedOnce := by
      cases marked with
      | true => exact hmarks.2
      | false => exact hmarks
    rw [hlevels] at hdeep
    rw [markedType_tokens, List.append_assoc] at hlaid
    cases core with
    | nonNull inner => cases hcore
    | named word => exact absurd hdeep (by simp [TypeExpr.levels])
    | list inner =>
      rw [TypeExpr.tokens, List.append_assoc, List.cons_append] at hlaid
      apply (runs_accept .openBracket hlaid).refuses_eq
      intro _ hopen
      have hinner : budget < inner.levels := Nat.lt_of_add_lt_add_right hdeep
      exact (ih inner hmarksCore hinner hopen).bind

/-! ## §2 Selections -/

/-- A list in parentheses is refused where one of its items is. -/
theorem refuses_optionalList {list : Reading (List α)} {tokens : α → List Token} {items : List α}
    (hne : items ≠ []) (hlist : Rejects list (parenthesisedTokens tokens items))
    {following : List Token} {text rest : Bytes}
    (hstanding : Standing (parenthesisedTokens tokens items ++ following) text rest) :
    Refuses (do
      if (← peek) = some (ascii '(') then
        let found ← list
        skipBlanks
        return found
      else return []) text := by
  obtain ⟨first, more, rfl⟩ := List.exists_cons_of_ne_nil hne
  have hparen : text.head? = some (ascii '(') := (head?_eq_byte hstanding .openParen).mpr rfl
  apply Refuses.peek_bind
  rw [if_pos hparen]
  exact (hlist hstanding.laid).bind

theorem refuses_noDirective_bind {f : Unit → Reading α} {t : Token} {ts : List Token}
    {text rest : Bytes} (h : Standing (t :: ts) text rest) (hf : Refuses (f ()) text) :
    Refuses (noDirective >>= f) text := by
  apply Runs.refuses (takes_noDirective h)
  rintro _ _ ⟨-, rfl⟩
  exact hf

theorem refuses_fieldArguments {budget : Nat} {arguments : List (Entry Literal)}
    (hnames : ProperNames (arguments.map (·.name)))
    (hvalues : ∀ a ∈ arguments, a.value.WellFormed)
    (hdeep : ∃ a ∈ arguments, budget < a.value.depth)
    {following : List Token} {text rest : Bytes}
    (hstanding : Standing (argumentTokens arguments ++ following) text rest) :
    Refuses (fieldArguments (literal .allowed budget)) text := by
  have hne : arguments ≠ [] := by
    obtain ⟨a, ha, _⟩ := hdeep
    exact List.ne_nil_of_mem ha
  have hsound : ∀ a ∈ arguments, Sound .allowed a.value :=
    fun a ha => ⟨hvalues a ha, fun hrefused => by cases hrefused⟩
  refine refuses_optionalList hne ?_ hstanding
  exact rejects_parenthesised Anything (fun a => budget < a.value.depth)
    (gives_entry .duplicateArgument (gives_literal .allowed budget))
    (fun _ _ a hearlier hnamed hdepth => (accepts_entry _ (accepts_literal .allowed budget) hearlier
      (hnamed.imp fun h : Sound .allowed a.value => h.fits hdepth)).here)
    (fun _ _ a hearlier hnamed hdepth =>
      (rejects_entry _ (rejects_literal .allowed budget a.value hnamed.2.1 hdepth)
        hearlier hnamed).here)
    (fun _ => avoids_cons (by simp)) (fun _ _ => trivial) (follows_named.mpr ⟨hnames, hsound⟩) hdeep

/-- The selections nested in a field, or those of an operation, are rejected when one
of them nests too deeply. -/
def RejectsNested (selections : Reading (List Field)) (budget : Nat) : Prop :=
  ∀ fields, (∀ f ∈ fields, f.WellFormed) → (∃ f ∈ fields, budget < f.depth + 1) →
    Rejects selections (bracedTokens fields)

/-- What nests too deeply in a field is an argument of it, or a selection nested in it. -/
theorem exists_deeper_part {budget : Nat} {f : Field} (h : budget < f.depth) :
    (∃ a ∈ f.arguments, budget < a.value.depth) ∨
      (∀ a ∈ f.arguments, a.value.depth ≤ budget) ∧ ∃ n ∈ f.selections, budget < n.depth + 1 := by
  by_cases harguments : ∀ a ∈ f.arguments, a.value.depth ≤ budget
  · refine .inr ⟨harguments, ?_⟩
    by_contra hnone
    simp only [not_exists, not_and, Nat.not_lt] at hnone
    exact absurd (Field.depth_le.mpr ⟨harguments, hnone⟩) (Nat.not_le.mpr h)
  · simp only [not_forall, Nat.not_le] at harguments
    obtain ⟨a, ha, hdepth⟩ := harguments
    exact .inl ⟨a, ha, hdepth⟩

theorem rejects_field_argument {selections : Reading (List Field)} {budget : Nat} {f : Field}
    (hf : f.Proper) (hdeep : ∃ a ∈ f.arguments, budget < a.value.depth) :
    Rejects (field (literal .allowed budget) selections) f.tokens := by
  intro following text rest hlaid
  obtain ⟨aliasName, word, arguments, fields, written⟩ := f
  simp only [Field.tokens, List.append_assoc, List.cons_append] at hlaid
  -- There are arguments, so their parenthesis follows the name.
  have hafterName : Avoids [.colon]
      (argumentTokens arguments ++ (Field.nestedTokens fields ++ following)) := by
    cases arguments with
    | nil =>
      obtain ⟨a, ha, _⟩ := hdeep
      cases ha
    | cons first more => exact avoids_cons (by simp)
  refine Refuses.position_bind fun _ => (runs_aliasAndName hafterName hlaid).refuses ?_
  rintro _ _ ⟨rfl, hstanding⟩
  exact (refuses_fieldArguments hf.argumentNames hf.arguments hdeep hstanding).bind

theorem rejects_field_selection {selections : Reading (List Field)} {budget : Nat}
    (hselections : RejectsNested selections budget) {f : Field} (hf : f.WellFormed)
    (harguments : ∀ a ∈ f.arguments, a.value.depth ≤ budget)
    (hdeep : ∃ n ∈ f.selections, budget < n.depth + 1) :
    Rejects (field (literal .allowed budget) selections) f.tokens := by
  intro following text rest hlaid
  obtain ⟨hproper, hnested⟩ := Field.forall_nodes.mp hf
  obtain ⟨aliasName, word, arguments, fields, written⟩ := f
  obtain ⟨first, more, rfl⟩ : ∃ first more, fields = first :: more := by
    obtain ⟨n, hn, _⟩ := hdeep
    exact List.exists_cons_of_ne_nil (List.ne_nil_of_mem hn)
  have hvalues : ∀ a ∈ arguments, Fits .allowed budget a.value :=
    fun a ha => ⟨hproper.arguments a ha, harguments a ha, by simp⟩
  have hbraces {signs : List Punctuator} (hsigns : .openBrace ∉ signs) :
      Avoids signs (Field.nestedTokens (first :: more) ++ following) := by
    refine avoids_cons ?_
    rintro sign hsign heq
    cases heq
    exact hsigns hsign
  have hafterName : Avoids [.colon]
      (argumentTokens arguments ++ (Field.nestedTokens (first :: more) ++ following)) :=
    avoids_append (avoids_parenthesised (by simp) _ arguments) (hbraces (by simp))
  simp only [Field.tokens, List.append_assoc, List.cons_append] at hlaid
  refine Refuses.position_bind fun _ => (runs_aliasAndName hafterName hlaid).refuses ?_
  rintro _ _ ⟨rfl, hstanding⟩
  refine (runs_fieldArguments (gives_literal .allowed budget) (accepts_literal .allowed budget)
    hproper.argumentNames hvalues (hbraces (by simp)) hstanding).refuses ?_
  rintro _ settled ⟨-, hstanding⟩
  refine refuses_noDirective_bind hstanding (Refuses.peek_bind ?_)
  have hbrace : settled.head? = some (ascii '{') := (head?_eq_byte hstanding .openBrace).mpr rfl
  rw [if_pos hbrace]
  have hbraced : Laid (bracedTokens (first :: more) ++ following) settled rest := by
    have := hstanding.laid
    rwa [Field.nestedTokens_eq] at this
  exact (hselections (first :: more) hnested hdeep hbraced).bind

theorem rejects_field {selections : Reading (List Field)} {budget : Nat}
    (hselections : RejectsNested selections budget) {f : Field} (hf : f.WellFormed)
    (hdeep : budget < f.depth) :
    Rejects (field (literal .allowed budget) selections) f.tokens := by
  rcases exists_deeper_part hdeep with hargument | ⟨harguments, hselected⟩
  · exact rejects_field_argument (Field.forall_nodes.mp hf).1 hargument
  · exact rejects_field_selection hselections hf harguments hselected

theorem rejects_selection {field : Reading Field} {f : Field} (hfield : Rejects field f.tokens) :
    RejectsHere (selection field) f.tokens := by
  intro following text rest hstanding
  have hstart : Avoids [] (f.tokens ++ following) := Field.tokens_start f following
  obtain ⟨t, ts, htokens, -⟩ := hstart
  apply Refuses.peek_bind
  rw [if_neg (head?_ne (htokens ▸ hstanding)).2]
  exact hfield hstanding.laid

theorem rejects_selections (budget : Nat) : RejectsNested (selections budget) budget := by
  induction budget with
  | zero => exact fun _ _ _ _ _ _ _ => .fail _
  | succ budget ih =>
    intro fields hfields hdeep following text rest hlaid
    have hdeep : ∃ f ∈ fields, budget < f.depth := by
      obtain ⟨f, hf, hdepth⟩ := hdeep
      exact ⟨f, hf, Nat.lt_of_add_lt_add_right hdepth⟩
    have hgives := gives_field (gives_literal .allowed budget) (gives_selections budget)
    have haccepts (f : Field) (hf : f.WellFormed) (hdepth : ¬ budget < f.depth) :=
      accepts_field (gives_literal .allowed budget) (accepts_literal .allowed budget)
        (accepts_selections budget) ⟨hf, Nat.le_of_not_lt hdepth⟩
    have hall := rejects_itemsUntil .closeBrace (Avoids afterField) (fun f => budget < f.depth)
      (Q := fun _ => Field.WellFormed) (fun _ => gives_selection hgives)
      (fun _ _ f _ hf hdepth => accepts_selection (haccepts f hf hdepth))
      (fun _ _ f _ hf hdepth => rejects_selection (rejects_field ih hf hdepth))
      (fun f => by simpa using Field.tokens_start f []) (fun f after => Field.tokens_start f after)
      (follows_const.mpr hfields) hdeep
    rw [bracedTokens, List.append_assoc, List.cons_append] at hlaid
    refine (runs_expect .openBrace hlaid).refuses fun _ _ hopen => ?_
    exact (hall hopen).bind

/-! ## §3 Operations -/

/-- What nests too deeply in a variable definition is its type, or its default. -/
theorem exists_deeper_type {d : VariableDefinition} (h : ¬ d.WithinLimit) :
    nestingLimit < d.type.levels ∨
      d.type.levels ≤ nestingLimit ∧
        ∃ value, d.default = some value ∧ nestingLimit < value.depth := by
  rw [VariableDefinition.withinLimit_iff] at h
  by_cases htype : d.type.levels ≤ nestingLimit
  · simp only [htype, true_and, not_forall, Nat.not_le] at h
    obtain ⟨value, hvalue, hdepth⟩ := h
    exact .inr ⟨htype, value, hvalue, hdepth⟩
  · exact .inl (Nat.lt_of_not_le htype)

theorem rejects_defaultValue {value : Literal} (hsound : Sound .refused value)
    (hdeep : nestingLimit < value.depth) : Rejects defaultValue (defaultTokens (some value)) := by
  intro following text rest hlaid
  apply (runs_accept .equals hlaid).refuses_eq
  intro _ hvalue
  exact (rejects_literal .refused nestingLimit value hsound hdeep hvalue).map

theorem rejects_variableDefinition {earlier sources : List VariableDefinition}
    {d : VariableDefinition}
    (hearlier : earlier.map VariableDefinition.unplaced = sources.map VariableDefinition.unplaced)
    (hnamed : Named (·.name) VariableDefinition.Regular sources d) (hdeep : ¬ d.WithinLimit) :
    Rejects (variableDefinition earlier) d.tokens := by
  obtain ⟨-, hd, hnew⟩ := hnamed
  intro following text rest hlaid
  have hparts := exists_deeper_type hdeep
  obtain ⟨word, type, default, written⟩ := d
  have hnames : earlier.map (·.name) = sources.map (·.name) :=
    map_eq_of_unplaced VariableDefinition.name hearlier fun _ => rfl
  simp only [VariableDefinition.tokens, List.append_assoc, List.cons_append] at hlaid
  refine Refuses.position_bind fun _ => (runs_expect .dollar hlaid).refuses fun _ _ hname => ?_
  apply (runs_name hname).refuses_eq
  intro _ hcolon
  rw [any_eq_false_of_unplaced hnames hnew, if_neg (by simp)]
  refine (runs_expect .colon hcolon).refuses fun _ _ htypeText => ?_
  rcases hparts with htype | ⟨hlevels, value, rfl, hdepth⟩
  · exact (rejects_writtenType nestingLimit type hd.marks htype htypeText).bind
  · have htype : FitsType nestingLimit type := ⟨hd.typeName, hd.marks, hlevels⟩
    have hsound : Sound .refused value :=
      ⟨hd.default value rfl, fun _ => hd.constant value rfl⟩
    apply (accepts_writtenType nestingLimit type htype (avoids_cons (by simp)) htypeText).refuses_eq
    intro _ hdefault
    exact (rejects_defaultValue hsound hdepth hdefault).bind

theorem refuses_variableDefinitions {definitions : List VariableDefinition}
    (hnames : ProperNames (definitions.map (·.name)))
    (hdefinitions : ∀ d ∈ definitions, d.Regular) (hdeep : ∃ d ∈ definitions, ¬ d.WithinLimit)
    {following : List Token} {text rest : Bytes}
    (hstanding : Standing (parenthesisedTokens VariableDefinition.tokens definitions ++ following)
      text rest) : Refuses variableDefinitions text := by
  have hne : definitions ≠ [] := by
    obtain ⟨d, hd, _⟩ := hdeep
    exact List.ne_nil_of_mem hd
  refine refuses_optionalList hne ?_ hstanding
  have htakes ⦃earlier sources : List VariableDefinition⦄ ⦃d : VariableDefinition⦄
      (hearlier : earlier.map VariableDefinition.unplaced = sources.map VariableDefinition.unplaced)
      (hnamed : Named (·.name) VariableDefinition.Regular sources d)
      (hlimit : ¬ ¬ d.WithinLimit) : AcceptsHere (variableDefinition earlier) d.tokens
        (Avoids afterDefinition) (·.unplaced = d.unplaced) := by
    have hwellFormed : Named (·.name) VariableDefinition.WellFormed sources d :=
      hnamed.imp fun hd => VariableDefinition.wellFormed_iff.mpr ⟨hd, not_not.mp hlimit⟩
    exact (accepts_variableDefinition hearlier hwellFormed).here
  exact rejects_parenthesised (Avoids afterDefinition) (fun d => ¬ d.WithinLimit)
    gives_variableDefinition htakes
    (fun _ _ _ hearlier hnamed hlimit => (rejects_variableDefinition hearlier hnamed hlimit).here)
    (fun _ => avoids_cons (by simp)) (fun _ _ => avoids_cons (by simp [afterDefinition]))
    (follows_named.mpr ⟨hnames, hdefinitions⟩) hdeep

/-- What nests too deeply in an operation is one of its variables, or a selection. -/
theorem exists_deeper_definition {o : Operation} (h : ¬ o.WithinLimit) :
    (∃ d ∈ o.variableDefinitions, ¬ d.WithinLimit) ∨
      (∀ d ∈ o.variableDefinitions, d.WithinLimit) ∧
        ∃ f ∈ o.selections, nestingLimit < f.depth + 1 := by
  by_cases hdefinitions : ∀ d ∈ o.variableDefinitions, d.WithinLimit
  · refine .inr ⟨hdefinitions, ?_⟩
    by_contra hnone
    simp only [not_exists, not_and, Nat.not_lt] at hnone
    exact h ⟨hdefinitions, hnone⟩
  · simp only [not_forall] at hdefinitions
    obtain ⟨d, hd, hlimit⟩ := hdefinitions
    exact .inl ⟨d, hd, hlimit⟩

theorem refuses_operationSelections {fields : List Field} (hfields : ∀ f ∈ fields, f.WellFormed)
    (hdeep : ∃ f ∈ fields, nestingLimit < f.depth + 1) {following : List Token} {text rest : Bytes}
    (hstanding : Standing (bracedTokens fields ++ following) text rest) :
    Refuses operationSelections text := by
  refine refuses_noDirective_bind hstanding (Refuses.peek_bind ?_)
  have hopen : text.head? = some (ascii '{') := (head?_eq_byte hstanding .openBrace).mpr rfl
  rw [if_pos hopen]
  exact rejects_selections nestingLimit fields hfields hdeep hstanding.laid

theorem rejects_operation {o : Operation} (ho : o.Regular) (hdeep : ¬ o.WithinLimit)
    {tokens : List Token} (hform : o.Form tokens) : RejectsHere operation tokens := by
  intro following text rest hstanding
  refine Refuses.position_bind fun _ => Refuses.peek_bind ?_
  cases hform with
  | short _ _ hnone =>
    have hselected : ∃ f ∈ o.selections, nestingLimit < f.depth + 1 := by
      rcases exists_deeper_definition hdeep with ⟨d, hd, _⟩ | ⟨_, hselected⟩
      · rw [hnone] at hd
        cases hd
      · exact hselected
    have hbrace : text.head? = some (ascii '{') := (head?_eq_byte hstanding .openBrace).mpr rfl
    rw [if_pos hbrace]
    exact (rejects_selections nestingLimit _ ho.fields hselected hstanding.laid).bind
  | full =>
    simp only [Operation.tokens, List.append_assoc, List.cons_append] at hstanding
    have hbrace : text.head? ≠ some (ascii '{') := fun hhead => by
      cases (head?_eq_byte hstanding .openBrace).mp hhead
    rw [if_neg hbrace]
    apply (runs_name hstanding.laid).refuses_eq
    intro _ hname
    rw [operationKind_keyword, pure_bind]
    obtain ⟨sign, ts, hsign⟩ := exists_sign_after_name o following
    rw [hsign] at hname
    apply (runs_operationName (by simp) hname).refuses_eq
    intro _ hstanding
    rw [← hsign] at hstanding
    rcases exists_deeper_definition hdeep with hdefinition | ⟨hdefinitions, hselected⟩
    · exact (refuses_variableDefinitions ho.variableNames ho.definitions hdefinition hstanding).bind
    · have hwellFormed : ∀ d ∈ o.variableDefinitions, d.WellFormed := fun d hd =>
        VariableDefinition.wellFormed_iff.mpr ⟨ho.definitions d hd, hdefinitions d hd⟩
      refine (runs_variableDefinitions ho.variableNames hwellFormed
        (avoids_cons (by simp)) hstanding).refuses fun _ settled hfound => ?_
      exact (refuses_operationSelections ho.fields hselected hfound.2).bind

/-! ## §4 Documents -/

theorem rejects_nextOperation {earlier : List Operation} {o : Operation} (ho : o.Regular)
    (hdeep : ¬ o.WithinLimit) {tokens : List Token} (hform : o.Form tokens) :
    Rejects (nextOperation earlier) tokens := by
  intro following text rest hlaid
  obtain ⟨t, ts, htokens⟩ := exists_token_of_form hform
  rw [htokens] at hlaid
  refine (runs_skipBlanks hlaid).refuses fun _ settled hstanding => Refuses.peek_bind ?_
  obtain ⟨b, hb, -⟩ := hstanding.head?
  rw [hb]
  change Standing ((t :: ts) ++ following) settled rest at hstanding
  rw [← htokens] at hstanding
  exact (rejects_operation ho hdeep hform hstanding).bind

/-- The operations one by one, each with the tokens that it is written as. -/
theorem exists_written {operations : List Operation} {tokens : List Token}
    (h : FormOfAll operations tokens) : ∃ written : List (Operation × List Token),
      written.map Prod.fst = operations ∧ written.flatMap Prod.snd = tokens ∧
        ∀ w ∈ written, w.1.Form w.2 := by
  induction h with
  | nil => exact ⟨[], rfl, rfl, by simp⟩
  | @cons o _ tokens _ hform _ ih =>
    obtain ⟨written, rfl, rfl, hforms⟩ := ih
    exact ⟨(o, tokens) :: written, rfl, rfl, List.forall_mem_cons.mpr ⟨hform, hforms⟩⟩

/-- What is asked of an operation after `sources`, and of the tokens it is written as. -/
def Written (sources : List (Operation × List Token)) (w : Operation × List Token) : Prop :=
  (∀ e ∈ sources, e.1.name ≠ w.1.name) ∧ w.1.Regular ∧ w.1.Form w.2

theorem accepts_written {earlier : List Operation} {sources : List (Operation × List Token)}
    {w : Operation × List Token}
    (hearlier : earlier.map Operation.unplaced = sources.map fun w => w.1.unplaced)
    (hw : Written sources w) (hlimit : ¬ ¬ w.1.WithinLimit) :
    Accepts (nextOperation earlier) w.2 Anything
      fun found => ∃ b, found = some b ∧ b.unplaced = w.1.unplaced := by
  obtain ⟨hnew, hregular, hform⟩ := hw
  have hsources :
      earlier.map Operation.unplaced = (sources.map Prod.fst).map Operation.unplaced := by
    rw [hearlier, List.map_map]
    rfl
  have hfresh : ∀ e ∈ sources.map Prod.fst, w.1.name ≠ none → e.name ≠ w.1.name := by
    intro e he _
    obtain ⟨source, hsource, rfl⟩ := List.mem_map.mp he
    exact hnew source hsource
  have hwellFormed : w.1.WellFormed :=
    Operation.wellFormed_iff.mpr ⟨hregular, not_not.mp hlimit⟩
  exact accepts_nextOperation hsources hfresh hwellFormed hform

theorem refuses_operations {written : List (Operation × List Token)}
    (hwritten : Follows Written [] written) (hdeep : ∃ w ∈ written, ¬ w.1.WithinLimit)
    {text rest : Bytes} (hlaid : Laid (written.flatMap Prod.snd) text rest) :
    Refuses (many nextOperation) text := by
  rw [← List.append_nil (written.flatMap Prod.snd)] at hlaid
  exact refuses_many (fun _ _ _ hearlier hw hlimit => accepts_written hearlier hw hlimit)
    (fun _ _ _ _ hw hlimit => rejects_nextOperation hw.2.1 hlimit hw.2.2) (fun _ _ => trivial)
    progresses_nextOperation hwritten hdeep hlaid

theorem refuses_document {d : Document} (hd : d.Regular)
    (hdeep : ∃ o ∈ d.operations, ¬ o.WithinLimit) {tokens : List Token} (hform : d.Form tokens)
    {text rest : Bytes} (hlaid : Laid tokens text rest) : Refuses document text := by
  obtain ⟨written, hoperations, rfl, hforms⟩ := exists_written hform
  have hnames : (written.map fun w => w.1.name).Nodup := by
    have := hd.nodup
    rwa [← hoperations, List.map_map] at this
  have hregular : ∀ w ∈ written, w.1.Regular ∧ w.1.Form w.2 := fun w hw =>
    ⟨hd.operations w.1 (hoperations ▸ List.mem_map_of_mem hw), hforms w hw⟩
  have hfollows : Follows Written [] written :=
    Follows.of_nodup (P := fun w => w.1.Regular ∧ w.1.Form w.2) (fun _ _ hnew hw => ⟨hnew, hw⟩)
      hnames hregular (by simp)
  have hdeepWritten : ∃ w ∈ written, ¬ w.1.WithinLimit := by
    rw [← hoperations] at hdeep
    obtain ⟨_, ho, hlimit⟩ := hdeep
    obtain ⟨w, hw, rfl⟩ := List.mem_map.mp ho
    exact ⟨w, hw, hlimit⟩
  obtain ⟨t, ts, htokens⟩ : ∃ t ts, written.flatMap Prod.snd = t :: ts := by
    obtain ⟨w, hw, _⟩ := hdeepWritten
    obtain ⟨t, ts, ht⟩ := exists_token_of_form (hforms w hw)
    have hmem : t ∈ written.flatMap Prod.snd := List.mem_flatMap.mpr ⟨w, hw, by simp [ht]⟩
    exact List.exists_cons_of_ne_nil (List.ne_nil_of_mem hmem)
  rw [htokens] at hlaid
  refine (runs_skipBlanks hlaid).refuses fun _ settled hstanding => Refuses.peek_bind ?_
  obtain ⟨b, hb, -⟩ := hstanding.head?
  rw [hb, if_neg (by simp)]
  rw [← htokens] at hstanding
  exact (refuses_operations hfollows hdeepWritten hstanding.laid).bind

end GraphQL.Reading

namespace GraphQL

theorem Document.refused_of_deep {document : Document} (h : document.Regular)
    (hdeep : ¬ ∀ operation ∈ document.operations, operation.WithinLimit) {text : Bytes}
    (hspelled : document.SpelledBy text) :
    ∃ place, Document.ofText text = .error ⟨.nestsTooDeeply, place⟩ := by
  obtain ⟨tokens, hform, rest, hlaid, -⟩ := hspelled
  simp only [not_forall] at hdeep
  obtain ⟨operation, hoperation, hlimit⟩ := hdeep
  obtain ⟨place, hrun⟩ :=
    Reading.refuses_document h ⟨operation, hoperation, hlimit⟩ hform hlaid Location.start
  exact ⟨place, by rw [Document.ofText, hrun]⟩

theorem message_nestsTooDeeply :
    SyntaxProblem.nestsTooDeeply.message = utf8 "Document nests too deeply" := by decide

/-- A text that spells a document, well formed apart from its nesting, is accepted
exactly when the nesting is within the limit and no variable's type has as many lists
as the limit. Otherwise it is refused for its nesting. -/
theorem Document.ofText_nesting {document : Document} (h : document.Regular) {text : Bytes}
    (hspelled : document.SpelledBy text) :
    ((∃ found, Document.ofText text = .ok found) ↔
      document.nesting ≤ Reading.nestingLimit ∧ ∀ operation ∈ document.operations,
        ∀ definition ∈ operation.variableDefinitions,
          definition.type.listDepth ≠ Reading.nestingLimit) ∧
    ((¬ ∃ found, Document.ofText text = .ok found) → ∃ error,
      Document.ofText text = .error error ∧ error.message = utf8 "Document nests too deeply") := by
  rw [← Document.withinLimit_iff]
  by_cases hlimit : ∀ operation ∈ document.operations, operation.WithinLimit
  · obtain ⟨found, hfound, -⟩ :=
      Document.ofText_of_spelledBy (Document.wellFormed_iff.mpr ⟨h, hlimit⟩) hspelled
    exact ⟨⟨fun _ => hlimit, fun _ => ⟨found, hfound⟩⟩, fun hnone => absurd ⟨found, hfound⟩ hnone⟩
  · obtain ⟨place, herror⟩ := Document.refused_of_deep h hlimit hspelled
    have hnone : ¬ ∃ found, Document.ofText text = .ok found := by
      rintro ⟨found, hfound⟩
      rw [herror] at hfound
      cases hfound
    exact ⟨⟨fun hsome => absurd hsome hnone, fun h => absurd h hlimit⟩,
      fun _ => ⟨_, herror, message_nestsTooDeeply⟩⟩

theorem Document.ofText_nesting_query : ∃ document : Document,
    document.Regular ∧ document.SpelledBy (utf8 "query($v:[T]=[[1]]){a(x:{y:$v}){b}}") ∧
      document.nesting = 2 ∧
      ∃ found, Document.ofText (utf8 "query($v:[T]=[[1]]){a(x:{y:$v}){b}}") = .ok found := by
  have h : Document.ofText (utf8 "query($v:[T]=[[1]]){a(x:{y:$v}){b}}") = .ok ⟨[⟨.query, none,
      [⟨utf8 "v", .list (.named (utf8 "T")), some (.list ⟨1, 14⟩ [.list ⟨1, 15⟩ [.int ⟨1, 16⟩ 1]]),
        ⟨1, 7⟩⟩],
      [⟨none, utf8 "a", [⟨utf8 "x", .object ⟨1, 25⟩
        [⟨utf8 "y", .reference ⟨1, 28⟩ (utf8 "v"), ⟨1, 26⟩⟩], ⟨1, 23⟩⟩],
        [⟨none, utf8 "b", [], [], ⟨1, 33⟩⟩], ⟨1, 21⟩⟩], ⟨1, 1⟩⟩]⟩ := by decide +kernel
  obtain ⟨c, hrun⟩ := Document.run_of_ofText h
  obtain ⟨⟨tokens, hform, tail, hlaid, hgap⟩, hwellFormed⟩ := Reading.spec_of_document hrun
  have hregular := (Document.wellFormed_iff.mp hwellFormed).1
  have hspelled : Document.SpelledBy _ (utf8 "query($v:[T]=[[1]]){a(x:{y:$v}){b}}") :=
    ⟨tokens, hform, tail, hlaid, hgap.trailing⟩
  exact ⟨_, hregular, hspelled, by decide,
    (Document.ofText_nesting hregular hspelled).1.mpr (by decide)⟩

/-! ## §5 List types -/

/-- The type `T` inside a number of lists. -/
def TypeExpr.nestedLists : Nat → TypeExpr Bytes
  | 0 => .named (utf8 "T")
  | depth + 1 => .list (nestedLists depth)

namespace TypeExpr

theorem listDepth_nestedLists (depth : Nat) : (nestedLists depth).listDepth = depth := by
  induction depth with
  | zero => rfl
  | succ depth ih => rw [nestedLists, listDepth, ih]

theorem leaf_nestedLists (depth : Nat) : (nestedLists depth).leaf = utf8 "T" := by
  induction depth with
  | zero => rfl
  | succ depth ih => rw [nestedLists, leaf, ih]

theorem markedOnce_nestedLists (depth : Nat) : (nestedLists depth).MarkedOnce := by
  induction depth with
  | zero => trivial
  | succ depth ih => exact ih

end TypeExpr

theorem laid_sign (sign : Punctuator) {ts : List Token} {text rest : Bytes}
    (h : Laid ts text rest) :
    Laid (.punctuator sign :: ts) (sign.byte :: text) rest :=
  ⟨[], [sign.byte], text, rfl, .nil, .punctuator sign, trivial, h⟩

/-- A word with a sign after it, which ends it. -/
theorem laid_word {word : Bytes} (hword : isName word = true) (sign : Punctuator) {ts : List Token}
    {text rest : Bytes} (h : Laid ts text rest) :
    Laid (.name word :: .punctuator sign :: ts) (word ++ sign.byte :: text) rest := by
  have hstop : (Token.name word).StopsAt (sign.byte :: text) := by
    rintro _ ⟨⟩
    cases sign <;> decide
  exact ⟨[], word, sign.byte :: text, rfl, .nil, .name word hword, hstop, laid_sign sign h⟩

/-- The written form of a type, with a sign after it, is a layout of its tokens. -/
theorem laid_typeText (type : TypeExpr Bytes) (hname : isName type.leaf = true) (sign : Punctuator)
    {ts : List Token} {text rest : Bytes} (h : Laid ts text rest) :
    Laid (type.tokens ++ .punctuator sign :: ts) (type.text ++ sign.byte :: text) rest := by
  induction type generalizing sign ts text with
  | named name => exact laid_word hname sign h
  | list element ih =>
    simp only [TypeExpr.tokens, TypeExpr.text, List.cons_append, List.append_assoc]
    exact laid_sign .openBracket (ih hname .closeBracket (laid_sign sign h))
  | nonNull inner ih =>
    simp only [TypeExpr.tokens, TypeExpr.text, List.append_assoc]
    exact ih hname .bang (laid_sign sign h)

/-- A query that declares one variable, of a given type. -/
def Document.declaring (type : TypeExpr Bytes) : Document :=
  ⟨[⟨.query, none, [⟨utf8 "v", type, none, .start⟩], [⟨none, utf8 "a", [], [], .start⟩], .start⟩]⟩

/-- The text of that query. -/
def Document.declaringText (type : TypeExpr Bytes) : Bytes :=
  utf8 "query($v:" ++ type.text ++ utf8 "){a}"

theorem Document.spelledBy_declaring {type : TypeExpr Bytes} (hname : isName type.leaf = true) :
    (Document.declaring type).SpelledBy (Document.declaringText type) := by
  have hend : Laid [] [] [] := laid_nil.mpr rfl
  have hselections :=
    laid_sign .openBrace (laid_word (by decide : isName (utf8 "a") = true) .closeBrace hend)
  have hvariable := laid_sign .dollar (laid_word (by decide : isName (utf8 "v") = true) .colon
    (laid_typeText type hname .closeParen hselections))
  have hquery := laid_word (by decide : isName (utf8 "query") = true) .openParen hvariable
  have htext : Document.declaringText type = utf8 "query" ++ Punctuator.openParen.byte ::
      Punctuator.dollar.byte :: (utf8 "v" ++ Punctuator.colon.byte :: (type.text ++
        Punctuator.closeParen.byte :: Punctuator.openBrace.byte :: (utf8 "a" ++
          [Punctuator.closeBrace.byte]))) := by
    rw [Document.declaringText, List.append_assoc]
    rfl
  refine ⟨_, .cons .full .nil, [], ?_, .closed .nil⟩
  rw [htext]
  simpa [Document.declaring, Operation.tokens, OperationKind.keyword, operationNameTokens,
    parenthesisedTokens, VariableDefinition.tokens, defaultTokens, bracedTokens, Field.tokens,
    aliasTokens, argumentTokens, Field.nestedTokens] using hquery

theorem Document.regular_declaring {type : TypeExpr Bytes} (hname : isName type.leaf = true)
    (hmarks : type.MarkedOnce) : (Document.declaring type).Regular where
  nonempty := by simp [declaring]
  names := by simp [declaring]
  anonymous := by simp [declaring]
  operations := List.forall_mem_singleton.mpr
    { name := by simp
      variableNames := ⟨by simp; decide, by simp⟩
      definitions := List.forall_mem_singleton.mpr ⟨hname, hmarks, by simp, by simp⟩
      nonempty := by simp
      fields := List.forall_mem_singleton.mpr (Field.forall_nodes.mpr
        ⟨⟨by simp, by decide, ⟨by simp, by simp⟩, by simp⟩, by simp⟩) }

theorem Document.nesting_declaring (depth : Nat) :
    (Document.declaring (.nestedLists (depth + 1))).nesting = depth + 1 := by
  simp [nesting, declaring, Operation.nesting, VariableDefinition.nesting, greatest, Field.depth,
    Field.nestedDepth, TypeExpr.listDepth_nestedLists]

/-- A nesting that is within the limit may still be too deep: that of a type with as
many lists as the limit. -/
theorem Document.not_ofText_nestedLists :
    (Document.declaring (.nestedLists 256)).Regular ∧
      (Document.declaring (.nestedLists 256)).SpelledBy
        (Document.declaringText (.nestedLists 256)) ∧
      (Document.declaring (.nestedLists 256)).nesting ≤ Reading.nestingLimit ∧
      ¬ ∃ found, Document.ofText (Document.declaringText (.nestedLists 256)) = .ok found := by
  have hname : isName (TypeExpr.nestedLists 256).leaf = true := by
    rw [TypeExpr.leaf_nestedLists]
    decide
  have hregular := Document.regular_declaring hname (TypeExpr.markedOnce_nestedLists 256)
  have hspelled := Document.spelledBy_declaring hname
  have hdeep : ¬ ∀ operation ∈ (Document.declaring (.nestedLists 256)).operations,
      operation.WithinLimit := by
    intro hlimit
    have hdefinition := (hlimit _ (List.mem_singleton_self _)).definitions _
      (List.mem_singleton_self _)
    exact hdefinition.2 (TypeExpr.listDepth_nestedLists 256)
  obtain ⟨place, herror⟩ := Document.refused_of_deep hregular hdeep hspelled
  refine ⟨hregular, hspelled, (Document.nesting_declaring 255).le, ?_⟩
  rintro ⟨found, hfound⟩
  rw [herror] at hfound
  cases hfound

end GraphQL
