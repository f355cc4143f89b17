/-
GraphQL.Proofs.Reading.CompleteDocument — every layout of a well-formed document
is read, and gives that document.

  §1 Types       — by induction on the nesting budget.
  §2 Fields      — aliases, arguments, and the selections of one level.
  §3 Selections  — by induction on the nesting budget again.
  §4 Operations  — variables, and the two ways to begin.
  §5 Documents   — operations up to the end of the text.

The parts that may be absent are told by the token that follows, so their
lemmas speak of the text at that token and of what it may not be.
-/
import GraphQL.Proofs.Reading.CompleteLiteral
import GraphQL.Proofs.Reading.SoundDocument

namespace GraphQL.Reading

/-! ## §1 Types -/

theorem runs_accept_avoids {signs : List Punctuator} {tokens : List Token} {text rest : Bytes}
    (sign : Punctuator) (havoids : Avoids signs tokens) (hsign : sign ∈ signs)
    (h : Laid tokens text rest) :
    Runs (accept sign.byte) text fun found middle => found = false ∧ Laid tokens middle rest := by
  obtain ⟨t, ts, rfl⟩ := havoids.exists_cons
  refine (runs_skipBlanks h).bind fun _ settled hstanding => Runs.peek_bind ?_
  rw [if_neg (head?_ne_of_avoids sign hstanding havoids hsign)]
  exact .pure ⟨rfl, hstanding.laid⟩

/-- The type, marked as not null or left as it is. -/
def markedType (marked : Bool) (type : TypeExpr Bytes) : TypeExpr Bytes :=
  if marked then .nonNull type else type

theorem accepts_nonNullMark (type : TypeExpr Bytes) (marked : Bool) :
    Accepts (nonNullMark type) (if marked then [.punctuator .bang] else []) (Avoids [.bang])
      (· = markedType marked type) := by
  intro following text rest hok hlaid
  cases marked with
  | true =>
    apply (runs_accept .bang hlaid).bind_eq
    intro _ hmore
    exact .pure ⟨rfl, hmore⟩
  | false =>
    apply (runs_accept_avoids .bang hok (by simp) hlaid).bind_eq
    intro _ hmore
    exact .pure ⟨rfl, hmore⟩

theorem exists_markedType {type : TypeExpr Bytes} (h : type.MarkedOnce) :
    ∃ core marked, type = markedType marked core ∧ core.isNonNull = false := by
  cases type with
  | named name => exact ⟨.named name, false, rfl, rfl⟩
  | list element => exact ⟨.list element, false, rfl, rfl⟩
  | nonNull inner => exact ⟨inner, true, rfl, h.1⟩

theorem markedType_tokens (marked : Bool) (type : TypeExpr Bytes) :
    (markedType marked type).tokens =
      type.tokens ++ (if marked then [.punctuator .bang] else []) := by
  cases marked with
  | true => rfl
  | false => exact (List.append_nil _).symm

theorem fitsType_markedType {budget : Nat} {marked : Bool} {type : TypeExpr Bytes}
    (h : FitsType budget (markedType marked type)) : FitsType budget type := by
  cases marked with
  | true => exact ⟨h.leaf, h.marks.2, h.levels⟩
  | false => exact h

/-- A type whose mark, if it has one, is still to come: brackets around an element,
or a name. -/
theorem runs_typeWith {element : Reading (TypeExpr Bytes)} {budget : Nat}
    (helement : ∀ type, FitsType budget type →
      Accepts element type.tokens (Avoids [.bang]) (· = type))
    {core : TypeExpr Bytes} (hfits : FitsType (budget + 1) core) (hcore : core.isNonNull = false)
    {following : List Token} {text rest : Bytes} {goal : TypeExpr Bytes → Bytes → Prop}
    (hlaid : Laid (core.tokens ++ following) text rest)
    (hmark : ∀ middle, Laid following middle rest → Runs (nonNullMark core) middle goal) :
    Runs (typeWith element) text goal := by
  cases core with
  | nonNull inner => cases hcore
  | named word =>
    have havoids (ts : List Token) : Avoids [.openBracket] (.name word :: ts) :=
      avoids_cons (by simp)
    apply (runs_accept_avoids .openBracket (havoids _) (by simp) hlaid).bind_eq
    intro _ hmore
    apply (runs_name hmore).bind_eq
    exact hmark
  | list inner =>
    have hinner : FitsType budget inner :=
      ⟨hfits.leaf, hfits.marks, Nat.le_of_succ_le_succ hfits.levels⟩
    rw [TypeExpr.tokens, List.append_assoc, List.cons_append] at hlaid
    apply (runs_accept .openBracket hlaid).bind_eq
    intro _ hopen
    apply (helement inner hinner (avoids_cons (by simp)) hopen).bind_eq
    intro _ hclose
    exact (runs_expect .closeBracket hclose).bind fun _ middle h => hmark middle h

theorem accepts_typeWith {element : Reading (TypeExpr Bytes)} {budget : Nat}
    (helement : ∀ type, FitsType budget type →
      Accepts element type.tokens (Avoids [.bang]) (· = type))
    {type : TypeExpr Bytes} (hfits : FitsType (budget + 1) type) :
    Accepts (typeWith element) type.tokens (Avoids [.bang]) (· = type) := by
  intro following text rest hok hlaid
  obtain ⟨core, marked, rfl, hcore⟩ := exists_markedType hfits.marks
  rw [markedType_tokens, List.append_assoc] at hlaid
  apply runs_typeWith helement (fitsType_markedType hfits) hcore hlaid
  intro _ hmark
  exact accepts_nonNullMark core marked hok hmark

theorem levels_pos {α : Type} (type : TypeExpr α) : 0 < type.levels := by
  induction type with
  | named _ => exact Nat.one_pos
  | list _ _ => exact Nat.succ_pos _
  | nonNull _ ih => exact ih

theorem accepts_writtenType (budget : Nat) : ∀ type, FitsType budget type →
    Accepts (writtenType budget) type.tokens (Avoids [.bang]) (· = type) := by
  induction budget with
  | zero => exact fun type hfits => absurd hfits.levels (Nat.not_le.mpr (levels_pos type))
  | succ budget ih => exact fun type hfits => accepts_typeWith ih hfits

/-! ## §2 Fields -/

theorem avoids_append {signs : List Punctuator} {tokens following : List Token}
    (htokens : tokens = [] ∨ Avoids signs tokens) (hfollowing : Avoids signs following) :
    Avoids signs (tokens ++ following) := by
  rcases htokens with rfl | ⟨t, ts, rfl, ht⟩
  · exact hfollowing
  · exact ⟨t, ts ++ following, rfl, ht⟩

theorem avoids_parenthesised {α : Type} {signs : List Punctuator} (hsigns : .openParen ∉ signs)
    (item : α → List Token) (items : List α) :
    parenthesisedTokens item items = [] ∨ Avoids signs (parenthesisedTokens item items) := by
  cases items with
  | nil => exact .inl rfl
  | cons first more =>
    refine .inr ⟨_, _, rfl, ?_⟩
    intro sign hsign heq
    cases heq
    exact hsigns hsign

theorem runs_aliasAndName {aliasName : Option Bytes} {word : Bytes} {following : List Token}
    {text rest : Bytes} (hok : Avoids [.colon] following)
    (hlaid : Laid (aliasTokens aliasName ++ .name word :: following) text rest) :
    Runs aliasAndName text fun found middle =>
      found = (aliasName, word) ∧ Standing following middle rest := by
  obtain ⟨t, ts, rfl⟩ := hok.exists_cons
  cases aliasName with
  | none =>
    apply (runs_name hlaid).bind_eq
    intro _ hmore
    refine (runs_skipBlanks hmore).bind fun _ settled hstanding => Runs.peek_bind ?_
    have hcolon : settled.head? ≠ some (ascii ':') :=
      head?_ne_of_avoids .colon hstanding hok (by simp)
    rw [if_neg hcolon]
    exact .pure ⟨rfl, hstanding⟩
  | some first =>
    refine (runs_name hlaid).bind_eq ?_
    intro _ hmore
    refine (runs_skipBlanks hmore).bind fun _ settled hcolon => Runs.peek_bind ?_
    have hhead : settled.head? = some (ascii ':') := (head?_eq_byte hcolon .colon).mpr rfl
    rw [if_pos hhead]
    refine (runs_advance hcolon).bind fun _ _ hsecond => (runs_name hsecond).bind_eq ?_
    intro _ hfollowing
    refine (runs_skipBlanks hfollowing).bind fun _ _ hstanding => ?_
    exact .pure ⟨rfl, hstanding⟩

/-- No directive comes next, since no token begins like one. -/
theorem takes_noDirective {t : Token} {ts : List Token} {text rest : Bytes}
    (h : Standing (t :: ts) text rest) : Takes noDirective text (fun _ => True) text := by
  refine Runs.peek_bind ?_
  rw [if_neg (head?_ne h).1]
  exact .pure ⟨trivial, rfl⟩

theorem runs_noDirective_bind {α : Type} {f : Unit → Reading α} {goal : α → Bytes → Prop}
    {t : Token} {ts : List Token} {text rest : Bytes} (h : Standing (t :: ts) text rest)
    (hf : Runs (f ()) text goal) : Runs (noDirective >>= f) text goal := by
  refine Runs.bind (takes_noDirective h) ?_
  intro _ _ h
  obtain ⟨-, rfl⟩ := h
  exact hf

/-- A list in parentheses that may be left out, and the blanks after it. -/
theorem runs_optionalList {α β : Type} {list : Reading (List α)} {tokens : α → List Token}
    {strip : α → β} {items : List α} {following : List Token} {text rest : Bytes}
    (hlist : items ≠ [] → Accepts list (parenthesisedTokens tokens items) Anything
      fun found => found.map strip = items.map strip)
    (hok : Avoids [.openParen] following)
    (hstanding : Standing (parenthesisedTokens tokens items ++ following) text rest) :
    Runs (do
      if (← peek) = some (ascii '(') then
        let found ← list
        skipBlanks
        return found
      else return []) text fun found middle =>
        found.map strip = items.map strip ∧ Standing following middle rest := by
  obtain ⟨t, ts, rfl⟩ := hok.exists_cons
  apply Runs.peek_bind
  cases items with
  | nil =>
    have hparen : text.head? ≠ some (ascii '(') :=
      head?_ne_of_avoids .openParen hstanding hok (by simp)
    rw [if_neg hparen]
    exact .pure ⟨rfl, hstanding⟩
  | cons first more =>
    have hparen : text.head? = some (ascii '(') := (head?_eq_byte hstanding .openParen).mpr rfl
    rw [if_pos hparen]
    refine (hlist (List.cons_ne_nil first more) trivial hstanding.laid).bind
      fun found _ hfound => ?_
    refine (runs_skipBlanks hfound.2).bind fun _ _ hafter => ?_
    exact .pure ⟨hfound.1, hafter⟩

section Fields

variable {value : Reading Literal} {budget : Nat}

theorem runs_fieldArguments (hgives : Gives value Literal.tokens (Fits .allowed budget))
    (hvalue : ∀ l, Fits .allowed budget l →
      Accepts value l.tokens Anything (·.unplaced = l.unplaced))
    {arguments : List (Entry Literal)} (hnames : ProperNames (arguments.map (·.name)))
    (hvalues : ∀ a ∈ arguments, Fits .allowed budget a.value) {following : List Token}
    {text rest : Bytes} (hok : Avoids [.openParen] following)
    (hstanding : Standing (argumentTokens arguments ++ following) text rest) :
    Runs (fieldArguments value) text fun found middle =>
      found.map Entry.unplaced = arguments.map Entry.unplaced ∧
        Standing following middle rest := by
  refine runs_optionalList (fun hne => ?_) hok hstanding
  exact accepts_parenthesised Anything (gives_entry .duplicateArgument hgives)
    (fun _ _ _ hearlier hnamed => (accepts_entry _ hvalue hearlier hnamed).here)
    (fun _ => avoids_cons (by simp)) (fun _ _ => trivial) (fun _ => trivial) hne
    (follows_named.mpr ⟨hnames, hvalues⟩)

/-- The selections nested in a field, or those of an operation, are accepted. -/
def AcceptsNested (selections : Reading (List Field)) (budget : Nat) : Prop :=
  ∀ fields, fields ≠ [] → (∀ f ∈ fields, f.WellFormed ∧ f.depth + 1 ≤ budget) →
    Accepts selections (bracedTokens fields) Anything
      fun found => found.map Field.unplaced = fields.map Field.unplaced

/-- What may not follow a field: it would belong to the field. -/
def afterField : List Punctuator := [.colon, .openParen, .openBrace]

theorem Field.tokens_start (f : Field) (after : List Token) {signs : List Punctuator} :
    Avoids signs (f.tokens ++ after) := by
  obtain ⟨aliasName, name, arguments, selections, location⟩ := f
  cases aliasName <;> exact avoids_cons (by simp)

theorem avoids_weaken {signs more : List Punctuator} {tokens : List Token}
    (h : Avoids more tokens) (hsigns : ∀ sign ∈ signs, sign ∈ more) : Avoids signs tokens := by
  obtain ⟨t, ts, htokens, ht⟩ := h
  exact ⟨t, ts, htokens, fun sign hsign => ht sign (hsigns sign hsign)⟩

theorem avoids_nested {signs : List Punctuator} (hsigns : .openBrace ∉ signs)
    (fields : List Field) :
    Field.nestedTokens fields = [] ∨ Avoids signs (Field.nestedTokens fields) := by
  cases fields with
  | nil => exact .inl rfl
  | cons first more =>
    refine .inr (avoids_cons ?_)
    intro sign hsign heq
    cases heq
    exact hsigns hsign

theorem accepts_field {selections : Reading (List Field)}
    (hgives : Gives value Literal.tokens (Fits .allowed budget))
    (hvalue : ∀ l, Fits .allowed budget l →
      Accepts value l.tokens Anything (·.unplaced = l.unplaced))
    (hselections : AcceptsNested selections budget) {f : Field} (hfits : FitsField budget f) :
    Accepts (field value selections) f.tokens (Avoids afterField) (·.unplaced = f.unplaced) := by
  intro following text rest hok hlaid
  obtain ⟨hproper, hnested⟩ := Field.forall_nodes.mp hfits.wellFormed
  obtain ⟨hdepth, hnestedDepth⟩ := Field.depth_le.mp hfits.depth
  obtain ⟨aliasName, word, arguments, fields, written⟩ := f
  have hvalues : ∀ a ∈ arguments, Fits .allowed budget a.value :=
    fun a ha => ⟨hproper.arguments a ha, hdepth a ha, by simp⟩
  -- Each optional part ends where the next present one, or what follows, begins.
  have hafterArguments : Avoids [.openParen] (Field.nestedTokens fields ++ following) :=
    avoids_append (avoids_nested (by simp) fields) (avoids_weaken hok (by simp [afterField]))
  have hafterName : Avoids [.colon]
      (argumentTokens arguments ++ (Field.nestedTokens fields ++ following)) :=
    avoids_append (avoids_parenthesised (by simp) _ arguments)
      (avoids_append (avoids_nested (by simp) fields) (avoids_weaken hok (by simp [afterField])))
  simp only [Field.tokens, List.append_assoc, List.cons_append] at hlaid
  refine Runs.position_bind fun location => (runs_aliasAndName hafterName hlaid).bind ?_
  intro _ _ h
  obtain ⟨rfl, hnames⟩ := h
  refine (runs_fieldArguments hgives hvalue hproper.argumentNames hvalues hafterArguments
    hnames).bind fun found settled hfound => ?_
  obtain ⟨hfound, hstanding⟩ := hfound
  cases fields with
  | nil =>
    obtain ⟨t, ts, rfl⟩ := hok.exists_cons
    refine runs_noDirective_bind hstanding (Runs.peek_bind ?_)
    have hbrace : settled.head? ≠ some (ascii '{') :=
      head?_ne_of_avoids .openBrace hstanding hok (by simp [afterField])
    rw [if_neg hbrace]
    refine .pure ⟨?_, hstanding.laid⟩
    simp only [Field.unplaced, Field.nestedUnplaced_eq, hfound]
  | cons first more =>
    refine runs_noDirective_bind hstanding (Runs.peek_bind ?_)
    have hbrace : settled.head? = some (ascii '{') := (head?_eq_byte hstanding .openBrace).mpr rfl
    rw [if_pos hbrace]
    have hbraced : Laid (bracedTokens (first :: more) ++ following) settled rest := by
      have := hstanding.laid
      rwa [Field.nestedTokens_eq] at this
    refine (hselections (first :: more) (by simp)
      (fun f hf => ⟨hnested f hf, hnestedDepth f hf⟩) trivial hbraced).bind fun nested _ hmore => ?_
    refine .pure ⟨?_, hmore.2⟩
    simp only [Field.unplaced, Field.nestedUnplaced_eq, hfound, hmore.1]

theorem accepts_selection {field : Reading Field} {f : Field} {P : Field → Prop}
    (hfield : Accepts field f.tokens (Avoids afterField) P) :
    AcceptsHere (selection field) f.tokens (Avoids afterField) P := by
  intro following text rest hok hstanding
  have hstart : Avoids [] (f.tokens ++ following) := Field.tokens_start f following
  obtain ⟨t, ts, htokens, -⟩ := hstart
  refine Runs.peek_bind ?_
  rw [if_neg (head?_ne (htokens ▸ hstanding)).2]
  exact hfield hok hstanding.laid

theorem accepts_bracedFields {field : Reading Field} {P : Field → Prop}
    (hgives : Gives field Field.tokens P)
    (hfield : ∀ f, P f → Accepts field f.tokens (Avoids afterField) (·.unplaced = f.unplaced))
    {fields : List Field} (hne : fields ≠ []) (hfields : ∀ f ∈ fields, P f) :
    Accepts (bracedFields field) (bracedTokens fields) Anything
      fun found => found.map Field.unplaced = fields.map Field.unplaced := by
  intro following text rest _ hlaid
  have hall := accepts_itemsUntil .closeBrace (Avoids afterField) (Q := fun _ => P)
    (fun _ => gives_selection hgives) (fun _ _ f _ hf => accepts_selection (hfield f hf))
    (fun f => by simpa using Field.tokens_start f []) (fun f after => Field.tokens_start f after)
    (fun _ => avoids_cons (by simp [afterField])) (follows_const.mpr hfields)
  rw [bracedTokens, List.append_assoc, List.cons_append] at hlaid
  refine (runs_expect .openBrace hlaid).bind fun _ _ hopen => ?_
  refine (hall ⟨following, rfl⟩ hopen).bind fun found _ hfound => ?_
  have hfoundNe : ¬ found.isEmpty = true := by
    rw [List.isEmpty_iff]
    intro heq
    subst heq
    simp [hne] at hfound
  rw [if_neg hfoundNe]
  exact (runs_expect .closeBrace hfound.2).bind fun _ _ hclose => .pure ⟨hfound.1, hclose⟩

end Fields

/-! ## §3 Selections -/

theorem accepts_selections (budget : Nat) : AcceptsNested (selections budget) budget := by
  induction budget with
  | zero =>
    intro fields hne hfits
    obtain ⟨f, more, rfl⟩ := List.exists_cons_of_ne_nil hne
    exact absurd (hfits f (by simp)).2 (by simp)
  | succ budget ih =>
    intro fields hne hfits
    exact accepts_bracedFields
      (gives_field (gives_literal .allowed budget) (gives_selections budget))
      (fun f hf => accepts_field (gives_literal .allowed budget) (accepts_literal .allowed budget)
        ih hf)
      hne fun f hf => ⟨(hfits f hf).1, Nat.le_of_succ_le_succ (hfits f hf).2⟩

/-! ## §4 Operations -/

theorem accepts_defaultValue {default : Option Literal}
    (hfits : ∀ value ∈ default, Fits .refused nestingLimit value) :
    Accepts defaultValue (defaultTokens default) (Avoids [.equals])
      fun found => found.map Literal.unplaced = default.map Literal.unplaced := by
  intro following text rest hok hlaid
  cases default with
  | none =>
    apply (runs_accept_avoids .equals hok (by simp) hlaid).bind_eq
    intro _ hmore
    exact .pure ⟨rfl, hmore⟩
  | some value =>
    apply (runs_accept .equals hlaid).bind_eq
    intro _ hvalue
    refine (accepts_literal .refused nestingLimit value (hfits value rfl) trivial hvalue).map ?_
    intro found _ h
    obtain ⟨hfound, hmore⟩ := h
    exact ⟨congrArg some hfound, hmore⟩

/-- What may not follow a variable definition: it would belong to it. -/
def afterDefinition : List Punctuator := [.bang, .equals]

theorem accepts_variableDefinition {earlier sources : List VariableDefinition}
    {d : VariableDefinition}
    (hearlier : earlier.map VariableDefinition.unplaced = sources.map VariableDefinition.unplaced)
    (hnamed : Named (·.name) VariableDefinition.WellFormed sources d) :
    Accepts (variableDefinition earlier) d.tokens (Avoids afterDefinition)
      (·.unplaced = d.unplaced) := by
  obtain ⟨-, hd, hnew⟩ := hnamed
  intro following text rest hok hlaid
  obtain ⟨word, type, default, written⟩ := d
  have hnames : earlier.map (·.name) = sources.map (·.name) :=
    map_eq_of_unplaced VariableDefinition.name hearlier fun _ => rfl
  have htype : FitsType nestingLimit type := ⟨hd.typeName, hd.marks, hd.levels⟩
  have hdefault : ∀ value ∈ default, Fits .refused nestingLimit value :=
    fun v hv => ⟨hd.default v hv, hd.depth v hv, fun _ => hd.constant v hv⟩
  have hafterType : Avoids [.bang] (defaultTokens default ++ following) := by
    refine avoids_append ?_ (avoids_weaken hok (by simp [afterDefinition]))
    cases default with
    | none => exact .inl rfl
    | some value => exact .inr (avoids_cons (by simp))
  simp only [VariableDefinition.tokens, List.append_assoc, List.cons_append] at hlaid
  refine Runs.position_bind fun location => (runs_expect .dollar hlaid).bind fun _ _ hname => ?_
  apply (runs_name hname).bind_eq
  intro _ hcolon
  rw [any_eq_false_of_unplaced hnames hnew, if_neg (by simp)]
  refine (runs_expect .colon hcolon).bind fun _ _ htypeText => ?_
  refine (accepts_writtenType nestingLimit type htype hafterType htypeText).bind_eq ?_
  intro _ hdefaultText
  refine (accepts_defaultValue hdefault (avoids_weaken hok (by simp [afterDefinition]))
    hdefaultText).bind fun found _ hfound => .pure ⟨?_, hfound.2⟩
  simp only [VariableDefinition.unplaced, hfound.1]

theorem runs_variableDefinitions {definitions : List VariableDefinition}
    (hnames : ProperNames (definitions.map (·.name)))
    (hdefinitions : ∀ d ∈ definitions, d.WellFormed) {following : List Token} {text rest : Bytes}
    (hok : Avoids [.openParen] following)
    (hstanding : Standing (parenthesisedTokens VariableDefinition.tokens definitions ++ following)
      text rest) :
    Runs variableDefinitions text fun found middle =>
      found.map VariableDefinition.unplaced = definitions.map VariableDefinition.unplaced ∧
        Standing following middle rest := by
  refine runs_optionalList (fun hne => ?_) hok hstanding
  exact accepts_parenthesised (Avoids afterDefinition) gives_variableDefinition
    (fun _ _ _ hearlier hnamed => (accepts_variableDefinition hearlier hnamed).here)
    (fun _ => avoids_cons (by simp)) (fun _ _ => avoids_cons (by simp [afterDefinition]))
    (fun _ => avoids_cons (by simp [afterDefinition])) hne
    (follows_named.mpr ⟨hnames, hdefinitions⟩)

theorem runs_operationName {found : Option Bytes} {t : Token} {ts : List Token} {text rest : Bytes}
    (ht : ∀ word, t ≠ .name word) (hlaid : Laid (operationNameTokens found ++ t :: ts) text rest) :
    Runs operationName text fun name middle => name = found ∧ Standing (t :: ts) middle rest := by
  cases found with
  | none =>
    refine (runs_skipBlanks hlaid).bind fun _ settled hstanding => Runs.peek_bind ?_
    obtain ⟨b, hb, hbegins⟩ := hstanding.head?
    have hname : ¬ isNameStart b = true := by
      rw [isNameStart_iff hbegins]
      exact fun ⟨word, hword⟩ => ht word hword
    rw [hb, if_neg (by simpa using hname)]
    exact .pure ⟨rfl, hstanding⟩
  | some word =>
    refine (runs_skipBlanks hlaid).bind fun _ settled hstanding => Runs.peek_bind ?_
    obtain ⟨b, hb, hbegins⟩ := hstanding.head?
    have hname : isNameStart b = true := hbegins
    rw [hb, if_pos (by simpa using hname)]
    apply (runs_name hstanding.laid).bind_eq
    intro _ hmore
    refine (runs_skipBlanks hmore).bind fun _ _ hstanding => ?_
    exact .pure ⟨rfl, hstanding⟩

theorem operationKind_keyword (location : Location) (kind : OperationKind) :
    operationKind location kind.keyword = pure kind := by
  cases kind <;> rfl

/-- After its name an operation goes on with its variables, or with its selections. -/
theorem exists_sign_after_name (o : Operation) (following : List Token) :
    ∃ sign ts, parenthesisedTokens VariableDefinition.tokens o.variableDefinitions
      ++ (bracedTokens o.selections ++ following) = .punctuator sign :: ts := by
  cases o.variableDefinitions with
  | nil => exact ⟨.openBrace, _, rfl⟩
  | cons first more => exact ⟨.openParen, _, rfl⟩

theorem accepts_operation {o : Operation} (ho : o.WellFormed) {tokens : List Token}
    (hform : o.Form tokens) :
    AcceptsHere operation tokens Anything (·.unplaced = o.unplaced) := by
  intro following text rest _ hstanding
  have hfields : ∀ f ∈ o.selections, f.WellFormed ∧ f.depth + 1 ≤ nestingLimit :=
    fun f hf => ⟨ho.fields f hf, ho.depth f hf⟩
  have hselections := accepts_selections nestingLimit o.selections ho.nonempty hfields
  refine Runs.position_bind fun location => Runs.peek_bind ?_
  cases hform with
  | short hkind hname hdefinitions =>
    have hbrace : text.head? = some (ascii '{') := (head?_eq_byte hstanding .openBrace).mpr rfl
    rw [if_pos hbrace]
    refine (hselections trivial hstanding.laid).bind fun found _ hfound => .pure ⟨?_, hfound.2⟩
    simp [Operation.unplaced, hkind, hname, hdefinitions, hfound.1]
  | full =>
    simp only [Operation.tokens, List.append_assoc, List.cons_append] at hstanding
    have hbrace : text.head? ≠ some (ascii '{') := fun hhead => by
      cases (head?_eq_byte hstanding .openBrace).mp hhead
    rw [if_neg hbrace]
    refine (runs_name hstanding.laid).bind_eq ?_
    intro _ hname
    rw [operationKind_keyword, pure_bind]
    obtain ⟨sign, ts, hsign⟩ := exists_sign_after_name o following
    rw [hsign] at hname
    apply (runs_operationName (by simp) hname).bind_eq
    intro _ hdefinitions
    rw [← hsign] at hdefinitions
    refine (runs_variableDefinitions ho.variableNames ho.definitions
      (avoids_cons (by simp)) hdefinitions).bind fun definitions settled hfound => ?_
    obtain ⟨hdefinitions, hbraced⟩ := hfound
    have hselected : Runs operationSelections settled fun found middle =>
        found.map Field.unplaced = o.selections.map Field.unplaced ∧
          Laid following middle rest := by
      refine runs_noDirective_bind hbraced (Runs.peek_bind ?_)
      have hopen : settled.head? = some (ascii '{') := (head?_eq_byte hbraced .openBrace).mpr rfl
      rw [if_pos hopen]
      exact hselections trivial hbraced.laid
    refine hselected.bind fun found _ hfound => .pure ⟨?_, hfound.2⟩
    simp only [Operation.unplaced, hdefinitions, hfound.1]

/-! ## §5 Documents -/

theorem exists_token_of_form {o : Operation} {tokens : List Token} (h : o.Form tokens) :
    ∃ t ts, tokens = t :: ts := by
  cases h with
  | full => exact ⟨_, _, rfl⟩
  | short => exact ⟨_, _, rfl⟩

theorem accepts_nextOperation {earlier sources : List Operation} {o : Operation}
    (hearlier : earlier.map Operation.unplaced = sources.map Operation.unplaced)
    (hnew : ∀ e ∈ sources, o.name ≠ none → e.name ≠ o.name) (ho : o.WellFormed)
    {tokens : List Token} (hform : o.Form tokens) :
    Accepts (nextOperation earlier) tokens Anything
      fun found => ∃ b, found = some b ∧ b.unplaced = o.unplaced := by
  intro following text rest hok hlaid
  obtain ⟨t, ts, htokens⟩ := exists_token_of_form hform
  rw [htokens] at hlaid
  refine (runs_skipBlanks hlaid).bind fun _ settled hstanding => Runs.peek_bind ?_
  obtain ⟨b, hb, -⟩ := hstanding.head?
  rw [hb]
  change Standing ((t :: ts) ++ following) settled rest at hstanding
  rw [← htokens] at hstanding
  refine (accepts_operation ho hform hok hstanding).bind fun found _ hfound => ?_
  have hname := congrArg Operation.name hfound.1
  change found.name = o.name at hname
  have hnames : earlier.map (·.name) = sources.map (·.name) :=
    map_eq_of_unplaced Operation.name hearlier fun _ => rfl
  have hfresh : (found.name.isSome && earlier.any (·.name == found.name)) = false := by
    rw [hname]
    cases hnamed : o.name with
    | none => rfl
    | some word =>
      rw [any_eq_false_of_unplaced hnames fun e he => hnamed ▸ hnew e he (by simp [hnamed]),
        Bool.and_false]
  rw [hfresh, if_neg (by simp)]
  exact .pure ⟨⟨found, rfl, hfound.1⟩, hfound.2⟩

theorem runs_nextOperation_end {earlier : List Operation} {text : Bytes} (h : Trailing text) :
    Runs (nextOperation earlier) text fun found _ => found = none := by
  have hskip : Runs skipBlanks text fun _ middle => middle = [] :=
    fun location => ⟨(), _, skipBlanks_ok.mpr rfl, skipFrom_trailing h location⟩
  refine hskip.bind ?_
  rintro _ _ rfl
  exact Runs.peek_bind (.pure rfl)

/-- The step takes the operations one after another, up to the end of the text. -/
theorem repeats_of_forms {later : List Operation} {tokens : List Token}
    (hforms : FormOfAll later tokens) {rest : Bytes} (hrest : Trailing rest) :
    ∀ (earlier sources : List Operation) {text : Bytes}, (∀ o ∈ later, o.WellFormed) →
      (later.filterMap (·.name)).Nodup →
      (∀ e ∈ sources, ∀ o ∈ later, o.name ≠ none → e.name ≠ o.name) →
      earlier.map Operation.unplaced = sources.map Operation.unplaced → Laid tokens text rest →
      ∀ location, ∃ found c', Repeats nextOperation earlier ⟨text, location⟩ found c' ∧
        found.map Operation.unplaced = later.map Operation.unplaced := by
  induction hforms with
  | nil =>
    intro earlier sources text _ _ _ _ hlaid location
    obtain rfl := laid_nil.mp hlaid
    obtain ⟨_, c', hrun, rfl⟩ := runs_nextOperation_end hrest location
    exact ⟨[], c', .stop hrun, rfl⟩
  | @cons o later tokens more hform _ ih =>
    intro earlier sources text hwellFormed hnodup hnew hearlier hlaid location
    obtain ⟨ho, hlater⟩ := List.forall_mem_cons.mp hwellFormed
    have hnewHead : ∀ e ∈ sources, o.name ≠ none → e.name ≠ o.name :=
      fun e he => hnew e he o (by simp)
    obtain ⟨_, middle, hrun, ⟨b, rfl, hb⟩, hmore⟩ :=
      accepts_nextOperation hearlier hnewHead ho hform trivial hlaid location
    have hnodupLater : (later.filterMap (·.name)).Nodup := by
      cases hname : o.name with
      | none => simpa [hname] using hnodup
      | some word =>
        rw [List.filterMap_cons_some hname, List.nodup_cons] at hnodup
        exact hnodup.2
    have hnewLater : ∀ e ∈ o :: sources, ∀ p ∈ later, p.name ≠ none → e.name ≠ p.name := by
      rw [List.forall_mem_cons]
      refine ⟨fun p hp hnamed heq => ?_, fun e he p hp => hnew e he p (by simp [hp])⟩
      obtain ⟨word, hword⟩ := Option.ne_none_iff_exists'.mp hnamed
      rw [List.filterMap_cons_some (heq.trans hword), List.nodup_cons] at hnodup
      exact hnodup.1 (List.mem_filterMap.mpr ⟨p, hp, hword⟩)
    obtain ⟨found, c', hrepeats, hfound⟩ := ih (b :: earlier) (o :: sources) hlater
      hnodupLater hnewLater (by simp [hb, hearlier]) hmore middle.location
    exact ⟨b :: found, c', .next hrun hrepeats, by simp [hb, hfound]⟩

/-- Every layout of a well-formed document is read, and gives that document. -/
theorem runs_document {d : Document} (hd : d.WellFormed) {tokens : List Token}
    (hform : d.Form tokens) {text rest : Bytes} (hlaid : Laid tokens text rest)
    (hrest : Trailing rest) : Runs document text fun found _ => found.unplaced = d.unplaced := by
  obtain ⟨operations⟩ := d
  obtain ⟨t, ts, htokens⟩ : ∃ t ts, tokens = t :: ts := by
    cases hform with
    | nil => exact absurd rfl hd.nonempty
    | cons hfirst _ =>
      obtain ⟨t, ts, rfl⟩ := exists_token_of_form hfirst
      exact ⟨t, _, rfl⟩
  rw [htokens] at hlaid
  refine (runs_skipBlanks hlaid).bind fun _ settled hstanding => Runs.peek_bind ?_
  obtain ⟨b, hb, -⟩ := hstanding.head?
  rw [hb, if_neg (by simp)]
  have hmany : Runs (many nextOperation) settled fun found _ =>
      found.map Operation.unplaced = operations.map Operation.unplaced := by
    intro location
    obtain ⟨found, c', hrepeats, hfound⟩ := repeats_of_forms hform hrest [] [] hd.operations
      hd.names (by simp) rfl (htokens ▸ hstanding.laid) location
    exact ⟨found, c', (many_ok progresses_nextOperation).mpr hrepeats, hfound⟩
  refine hmany.bind fun found _ hfound => ?_
  have hdocument : Document.unplaced ⟨found⟩ = Document.unplaced ⟨operations⟩ :=
    congrArg Document.mk hfound
  split
  · rename_i anonymous hanonymous
    have hnames : found.map (·.name) = operations.map (·.name) :=
      map_eq_of_unplaced Operation.name hfound fun _ => rfl
    have hlength : found.length = operations.length := by simpa using congrArg List.length hfound
    have hnone : none ∈ operations.map (·.name) := by
      rw [← hnames]
      exact List.mem_map.mpr ⟨anonymous, List.mem_of_find?_eq_some hanonymous,
        by simpa using List.find?_some hanonymous⟩
    have halone : ¬ 1 < found.length := fun hmany => by
      obtain ⟨o, ho, hname⟩ := List.mem_map.mp hnone
      exact hd.anonymous (hlength ▸ hmany) o ho hname
    rw [if_neg halone]
    exact .pure hdocument
  · exact .pure hdocument

end GraphQL.Reading

namespace GraphQL

/-- A well-formed document is read from every text that spells it, positions
apart. -/
theorem Document.ofText_of_spelledBy {document : Document} (h : document.WellFormed) {text : Bytes}
    (hspelled : document.SpelledBy text) :
    ∃ found, Document.ofText text = .ok found ∧ found.unplaced = document.unplaced := by
  obtain ⟨tokens, hform, rest, hlaid, hrest⟩ := hspelled
  obtain ⟨found, c, hrun, hfound⟩ :=
    Reading.runs_document h hform hlaid hrest Location.start
  exact ⟨found, by rw [Document.ofText, hrun], hfound⟩

end GraphQL
