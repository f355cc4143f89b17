/-
GraphQL.Proofs.Schema.Defaults — the defaults of a schema that is built.

  §1 Schemas   — field names and scalars of every schema that is built.
  §2 Turns     — results of a turn in the schema that is built.
  §3 Defaults  — when stored defaults are coerced to themselves.

An input object type may be used in a default before the defaults of its own
fields have had their turn. What is stored then is completed by defaults as
they were written. It is coerced to itself exactly if these conform already.
-/
import GraphQL.Proofs.Schema.Declared
import GraphQL.Proofs.Schema.Settling
import GraphQL.Proofs.Value.Equality

namespace GraphQL

open MonadAttach (CanReturn)
open LawfulMonadAttach (canReturn_bind_imp' canReturn_map_imp' eq_of_canReturn_pure)

/-! ## §1 Schemas -/

/-- Every scalar of the definitions keeps what it gives. -/
def Definitions.ScalarsIdempotent {m : Type → Type} [Monad m] [MonadAttach m]
    (definitions : Definitions m) : Prop :=
  ∀ scalar ∈ definitions.scalars, ∀ coerce, scalar.coercer = some coerce → coerce.Idempotent

variable {m : Type → Type} [Monad m] [LawfulMonad m] [MonadAttach m] [LawfulMonadAttach m]

namespace Build

variable {definitions : Definitions m} {written : Schema m}

omit [LawfulMonad m] [MonadAttach m] [LawfulMonadAttach m] in
theorem distinctFields_of_arena (h : arena definitions = .ok written) :
    written.DistinctFields := by
  obtain ⟨hdeclared, rfl⟩ := (checks_arena definitions).of_ok h
  intro id declared hbody
  obtain ⟨declaration, hmem, hmade⟩ := Definitions.declaration_of_body? hbody
  rcases Definitions.mem_declarations.1 hmem with ⟨_, _, rfl⟩ | ⟨_, _, rfl⟩ | ⟨input, hinput, rfl⟩
  · cases hmade
  · cases hmade
  · cases hmade
    rw [List.map_map]
    exact (hdeclared.inputs input hinput).fields.distinct

theorem scalarsIdempotent_of_arena (hscalars : definitions.ScalarsIdempotent)
    (h : arena definitions = .ok written) : written.ScalarsIdempotent := by
  obtain ⟨hdeclared, rfl⟩ := (checks_arena definitions).of_ok h
  have hbuiltIn : ∀ scalar ∈ Scalar.builtIn,
      Coercer.Idempotent (m := m) fun value => return scalar.2 value := fun scalar hscalar =>
    idempotent_of_builtInTypes (List.mem_map_of_mem hscalar) rfl
  exact fun _ _ => hdeclared.scalars hbuiltIn hscalars

theorem eq_ok_of_checked {α : Type} {result : Except SchemaProblem α} {a : α}
    (h : CanReturn (checked result : Building m α) a) : result = .ok a := by
  have heq := eq_of_canReturn_pure (m := m) h
  cases result with
  | error problem => cases heq
  | ok value =>
    cases heq
    rfl

omit [Monad m] [LawfulMonad m] [MonadAttach m] [LawfulMonadAttach m] in
/-- Choosing the types at which operations start leaves all types as they are. -/
theorem types_withRoots {schema rooted : Schema m}
    (h : withRoots definitions schema = .ok rooted) : rooted.types = schema.types := by
  unfold withRoots at h
  dsimp only at h
  split at h
  · cases h
  · split at h
    · cases h
      rfl
    · split at h
      · cases h
      · cases h
        rfl

/-- The parts of a build that gives a schema. -/
theorem of_build [MonadLog m] {schema : Schema m} (h : CanReturn definitions.build schema) :
    ∃ written settled, arena definitions = .ok written ∧
      CanReturn (settleDefaults written) settled ∧ schema.types = settled.types := by
  obtain ⟨written, hwritten, h⟩ := canReturn_bind_imp' h
  obtain ⟨settled, hsettled, h⟩ := canReturn_bind_imp' h
  obtain ⟨rooted, hrooted, h⟩ := canReturn_bind_imp' h
  obtain ⟨_, _, h⟩ := canReturn_bind_imp' h
  cases eq_of_canReturn_pure h
  exact ⟨written, settled, eq_ok_of_checked hwritten, hsettled,
    types_withRoots (eq_ok_of_checked hrooted)⟩

end Build

/-- A build in passes, each of which succeeds, of definitions whose scalars do nothing else
than to give a value. -/
theorem Definitions.build_of_passes {definitions : Definitions Id}
    {written settled schema : Schema Id} (hwritten : Build.arena definitions = .ok written)
    (hsettled : (Build.settleDefaults written).run = Except.ok settled)
    (hrooted : Build.withRoots definitions settled = .ok schema) :
    definitions.build.run = Except.ok schema := by
  have hsettled : Build.settleDefaults written = pure settled := hsettled
  unfold build
  rw [hwritten]
  show (Build.settleDefaults written >>= fun schema =>
    Build.checked (Build.withRoots definitions schema) >>= fun schema => _).run = _
  rw [hsettled, pure_bind, hrooted]
  rfl

omit [Monad m] [LawfulMonad m] [MonadAttach m] [LawfulMonadAttach m] in
theorem Schema.DistinctFields.of_sameOutline {schema other : Schema m}
    (h : schema.DistinctFields) (hsame : schema.SameOutline other) : other.DistinctFields := by
  intro id declared hbody
  obtain ⟨written, hwritten, houtline⟩ := hsame.symm.body?_inputObject hbody
  have hnames := congrArg (List.map Argument.name) houtline
  simp only [List.map_map, Function.comp_def, Argument.outline] at hnames
  rw [hnames]
  exact h id written hwritten

omit [LawfulMonad m] [LawfulMonadAttach m] in
theorem Schema.ScalarsIdempotent.of_sameOutline {schema other : Schema m}
    (h : schema.ScalarsIdempotent) (hsame : schema.SameOutline other) :
    other.ScalarsIdempotent :=
  fun id coerce hbody => h id coerce (hsame.symm.body?_scalar hbody)

omit [Monad m] [LawfulMonad m] [MonadAttach m] [LawfulMonadAttach m] in
/-- What a position consists of is read off the types. -/
theorem Schema.body?_eq_of_types {schema other : Schema m} (h : schema.types = other.types)
    (id : TypeId) : schema.body? id = other.body? id := by
  rw [body?, body?, type?, type?, h]

namespace Definitions

variable [MonadLog m] {definitions : Definitions m} {schema : Schema m}

/-- A schema that is built has the outline of the one that its definitions spell. -/
theorem sameOutline_of_build (h : CanReturn definitions.build schema) :
    ∃ written, Build.arena definitions = .ok written ∧ written.SameOutline schema := by
  obtain ⟨written, settled, hwritten, hsettled, heq⟩ := Build.of_build h
  have hmidway := (Build.history_settleDefaults hsettled).midway
  refine ⟨written, hwritten, hmidway.outline.trans fun id => ?_⟩
  rw [Schema.body?_eq_of_types heq]

/-- Input fields have different names in every schema that is built. -/
theorem distinctFields_of_build (h : CanReturn definitions.build schema) :
    schema.DistinctFields := by
  obtain ⟨written, hwritten, hsame⟩ := sameOutline_of_build h
  exact (Build.distinctFields_of_arena hwritten).of_sameOutline hsame

/-- Scalars keep what they give if they are defined so. -/
theorem scalarsIdempotent_of_build (hscalars : definitions.ScalarsIdempotent)
    (h : CanReturn definitions.build schema) : schema.ScalarsIdempotent := by
  obtain ⟨written, hwritten, hsame⟩ := sameOutline_of_build h
  exact (Build.scalarsIdempotent_of_arena hscalars hwritten).of_sameOutline hsame

end Definitions

/-! ## §2 Turns -/

/-- The arguments of an object's fields, or the fields of an input object. -/
def TypeBody.arguments {m : Type → Type} : TypeBody m → List Argument
  | .scalar _ => []
  | .object fields => fields.flatMap (·.arguments)
  | .inputObject declared => declared

/-- The default at a position of an input type has its turn before the one at
`index` of the type `id`, or it conforms as it is. -/
def Schema.InTurn (schema : Schema m) (id index owner position : Nat) : Prop :=
  Before owner position id index ∨ DefaultConformsAt schema.inputBody? owner position

/-- Each default is completed by those that have their turn before it, or by
those that conform as they are. -/
structure Schema.CompletedInTurn (schema : Schema m) : Prop where
  inputs : ∀ id index field default, declaredAt? schema.inputBody? id index = some field →
    field.default = some default → ∀ owner position,
    Completes schema.inputBody? field.type default owner position →
    schema.InTurn id index owner position
  objects : ∀ id fields, schema.body? id = some (.object fields) →
    ∀ argument ∈ fields.flatMap (·.arguments), ∀ default, argument.default = some default →
    ∀ owner position, Completes schema.inputBody? argument.type default owner position →
    schema.InTurn id 0 owner position

omit [Monad m] [LawfulMonad m] [MonadAttach m] [LawfulMonadAttach m] in
theorem Schema.lt_of_body? {schema : Schema m} {id : TypeId} {body : TypeBody m}
    (h : schema.body? id = some body) : id < schema.types.length := by
  obtain ⟨type, htype, _⟩ := Option.map_eq_some_iff.1 h
  exact (List.getElem?_eq_some_iff.1 htype).1

omit [LawfulMonad m] [LawfulMonadAttach m] in
theorem Schema.lt_of_declaredAt? {schema : Schema m} {owner : TypeId} {position : Nat}
    {field : Argument} (h : declaredAt? schema.inputBody? owner position = some field) :
    owner < schema.types.length := by
  obtain ⟨declared, htype, _⟩ := exists_of_declaredAt? h
  exact lt_of_body? (body?_of_inputBody? htype)

/-- Whether a default conforms depends on the default and on outlines. -/
theorem DefaultConformsAt.of_sameOutline {types types' : TypeId → Option InputBody}
    {owner : TypeId} {position : Nat} (h : DefaultConformsAt types owner position)
    (hsame : SameOutline types types')
    (hat : declaredAt? types owner position = declaredAt? types' owner position) :
    DefaultConformsAt types' owner position := by
  intro field hfield
  rw [← hat] at hfield
  exact (h field hfield).of_sameOutline hsame

namespace Build.Midway

variable {start final turn : Schema m} {id index : Nat} {written stored : Argument}

omit [LawfulMonad m] [LawfulMonadAttach m]

/-- A default conforms as it is stored, if it is completed in turn and the
earlier defaults conform as they are stored. -/
theorem defaultConforms (h : Midway start final turn id index) (houtline : start.SameOutline final)
    (hscalars : start.ScalarsIdempotent) (hstored : SettledAs turn written stored)
    (hturns : ∀ default, written.default = some default → ∀ owner position,
      Completes start.inputBody? written.type default owner position →
      start.InTurn id index owner position)
    (hearlier : ∀ owner position, Before owner position id index →
      DefaultConformsAt final.inputBody? owner position) :
    stored.DefaultConforms final.inputBody? := by
  intro result hresult
  cases hstored with
  | unset hnone =>
    rw [hnone] at hresult
    cases hresult
  | coerced hdefault hcoerces =>
    cases hresult
    have hback : turn.SameOutline final := h.outline.symm.trans houtline
    have hnull : turn.NullFree := (hscalars.of_sameOutline h.outline).nullFree
    refine Conforms.of_sameOutline hback.inputBody?
      (hcoerces.conforms hnull fun owner position hc => ?_)
    by_cases hbefore : Before owner position id index
    · exact (hearlier owner position hbefore).of_sameOutline hback.symm.inputBody?
        (h.stored owner position hbefore).symm
    · have hinTurn := hturns _ hdefault owner position
        (hc.of_sameOutline h.outline.symm.inputBody?)
      exact (hinTurn.resolve_left hbefore).of_sameOutline h.outline.inputBody?
        (h.written owner position hbefore).symm

/-- A default that conforms as it is stored is completed in turn. -/
theorem inTurn (h : Midway start final turn id index) (houtline : start.SameOutline final)
    (hnames : start.DistinctFields) (hstored : SettledAs turn written stored)
    (hconforms : stored.DefaultConforms final.inputBody?) {default : Value}
    (hdefault : written.default = some default) {owner position : Nat}
    (hcompletes : Completes start.inputBody? written.type default owner position) :
    start.InTurn id index owner position := by
  cases hstored with
  | unset hnone =>
    rw [hnone] at hdefault
    cases hdefault
  | coerced hgiven hcoerces =>
    rw [hgiven] at hdefault
    cases hdefault
    refine or_iff_not_imp_left.2 fun hbefore => ?_
    have hturn : DefaultConformsAt turn.inputBody? owner position :=
      (hcompletes.of_sameOutline h.outline.inputBody?).defaultConformsAt
        (hnames.of_sameOutline h.outline) hcoerces
        ((hconforms _ rfl).of_sameOutline (houtline.symm.trans h.outline).inputBody?)
    exact hturn.of_sameOutline h.outline.symm.inputBody? (h.written owner position hbefore)

end Build.Midway

namespace Build

variable {start final : Schema m}

omit [LawfulMonad m] [LawfulMonadAttach m] in
/-- An input field of the start, and how it is stored. -/
theorem History.exists_of_declaredAt? (h : History start final start.types.length 0)
    {owner : TypeId} {position : Nat} {field : Argument}
    (hfield : declaredAt? start.inputBody? owner position = some field) :
    ∃ turn stored, Midway start final turn owner position ∧ SettledAs turn field stored ∧
      declaredAt? final.inputBody? owner position = some stored :=
  h.inputs owner position field (.inl (Schema.lt_of_declaredAt? hfield)) hfield

omit [LawfulMonad m] [LawfulMonadAttach m] in
/-- Defaults of input fields that are completed in turn conform as they are stored. -/
theorem History.defaultConformsAt (h : History start final start.types.length 0)
    (hscalars : start.ScalarsIdempotent) (hturns : start.CompletedInTurn) (id index : Nat) :
    DefaultConformsAt final.inputBody? id index := by
  -- By induction along the turns: whatever completed the default out of turn
  -- conforms as it was written, and the rest was stored before.
  induction id, index using Before.induction with
  | h id index ih =>
    intro field hfield
    obtain ⟨written, hwritten, _⟩ :=
      declaredAt?_of_sameOutline h.midway.outline.symm.inputBody? hfield
    obtain ⟨turn, stored, hmidway, hstored, hfound⟩ := h.exists_of_declaredAt? hwritten
    rw [hfield] at hfound
    cases hfound
    exact hmidway.defaultConforms h.midway.outline hscalars hstored
      (fun default => hturns.inputs id index written default hwritten) ih

omit [LawfulMonad m] [LawfulMonadAttach m] in
/-- The arguments of an object at the start, and how they are stored. -/
theorem History.forall₂_of_object (h : History start final start.types.length 0)
    {id : TypeId} {fields : List (FieldType m)} (hbody : start.body? id = some (.object fields)) :
    ∃ turn stored, Midway start final turn id 0 ∧ final.body? id = some (.object stored) ∧
      List.Forall₂ (SettledAs turn) (fields.flatMap (·.arguments))
        (stored.flatMap (·.arguments)) := by
  obtain ⟨turn, stored, hmidway, hstored, hfields⟩ :=
    h.objects id fields (Schema.lt_of_body? hbody) hbody
  exact ⟨turn, stored, hmidway, hstored, List.rel_flatMap hfields fun _ _ harguments => harguments⟩

end Build

/-! ## §3 Defaults -/

/-- Every stored default conforms to the type that it is declared with. -/
def Schema.DefaultsConform (schema : Schema m) : Prop :=
  ∀ id body, schema.body? id = some body → ∀ argument ∈ body.arguments,
    argument.DefaultConforms schema.inputBody?

/-- Every stored default is coerced to itself, at the type that it is declared with. -/
def Schema.DefaultsKept (schema : Schema m) : Prop :=
  ∀ id body, schema.body? id = some body → ∀ argument ∈ body.arguments,
    ∀ default, argument.default = some default → ∀ location,
      Coercion.Keeps argument.type default (default.coerce schema location)

omit [LawfulMonad m] [LawfulMonadAttach m] in
/-- All defaults conform as they are stored exactly if each is completed in turn. -/
theorem Build.History.defaultsConform_iff {start final : Schema m}
    (h : History start final start.types.length 0) (hscalars : start.ScalarsIdempotent)
    (hnames : start.DistinctFields) : final.DefaultsConform ↔ start.CompletedInTurn := by
  have houtline := h.midway.outline
  constructor
  case mp =>
    intro hconform
    constructor
    case inputs =>
      intro id index field default hfield hdefault owner position
      obtain ⟨turn, stored, hmidway, hstored, hfound⟩ := h.exists_of_declaredAt? hfield
      obtain ⟨declared, htype, hindex⟩ := GraphQL.exists_of_declaredAt? hfound
      exact hmidway.inTurn houtline hnames hstored
        (hconform id _ (Schema.body?_of_inputBody? htype) stored (List.mem_of_getElem? hindex))
        hdefault
    case objects =>
      intro id fields hbody argument hargument default hdefault owner position
      obtain ⟨turn, others, hmidway, hfinal, harguments⟩ := h.forall₂_of_object hbody
      obtain ⟨stored, hmem, hstored⟩ := exists_of_mem_left harguments hargument
      exact hmidway.inTurn houtline hnames hstored (hconform id _ hfinal stored hmem) hdefault
  case mpr =>
    intro hturns id body hbody stored hmem
    have hinputs := h.defaultConformsAt hscalars hturns
    cases body with
    | scalar coerce => cases hmem
    | inputObject declared =>
      obtain ⟨index, hindex⟩ := List.mem_iff_getElem?.1 hmem
      exact hinputs id index stored
        ((declaredAt?_of_inputObject (Schema.inputBody?_inputObject hbody) index).trans hindex)
    | object others =>
      obtain ⟨fields, hobject⟩ := houtline.symm.body?_object hbody
      obtain ⟨turn, others', hmidway, hfinal, harguments⟩ := h.forall₂_of_object hobject
      rw [hbody] at hfinal
      cases hfinal
      obtain ⟨argument, hargument, hstored⟩ := exists_of_mem_right harguments hmem
      exact hmidway.defaultConforms houtline hscalars hstored
        (fun default => hturns.objects id fields hobject argument hargument default)
        fun owner position _ => hinputs owner position

/-- A computation that gives a result is one of a monad in which every value is given. -/
theorem canReturn_pure {α β : Type} {x : m α} {a : α} (h : CanReturn x a) (b : β) :
    CanReturn (pure b : m β) b := by
  by_contra hnone
  have hempty : ∀ c : Subtype (CanReturn (pure b : m β)), False := by
    rintro ⟨c, hc⟩
    cases eq_of_canReturn_pure hc
    exact hnone hc
  -- If `pure b` gave nothing, `x` would be a computation of results that do not exist.
  have hx : x = (Subtype.val : Subtype (fun _ : α => False) → α) <$>
      (MonadAttach.attach (pure b : m β) >>= fun c => (hempty c).elim) := by
    calc x = (pure b : m β) >>= fun _ => x := by rw [pure_bind]
      _ = (Subtype.val <$> MonadAttach.attach (pure b : m β)) >>= fun _ => x := by
        rw [WeaklyLawfulMonadAttach.map_attach]
      _ = _ := by
        rw [bind_map_left, map_bind]
        congr
        funext c
        exact (hempty c).elim
  rw [hx] at h
  exact LawfulMonadAttach.canReturn_map_imp h

/-- Stored defaults come back from coercion exactly if they conform. -/
theorem Schema.defaultsKept_iff {schema : Schema m} (hscalars : schema.ScalarsIdempotent)
    (hnames : schema.DistinctFields)
    (hpure : ∀ coerced, CanReturn (pure coerced : Engine m Coerced) coerced) :
    schema.DefaultsKept ↔ schema.DefaultsConform := by
  constructor
  case mp =>
    intro hkept id body hbody argument hargument default hdefault
    obtain ⟨notices, _, heq⟩ := hkept id body hbody argument hargument default hdefault none []
    have hcan := hpure ⟨.ok default, notices⟩
    rw [← heq] at hcan
    exact (Value.coerces_of_canReturn hcan).conforms_of_eq hnames rfl
  case mpr =>
    intro hconform id body hbody argument hargument default hdefault location
    exact Value.coerce_keeps hscalars hnames location default
      (hconform id body hbody argument hargument default hdefault)

omit [LawfulMonad m] [LawfulMonadAttach m] in
/-- Which defaults conform is read off the types. -/
theorem Schema.defaultsConform_of_types {schema other : Schema m}
    (h : schema.types = other.types) : schema.DefaultsConform ↔ other.DefaultsConform := by
  have hbody : schema.body? = other.body? := funext (Schema.body?_eq_of_types h)
  unfold DefaultsConform Schema.inputBody?
  rw [hbody]

namespace Definitions

variable [MonadLog m] {definitions : Definitions m} {schema : Schema m}

/-- In a schema that is built, all stored defaults are coerced to themselves
exactly if each default, as it is written, is completed in turn. -/
theorem defaultsKept_iff_of_build (hscalars : definitions.ScalarsIdempotent)
    {written : Schema m} (hwritten : Build.arena definitions = .ok written)
    (h : CanReturn definitions.build schema) :
    schema.DefaultsKept ↔ written.CompletedInTurn := by
  obtain ⟨given, settled, hgiven, hsettled, heq⟩ := Build.of_build h
  rw [hwritten] at hgiven
  cases hgiven
  rw [Schema.defaultsKept_iff (scalarsIdempotent_of_build hscalars h) (distinctFields_of_build h)
      fun coerced => canReturn_pure (m := m) h (Except.ok coerced),
    Schema.defaultsConform_of_types heq]
  exact (Build.history_settleDefaults hsettled).defaultsConform_iff
    (Build.scalarsIdempotent_of_arena hscalars hwritten)
    (Build.distinctFields_of_arena hwritten)

end Definitions

/-- A range whose lower bound is five, written as a text, unless it is given. -/
def InputDefinition.range : InputDefinition :=
  ⟨utf8 "Range", [], [⟨utf8 "low", utf8 "Int", some (.string (utf8 "5")), none, []⟩]⟩

/-- A filter whose range is left to the defaults of ranges, unless it is given. -/
def InputDefinition.filter : InputDefinition :=
  ⟨utf8 "Filter", [], [⟨utf8 "range", utf8 "Range", some (.object []), none, []⟩]⟩

/-- The type of ranges, with the default of the lower bound. -/
def NamedType.range (low : Value) : NamedType Id :=
  .of (utf8 "Range") [] (.inputObject [⟨utf8 "low", .named 1, some low, none, []⟩])

/-- The type of filters, with the default of the range. -/
def NamedType.filter (id : TypeId) (range : Value) : NamedType Id :=
  .of (utf8 "Filter") [] (.inputObject [⟨utf8 "range", .named id, some range, none, []⟩])

/-- Definitions with these input types, and a query without arguments. -/
def Definitions.taking (inputs : List InputDefinition) : Definitions Id :=
  ⟨[], [⟨fallbackQueryType, [], [⟨utf8 "count", utf8 "Int", [], none, none, []⟩]⟩], inputs,
    none, none⟩

/-- A schema with these input types, in which queries start at a position. -/
def Schema.taking (inputs : List (NamedType Id)) (query : TypeId) : Schema Id where
  query
  mutation := none
  types := Build.builtInTypes ++ .of fallbackQueryType [] (.object
    [⟨utf8 "count", .named 1, [], memberResolver (utf8 "count"), none, []⟩]) :: inputs

namespace Definitions

/-- Only the input types have defaults. -/
theorem exists_of_taking {inputs : List (NamedType Id)} {id : TypeId} {body : TypeBody Id}
    (h : (Schema.taking inputs 0).body? id = some body)
    {argument : Argument} (hmem : argument ∈ body.arguments) :
    ∃ index, id = index + 6 ∧ (inputs[index]?).map (·.body) = some body := by
  match id with
  | 0 | 1 | 2 | 3 | 4 | 5 =>
    cases h
    cases hmem
  | index + 6 => exact ⟨index, rfl, h⟩

/-- An empty range is completed by the default of ranges, which are declared first. -/
theorem completedInTurn_taking :
    (Schema.taking [.range (.string (utf8 "5")), .filter 6 (.object [])] 0).CompletedInTurn := by
  constructor
  case inputs =>
    intro id index field default hfield hdefault owner position hcompletes
    obtain ⟨declared, htype, hindex⟩ := exists_of_declaredAt? hfield
    have hmem := List.mem_of_getElem? hindex
    obtain ⟨input, rfl, hbody⟩ := exists_of_taking (Schema.body?_of_inputBody? htype) hmem
    match input with
    | 0 =>
      cases hbody
      cases List.mem_singleton.1 hmem
      cases hdefault
      cases hcompletes
    | 1 =>
      cases hbody
      cases List.mem_singleton.1 hmem
      cases hdefault
      cases hcompletes with
      | here _ _ _ _ => exact .inl (.inl (by decide))
      | member _ _ hvalue _ => cases hvalue
    | input + 2 => cases hbody
  case objects =>
    intro id fields hbody argument hargument
    obtain ⟨input, rfl, hbody⟩ := exists_of_taking hbody hargument
    match input with
    | 0 | 1 | input + 2 => cases hbody

/-- Where ranges come first, all that is stored is kept. -/
theorem defaultsKept_iff_of_build_taking :
    let written := Schema.taking [.range (.string (utf8 "5")), .filter 6 (.object [])] 0
    let stored := Schema.taking [.range (.int 5), .filter 6 (.object [(utf8 "low", .int 5)])] 5
    ((taking [.range, .filter]).ScalarsIdempotent ∧
      Build.arena (taking [.range, .filter]) = .ok written ∧
      CanReturn (taking [.range, .filter]).build stored) ∧
    stored.DefaultsKept := by
  intro written stored
  have hwritten : Build.arena (taking [.range, .filter]) = .ok written := by rfl
  have hbuild : CanReturn (taking [.range, .filter]).build stored := by rfl
  have hscalars : (taking [.range, .filter]).ScalarsIdempotent := by
    simp [ScalarsIdempotent, taking]
  refine ⟨⟨hscalars, hwritten, hbuild⟩, ?_⟩
  exact (defaultsKept_iff_of_build hscalars hwritten hbuild).2 completedInTurn_taking

/-- Filters that come before ranges are completed with a lower bound that is a
text still; those that come after them, with the integer that it stands for. -/
theorem not_defaultsKept_taking :
    let low := utf8 "low"
    let stored := Schema.taking
      [.filter 7 (.object [(low, .string (utf8 "5"))]), .range (.int 5)] 5
    let reordered := Schema.taking [.range (.int 5), .filter 6 (.object [(low, .int 5)])] 5
    (taking [.filter, .range]).ScalarsIdempotent ∧
      CanReturn (taking [.filter, .range]).build stored ∧
      CanReturn (taking [.range, .filter]).build reordered ∧
      ¬ stored.DefaultsKept := by
  intro low stored reordered
  refine ⟨nofun, by rfl, by rfl, fun hkept => ?_⟩
  obtain ⟨notices, _, hcoerced⟩ := hkept 6 _ rfl _ List.mem_cons_self _ rfl none []
  have hresult : ((Value.object [(low, .string (utf8 "5"))]).coerce stored none
      (.named 7) []).run = Except.ok ⟨.ok (.object [(low, .int 5)]), []⟩ := by decide +kernel
  have heq := hresult.symm.trans hcoerced
  cases heq

end Definitions

end GraphQL
