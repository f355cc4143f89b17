/-
GraphQL.Proofs.Execution.PathText — a path is told by its text.

  §1 Steps     — a key and an index never have the same text.
  §2 Paths     — the text of a path is split at its points.
  §3 Requests  — the paths in responses to documents that were read.

Nothing is escaped in the text of a path, so an arbitrary key could pass for several
steps, for an index or for no step at all. A name cannot: it is not empty, has no
point in it and does not begin with a digit.
-/
import GraphQL.Proofs.Execution.WellFormed
import GraphQL.Proofs.Input.Failures

namespace GraphQL

open MonadAttach (CanReturn)
open LawfulMonadAttach (canReturn_map_imp')

/-! ## §1 Steps -/

/-- The step is an index, or its key is a name. -/
def PathSegment.Lexical (segment : PathSegment) : Prop :=
  ∀ key ∈ segment.key?, isName key = true

namespace PathSegment

theorem lexical_key {name : Bytes} : (key name).Lexical ↔ isName name = true := by
  simp [Lexical, key?]

theorem isSegment_text {segment : PathSegment} (h : segment.Lexical) : IsSegment segment.text := by
  cases segment with
  | key name => exact isSegment_of_isName (lexical_key.1 h)
  | index position => exact isSegment_decimal position

/-- A numeral begins with a digit, and a name does not. -/
theorem isName_decimal (n : Nat) : isName (decimal n) = false := by
  obtain ⟨hne, hdigits⟩ := isDigits_decimal n
  obtain ⟨first, rest, hsplit⟩ := List.exists_cons_of_ne_nil hne
  have hdigit : isDigit first = true := hdigits first (by simp [hsplit])
  have hstart : isNameStart first = false := by
    have hbyte := forall_byte (P := fun b => isDigit b = true → isNameStart b = false)
      (by decide +kernel)
    exact hbyte first hdigit
  rw [hsplit, isName, hstart, Bool.false_and]

theorem text_injective {segment other : PathSegment} (h : segment.Lexical) (hother : other.Lexical)
    (htext : segment.text = other.text) : segment = other := by
  cases segment with
  | key name =>
    cases other with
    | key otherName => exact congrArg key htext
    | index position =>
      have hname := lexical_key.1 h
      rw [show name = decimal position from htext, isName_decimal] at hname
      cases hname
  | index position =>
    cases other with
    | key name =>
      have hname := lexical_key.1 hother
      rw [show name = decimal position from htext.symm, isName_decimal] at hname
      cases hname
    | index otherPosition => exact congrArg index (decimal_injective htext)

end PathSegment

/-! ## §2 Paths -/

/-- The keys of the path are names. -/
def ResponsePath.Lexical (path : ResponsePath) : Prop := ∀ segment ∈ path, segment.Lexical

namespace ResponsePath

/-- The text of a path is that of its steps, one below the other. -/
theorem text_eq_pathAt {path : ResponsePath} (h : path.Lexical) :
    path.text = pathAt [] (path.map PathSegment.text) := by
  cases path with
  | nil => rfl
  | cons segment rest =>
    obtain ⟨hsegment, hrest⟩ := List.forall_mem_cons.1 h
    rw [List.map_cons, pathAt_eq (PathSegment.isSegment_text hsegment)
      (List.forall_mem_map.2 fun below hbelow => PathSegment.isSegment_text (hrest below hbelow))]
    rfl

/-- Steps are told one by one by their texts. -/
theorem eq_of_map_text {path other : ResponsePath} (h : path.Lexical) (hother : other.Lexical)
    (htexts : path.map PathSegment.text = other.map PathSegment.text) : path = other := by
  induction path generalizing other with
  | nil => exact (List.map_eq_nil_iff.1 htexts.symm).symm
  | cons segment rest ih =>
    obtain ⟨hsegment, hrest⟩ := List.forall_mem_cons.1 h
    cases other with
    | nil => cases htexts
    | cons otherSegment otherRest =>
      obtain ⟨hotherSegment, hotherRest⟩ := List.forall_mem_cons.1 hother
      obtain ⟨htext, htexts⟩ := List.cons.inj htexts
      rw [PathSegment.text_injective hsegment hotherSegment htext, ih hrest hotherRest htexts]

theorem text_injective {path other : ResponsePath} (h : path.Lexical) (hother : other.Lexical)
    (htext : path.text = other.text) : path = other := by
  rw [text_eq_pathAt h, text_eq_pathAt hother] at htext
  exact eq_of_map_text h hother (pathAt_injective
    (List.forall_mem_map.2 fun segment hsegment => PathSegment.isSegment_text (h segment hsegment))
    (List.forall_mem_map.2 fun segment hsegment =>
      PathSegment.isSegment_text (hother segment hsegment)) htext)

theorem Lexical.append {path rest : ResponsePath} (h : path.Lexical) (hrest : rest.Lexical) :
    ResponsePath.Lexical (path ++ rest) :=
  List.forall_mem_append.2 ⟨h, hrest⟩

/-- Indices alone have no keys that could be wrong. -/
theorem lexical_of_keys_eq_nil {path : ResponsePath} (h : path.keys = []) : path.Lexical := by
  intro segment hsegment key hkey
  have hmem : key ∈ path.keys := List.mem_filterMap.2 ⟨segment, hsegment, hkey⟩
  rw [h] at hmem
  cases hmem

end ResponsePath

/-! ## §3 Requests -/

theorem Field.Proper.lexical_responseKey {node : Field} (h : node.Proper) :
    isName node.responseKey = true := by
  unfold Field.responseKey
  cases halias : node.aliasName with
  | none => exact h.name
  | some name => exact h.aliasName name halias

/-- The step to a field of a well-formed selection set. -/
theorem Field.WellFormed.lexical_step {node : Field} (h : node.WellFormed) :
    ResponsePath.Lexical [.key node.responseKey] :=
  List.forall_mem_singleton.2
    (PathSegment.lexical_key.2 (Field.forall_nodes.1 h).1.lexical_responseKey)

variable {m : Type → Type} [Monad m] [MonadAttach m]

/-- Below a field there are indices and the keys of the fields selected from it. -/
theorem Visit.Told.lexical_path {scope : Scope m} {visit : Visit m} (h : visit.Told scope)
    (hnode : visit.node.WellFormed) (hpath : visit.path.Lexical) :
    ∀ below ∈ visit.all, below.path.Lexical := by
  intro below hbelow
  refine descend (P := fun visit below => visit.Told scope → visit.node.WellFormed →
    visit.path.Lexical → below.path.Lexical) (fun _ _ _ hpath => hpath) ?_
    visit below hbelow h hnode hpath
  intro visit object field below hobject hfield ih htold hnode hpath
  obtain ⟨parentType, parent, htells⟩ := htold
  obtain ⟨_, id, value, htell⟩ := htells.objects object hobject
  obtain ⟨between, hkeys, hobjectPath, _⟩ := htells.at?_objects object hobject
  have hselected : field.node ∈ visit.node.selections := htell.nodes ▸ List.mem_map_of_mem hfield
  have hfieldNode : field.node.WellFormed := (Field.forall_nodes.1 hnode).2 _ hselected
  refine ih (htell.told field hfield) hfieldNode ?_
  rw [(htell.tell field hfield).path_eq, hobjectPath]
  exact (hpath.append (ResponsePath.lexical_of_keys_eq_nil hkeys)).append hfieldNode.lexical_step

namespace Account.Tells

variable {schema : Schema m} {options : RequestOptions} {document : Document}
  {response : Response} {events : List (Event m)} {account : Account m}

/-- The fields of a well-formed document stand at lexical paths. -/
theorem lexical_path (h : account.Tells schema options document response events)
    (hdocument : document.WellFormed) : ∀ visit ∈ account.visits, visit.path.Lexical := by
  intro visit hvisit
  obtain ⟨top, htop, hbelow⟩ := Visit.mem_allOf.1 hvisit
  obtain ⟨part, hpart, htop⟩ := List.mem_flatMap.1 htop
  obtain ⟨checked, hparts⟩ := h.exists_operation
  obtain ⟨operation, hoperation, htells⟩ := hparts part hpart
  cases htells with
  | unsupported _ => cases htop
  | ran _ _ htell =>
    have hnode : top.node.WellFormed :=
      (hdocument.operations operation hoperation).fields top.node
        (htell.nodes ▸ List.mem_map_of_mem htop)
    refine (htell.told top htop).lexical_path hnode ?_ visit hbelow
    rw [(htell.tell top htop).path_eq]
    exact hnode.lexical_step

/-- So do all records about fields. -/
theorem lexical_record [LawfulMonad m] [LawfulMonadAttach m]
    (h : account.Tells schema options document response events) (hdocument : document.WellFormed)
    {record : ErrorRecord} (hrecord : record ∈ response.errors) {path : ResponsePath}
    (hpath : record.path = some path) : path.Lexical := by
  obtain ⟨visit, hvisit, hown⟩ := h.exists_visit hrecord hpath
  obtain ⟨_, _, _, _, htells⟩ := h.told visit hvisit
  obtain ⟨hplaced, _⟩ := htells.placedIn record hown
  rw [← Option.some.inj (hplaced.symm.trans hpath)]
  exact h.lexical_path hdocument visit hvisit

end Account.Tells

/-- Paths whose keys are names have the same text only if they are the same, key by key and
index by index. All paths are such in a response to a document that was read from a text. -/
theorem ResponsePath.text_tells :
    (∀ path other : ResponsePath, path.Lexical → other.Lexical →
      (path.text = other.text ↔ path = other)) ∧
    ∀ {m : Type → Type} [Monad m] [LawfulMonad m] [MonadAttach m] [LawfulMonadAttach m] [MonadLog m]
      (schema : Schema m) (options : RequestOptions) (query : Bytes) (document : Document)
      (response : Response), Document.ofText query = .ok document →
      CanReturn (Request.runDocument schema options document).run (.ok response) →
      ∀ record ∈ response.errors, ∀ path, record.path = some path → path.Lexical := by
  refine ⟨fun path other h hother => ⟨text_injective h hother, fun heq => heq ▸ rfl⟩, ?_⟩
  intro m _ _ _ _ _ schema options query document response hread hcan record hrecord path hpath
  -- Tracing leaves the request as it is, and a traced one has an account.
  rw [← Hosting.simulation_tracing.runDocument schema options document []] at hcan
  obtain ⟨⟨_, events⟩, htraced, rfl⟩ := canReturn_map_imp' hcan
  obtain ⟨account, htells⟩ := Request.exists_account schema options htraced
  obtain ⟨_, hrun⟩ := Document.run_of_ofText hread
  exact htells.lexical_record (Reading.spec_of_document hrun).2 hrecord hpath

/-- A key with a point or with digits only could pass for steps that it is not. -/
example : ResponsePath.text [.key (utf8 "a.0")] = ResponsePath.text [.key (utf8 "a"), .index 0] ∧
    ResponsePath.text [.key (utf8 "0")] = ResponsePath.text [.index 0] ∧
    ResponsePath.text [.key []] = ResponsePath.text [] := by decide

/-- A query for the field that fails, in every item. -/
def Document.failing : Document :=
  ⟨[⟨.query, none, [], [⟨some (utf8 "all"), utf8 "items", [],
    [⟨none, utf8 "fail", [], [], ⟨1, 12⟩⟩], ⟨1, 2⟩⟩], ⟨1, 1⟩⟩]⟩

/-- As names, the keys of a nested field and of the item before it cannot be taken for others.
The paths of fields that fail in two items are made of such keys. -/
theorem ResponsePath.text_tells_items :
    (ResponsePath.Lexical [.key (utf8 "items"), .index 12, .key (utf8 "_1")] ∧
      ResponsePath.Lexical [.key (utf8 "items"), .index 1, .key (utf8 "_21")] ∧
      ResponsePath.text [.key (utf8 "items"), .index 12, .key (utf8 "_1")] ≠
        ResponsePath.text [.key (utf8 "items"), .index 1, .key (utf8 "_21")]) ∧
    Document.ofText (utf8 "\x7ball:items\x7bfail\x7d\x7d") = .ok .failing ∧
    ∃ response, (Request.runDocument Schema.failing .plain .failing).run = .ok response ∧
      response.errors.map (·.path) = [
        some [.key (utf8 "all"), .index 0, .index 1, .key (utf8 "fail")],
        some [.key (utf8 "all"), .index 2, .key (utf8 "fail")]] ∧
      ∀ record ∈ response.errors, ∀ path, record.path = some path → path.Lexical := by
  have hfirst : ResponsePath.Lexical [.key (utf8 "items"), .index 12, .key (utf8 "_1")] := by
    unfold ResponsePath.Lexical PathSegment.Lexical
    decide
  have hsecond : ResponsePath.Lexical [.key (utf8 "items"), .index 1, .key (utf8 "_21")] := by
    unfold ResponsePath.Lexical PathSegment.Lexical
    decide
  have hread : Document.ofText (utf8 "\x7ball:items\x7bfail\x7d\x7d") = .ok .failing := by
    decide +kernel
  have hresponse :
      (Request.runDocument Schema.failing .plain .failing).run.toOption.isSome = true := by
    decide +kernel
  refine ⟨⟨hfirst, hsecond, fun htext => ?_⟩, hread, _, eq_ok_of_isSome .empty hresponse,
    by decide +kernel, ?_⟩
  · exact absurd ((text_tells.1 _ _ hfirst hsecond).1 htext) (by decide)
  · exact text_tells.2 Schema.failing .plain _ _ _ hread (eq_ok_of_isSome .empty hresponse)

end GraphQL
