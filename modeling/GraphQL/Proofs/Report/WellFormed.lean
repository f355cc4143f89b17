/-
GraphQL.Proofs.Report.WellFormed — records whose texts are well-formed.

  §1 Types     — the forms in which types are shown.
  §2 Messages  — a message is as well-formed as what it quotes.
  §3 Records   — records as they appear in a response.

The wording of a message is fixed, so only what it quotes can break it: names,
paths and types of inputs, reasons of deprecations, and texts that are given.
-/
import GraphQL.Proofs.Value.Positions
import GraphQL.Proofs.Value.Texts

namespace GraphQL

open Utf8

/-! ## §1 Types -/

theorem Utf8.WellFormed.bracketed {text : Bytes} (h : Utf8.WellFormed text) :
    Utf8.WellFormed (ascii '[' :: text ++ [ascii ']']) := by
  have hclose : Utf8.WellFormed [ascii ']'] := IsAscii.wellFormed (by simp [IsAscii]; decide)
  rw [List.cons_append, wellFormed_cons_iff (by decide)]
  exact h.append hclose

namespace TypeExpr

variable {type : TypeExpr Bytes} (h : Utf8.WellFormed type.leaf)
include h

theorem wellFormed_text : Utf8.WellFormed type.text := by
  have hmark : Utf8.WellFormed [ascii '!'] := IsAscii.wellFormed (by simp [IsAscii]; decide)
  induction type with
  | named name => exact h
  | list element ih => exact WellFormed.bracketed (ih h)
  | nonNull inner ih => exact (ih h).append hmark

theorem wellFormed_displayText : Utf8.WellFormed type.displayText := by
  induction type with
  | named name => exact h
  | list element ih => exact WellFormed.bracketed (ih h)
  | nonNull inner ih => exact ih h

end TypeExpr

/-! ## §2 Messages -/

/-- The texts that a message quotes. -/
def Message.quotes : Message → List Bytes
  | .given text => [text]
  | .fieldUnknown name | .fieldUntagged name | .fieldRaised name | .operationUnknown name
  | .mutationsUnsupported name => [name]
  | .fieldDeprecated field deprecation => field :: deprecation.reason.toList
  | .argumentsMissing field texts | .argumentsMalformed field _ texts => field :: texts
  | .inputMissing _ path type | .inputInvalid _ path type => [path, type]
  | .inputUnknown _ path => [path]
  | .inputDeprecated _ path type deprecation => path :: type :: deprecation.reason.toList
  | .typeUnknown variableName type => [variableName, type.leaf]

/-- Everything that the message quotes is well-formed. -/
def Message.WellFormed (message : Message) : Prop :=
  ∀ text ∈ message.quotes, Utf8.WellFormed text

theorem Message.wellFormed_of_one {message : Message} {text : Bytes} (h : message.quotes = [text])
    (htext : Utf8.WellFormed text) : message.WellFormed := by
  rw [WellFormed, h]
  exact List.forall_mem_singleton.2 htext

/-- The reason is well-formed, if one is given. -/
def Deprecation.WellFormed (deprecation : Deprecation) : Prop :=
  ∀ reason ∈ deprecation.reason, Utf8.WellFormed reason

theorem Deprecation.wellFormed_notice {deprecation : Deprecation} (h : deprecation.WellFormed) :
    Utf8.WellFormed deprecation.notice := by
  unfold notice
  cases hreason : deprecation.reason with
  | none => exact wellFormed_utf8 _
  | some reason => exact (wellFormed_utf8 _).append (h reason hreason)

namespace Message

theorem wellFormed_subject (subject : Subject) : Utf8.WellFormed subject.text := by
  cases subject <;> exact wellFormed_utf8 _

theorem wellFormed_finding {sort name text : Bytes} (hsort : Utf8.WellFormed sort)
    (hname : Utf8.WellFormed name) (htext : Utf8.WellFormed text) :
    Utf8.WellFormed (finding sort name text) :=
  (((hsort.append (wellFormed_utf8 _)).append hname.quoted).append (wellFormed_utf8 _)).append htext

theorem wellFormed_typedFinding {subject : Subject} {path type text : Bytes}
    (hpath : Utf8.WellFormed path) (htype : Utf8.WellFormed type) (htext : Utf8.WellFormed text) :
    Utf8.WellFormed (typedFinding subject path type text) :=
  ((((((wellFormed_subject subject).append (wellFormed_utf8 _)).append hpath.quoted).append
    (wellFormed_utf8 _)).append htype).append (wellFormed_utf8 _)).append htext

theorem wellFormed_argumentSummary {count : Nat} {adjective text : Bytes} {names : List Bytes}
    (hadjective : Utf8.WellFormed adjective) (hnames : ∀ name ∈ names, Utf8.WellFormed name)
    (htext : Utf8.WellFormed text) :
    Utf8.WellFormed (argumentSummary count adjective names text) :=
  ((((WellFormed.countText hadjective (wellFormed_utf8 _)).append (wellFormed_utf8 _)).append
    (WellFormed.quotedNames hnames)).append (wellFormed_utf8 _)).append htext

/-- The wording keeps what is quoted as it is. -/
theorem wellFormed_text {message : Message} (h : message.WellFormed) :
    Utf8.WellFormed message.text := by
  unfold WellFormed at h
  cases message with
  | given text => exact h text (by simp [quotes])
  | fieldUnknown name | fieldUntagged name | fieldRaised name | operationUnknown name
  | mutationsUnsupported name =>
    exact wellFormed_finding (wellFormed_utf8 _) (h name (by simp [quotes])) (wellFormed_utf8 _)
  | fieldDeprecated field deprecation =>
    obtain ⟨hfield, hreason⟩ := List.forall_mem_cons.1 h
    exact wellFormed_finding (wellFormed_utf8 _) hfield
      (Deprecation.wellFormed_notice (by simpa [Deprecation.WellFormed] using hreason))
  | argumentsMissing field texts | argumentsMalformed field count texts =>
    obtain ⟨hfield, htexts⟩ := List.forall_mem_cons.1 h
    exact wellFormed_finding (wellFormed_utf8 _) hfield
      (wellFormed_argumentSummary (wellFormed_utf8 _) htexts (wellFormed_utf8 _))
  | inputMissing subject path type | inputInvalid subject path type =>
    exact wellFormed_typedFinding (h path (by simp [quotes])) (h type (by simp [quotes]))
      (wellFormed_utf8 _)
  | inputUnknown subject path =>
    exact wellFormed_finding (wellFormed_subject subject) (h path (by simp [quotes]))
      (wellFormed_utf8 _)
  | inputDeprecated subject path type deprecation =>
    obtain ⟨hpath, htype, hreason⟩ :=
      (List.forall_mem_cons.1 h).imp_right List.forall_mem_cons.1
    exact wellFormed_typedFinding hpath htype
      (Deprecation.wellFormed_notice (by simpa [Deprecation.WellFormed] using hreason))
  | typeUnknown variableName type =>
    exact wellFormed_finding (wellFormed_utf8 _) (h variableName (by simp [quotes]))
      ((wellFormed_utf8 _).append (TypeExpr.wellFormed_text (h type.leaf (by simp [quotes]))))

end Message

/-! ## §3 Records -/

/-- The keys of the path are well-formed. -/
def ResponsePath.WellFormed (path : ResponsePath) : Prop :=
  ∀ key ∈ path.keys, Utf8.WellFormed key

/-- What the record quotes and the keys of its path are well-formed. -/
structure ErrorRecord.WellFormed (record : ErrorRecord) : Prop where
  message : record.message.WellFormed
  path : ∀ path ∈ record.path, path.WellFormed

theorem ErrorRecord.wellFormed_located {location : Location} {path : ResponsePath}
    {message : Message} (hpath : path.WellFormed) (hmessage : message.WellFormed) :
    (located location path message).WellFormed where
  message := hmessage
  path := by
    rintro _ ⟨⟩
    exact hpath

theorem Location.wellFormed_toValue (location : Location) : location.toValue.WellFormed := by
  refine Value.wellFormed_object.2 fun member hmember => ?_
  simp only [List.mem_cons, List.not_mem_nil, or_false] at hmember
  rcases hmember with rfl | rfl <;>
    exact ⟨wellFormed_utf8 _, by unfold Value.WellFormed Value.Spelled; trivial⟩

theorem PathSegment.wellFormed_toValue {segment : PathSegment}
    (h : ∀ key, segment = .key key → Utf8.WellFormed key) : segment.toValue.WellFormed := by
  cases segment with
  | key name => exact Value.wellFormed_string.2 (h name rfl)
  | index position =>
    unfold toValue Value.WellFormed Value.Spelled
    trivial

/-- A record is written with its message and its path, and the rest of it is fixed. -/
theorem ErrorRecord.WellFormed.toValue {record : ErrorRecord} (h : record.WellFormed) :
    record.toValue.WellFormed := by
  have hlocations : (Value.list (record.locations.map Location.toValue)).WellFormed :=
    Value.wellFormed_list.2 (List.forall_mem_map.2 fun location _ => location.wellFormed_toValue)
  have hmessage := Value.wellFormed_string.2 (Message.wellFormed_text h.message)
  refine Value.wellFormed_object.2 (List.forall_mem_append.2 ⟨?_, ?_⟩)
  · exact List.forall_mem_cons.2 ⟨⟨wellFormed_utf8 _, hmessage⟩,
      List.forall_mem_singleton.2 ⟨wellFormed_utf8 _, hlocations⟩⟩
  · cases hpath : record.path with
    | none => nofun
    | some path =>
      refine List.forall_mem_singleton.2 ⟨wellFormed_utf8 _, Value.wellFormed_list.2 ?_⟩
      refine List.forall_mem_map.2 fun segment hsegment => PathSegment.wellFormed_toValue ?_
      rintro key rfl
      exact h.path path hpath key (List.mem_filterMap.2 ⟨_, hsegment, rfl⟩)

end GraphQL
