/-
GraphQL.Proofs.Value.Texts — the keys and strings in a value.

  §1 Spelling   — what is asked of all keys and of all strings, at every depth.
  §2 Texts      — values whose texts are well-formed.
  §3 Members    — objects whose members are assigned one after another.

A response is written down only if all its texts are well-formed. Input is asked
for less: its keys may be quoted in messages, its strings never are.
-/
import GraphQL.Proofs.Text.WellFormed
import GraphQL.Proofs.Value.Assignment

namespace GraphQL

namespace Value

/-! ## §1 Spelling -/

mutual

/-- All keys satisfy `key` and all strings satisfy `text`, at every depth. -/
def Spelled (key text : Bytes → Prop) : Value → Prop
  | .string given => text given
  | .list items => SpelledItems key text items
  | .object members => SpelledMembers key text members
  | _ => True

/-- The same of the items of a list. -/
def SpelledItems (key text : Bytes → Prop) : List Value → Prop
  | [] => True
  | item :: rest => Spelled key text item ∧ SpelledItems key text rest

/-- The same of the members of an object. -/
def SpelledMembers (key text : Bytes → Prop) : List (Bytes × Value) → Prop
  | [] => True
  | (name, value) :: rest => (key name ∧ Spelled key text value) ∧ SpelledMembers key text rest

end

variable {key text : Bytes → Prop}

theorem spelled_list {items : List Value} :
    (Value.list items).Spelled key text ↔ ∀ item ∈ items, item.Spelled key text := by
  have hitems : SpelledItems key text items ↔ ∀ item ∈ items, item.Spelled key text := by
    induction items with
    | nil => simp [SpelledItems]
    | cons item rest ih => rw [SpelledItems, ih, List.forall_mem_cons]
  rw [Spelled, hitems]

theorem spelled_object {members : Members} : (Value.object members).Spelled key text ↔
    ∀ member ∈ members, key member.1 ∧ member.2.Spelled key text := by
  have hmembers : SpelledMembers key text members ↔
      ∀ member ∈ members, key member.1 ∧ member.2.Spelled key text := by
    induction members with
    | nil => simp [SpelledMembers]
    | cons member rest ih => rw [SpelledMembers, ih, List.forall_mem_cons]
  rw [Spelled, hmembers]

/-! ## §2 Texts -/

/-- Every text in the value is well-formed. -/
def WellFormed (value : Value) : Prop := value.Spelled Utf8.WellFormed Utf8.WellFormed

/-- Every key in the value is well-formed. -/
def KeysWellFormed (value : Value) : Prop := value.Spelled Utf8.WellFormed fun _ => True

theorem wellFormed_list {items : List Value} :
    (Value.list items).WellFormed ↔ ∀ item ∈ items, item.WellFormed := spelled_list

theorem wellFormed_object {members : Members} : (Value.object members).WellFormed ↔
    ∀ member ∈ members, Utf8.WellFormed member.1 ∧ member.2.WellFormed := spelled_object

theorem keysWellFormed_list {items : List Value} :
    (Value.list items).KeysWellFormed ↔ ∀ item ∈ items, item.KeysWellFormed := spelled_list

theorem keysWellFormed_object {members : Members} : (Value.object members).KeysWellFormed ↔
    ∀ member ∈ members, Utf8.WellFormed member.1 ∧ member.2.KeysWellFormed := spelled_object

theorem wellFormed_string {given : Bytes} :
    (Value.string given).WellFormed ↔ Utf8.WellFormed given := by
  unfold WellFormed Spelled
  exact Iff.rfl

theorem wellFormed_null : Value.null.WellFormed := by
  unfold WellFormed Spelled
  trivial

end Value

/-! ## §3 Members -/

/-- An object made of assignments is as well-formed as what is assigned. -/
theorem Value.wellFormed_assignAll {additions : Members}
    (h : ∀ member ∈ additions, Utf8.WellFormed member.1 ∧ member.2.WellFormed) :
    (Value.object (assignAll [] additions)).WellFormed :=
  wellFormed_object.2 fun member hmember =>
    h member ((mem_of_mem_assignAll hmember).resolve_left nofun)

end GraphQL
