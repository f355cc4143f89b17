/-
GraphQL.Proofs.Value.Outside — values without what keys reach in them.

  §1 Objects  — the objects of a value, through lists.
  §2 Changes  — members that are changed or left out, key by key.
  §3 Keys     — members without what a list of keys reaches.

Keys reach through lists, to every item, so that one list of keys may reach
many parts. The last key takes its member away and the keys before it lead
there. Assigning commutes with this, since members are changed each for itself
and whether one is left out depends on its key alone.
-/
import GraphQL.Proofs.Value.Assignment

namespace GraphQL

/-! ## §1 Objects -/

namespace Value

mutual

/-- The value with the members of its objects changed. Objects are found through lists, and
not inside other objects. -/
def withObjects (change : Members → Members) : Value → Value
  | .list items => .list (itemsWithObjects change items)
  | .object members => .object (change members)
  | value => value

/-- Items with the members of their objects changed. -/
def itemsWithObjects (change : Members → Members) : List Value → List Value
  | [] => []
  | item :: rest => withObjects change item :: itemsWithObjects change rest

end

end Value

/-! ## §2 Changes -/

/-- Members whose values are changed, or which are left out where there is no value. -/
def changeMembers (change : Bytes → Value → Option Value) (members : Members) : Members :=
  members.filterMap fun member => (change member.1 member.2).map fun value => (member.1, value)

/-- Whether a member is left out depends on its key alone. -/
def ByKey (change : Bytes → Value → Option Value) : Prop :=
  ∀ key, (∀ value, change key value = none) ∨ ∀ value, ∃ changed, change key value = some changed

variable {change : Bytes → Value → Option Value} {key : Bytes} {value : Value}

theorem changeMembers_append (members more : Members) :
    changeMembers change (members ++ more) =
      changeMembers change members ++ changeMembers change more :=
  List.filterMap_append

theorem changeMembers_cons_none (members : Members) (h : change key value = none) :
    changeMembers change ((key, value) :: members) = changeMembers change members := by
  simp [changeMembers, h]

theorem changeMembers_cons_some {changed : Value} (members : Members)
    (h : change key value = some changed) :
    changeMembers change ((key, value) :: members) =
      (key, changed) :: changeMembers change members := by
  simp [changeMembers, h]

/-- A member that is left out may be assigned or not. -/
theorem changeMembers_assign_none (h : ∀ value, change key value = none) (members : Members)
    (value : Value) :
    changeMembers change (assign members key value) = changeMembers change members := by
  induction members with
  | nil => exact changeMembers_cons_none [] (h value)
  | cons member rest ih =>
    obtain ⟨k, v⟩ := member
    by_cases hkey : k = key
    · subst hkey
      rw [assign, if_pos (beq_self_eq_true k), changeMembers_cons_none rest (h value),
        changeMembers_cons_none rest (h v)]
    · rw [assign, if_neg (by simpa using hkey)]
      cases hchange : change k v with
      | none => rw [changeMembers_cons_none _ hchange, changeMembers_cons_none _ hchange, ih]
      | some changed =>
        rw [changeMembers_cons_some _ hchange, changeMembers_cons_some _ hchange, ih]

/-- Another member may be changed before it is assigned. -/
theorem changeMembers_assign_some (h : ∀ value, ∃ changed, change key value = some changed)
    (members : Members) {changed : Value} (hchanged : change key value = some changed) :
    changeMembers change (assign members key value) =
      assign (changeMembers change members) key changed := by
  induction members with
  | nil => exact changeMembers_cons_some [] hchanged
  | cons member rest ih =>
    obtain ⟨k, v⟩ := member
    by_cases hkey : k = key
    · subst hkey
      obtain ⟨before, hbefore⟩ := h v
      rw [assign, if_pos (beq_self_eq_true k), changeMembers_cons_some _ hchanged,
        changeMembers_cons_some _ hbefore, assign, if_pos (beq_self_eq_true k)]
    · rw [assign, if_neg (by simpa using hkey)]
      cases hchange : change k v with
      | none => rw [changeMembers_cons_none _ hchange, changeMembers_cons_none _ hchange, ih]
      | some other =>
        rw [changeMembers_cons_some _ hchange, changeMembers_cons_some _ hchange, ih, assign,
          if_neg (by simpa using hkey)]

/-- Changed members are the same as assignments of changed members. -/
theorem changeMembers_assignAll (h : ByKey change) (members additions : Members) :
    changeMembers change (assignAll members additions) =
      assignAll (changeMembers change members) (changeMembers change additions) := by
  induction additions generalizing members with
  | nil => rfl
  | cons addition rest ih =>
    obtain ⟨key, value⟩ := addition
    rw [assignAll_cons, ih]
    rcases h key with hnone | hsome
    · rw [changeMembers_assign_none hnone, changeMembers_cons_none rest (hnone value)]
    · obtain ⟨changed, hchanged⟩ := hsome value
      rw [changeMembers_assign_some hsome members hchanged, changeMembers_cons_some rest hchanged,
        assignAll_cons]

/-! ## §3 Keys -/

/-- Members without what the keys reach. -/
def membersWithout : List Bytes → Members → Members
  | [] => id
  | key :: more => changeMembers fun name value =>
    if name = key then
      if more.isEmpty then none else some (value.withObjects (membersWithout more))
    else some value

theorem membersWithout_append (keys : List Bytes) (members more : Members) :
    membersWithout keys (members ++ more) =
      membersWithout keys members ++ membersWithout keys more := by
  cases keys with
  | nil => rfl
  | cons key rest => exact changeMembers_append members more

/-- What is assigned without what the keys reach leaves the members without it. -/
theorem membersWithout_assignAll (keys : List Bytes) (members additions : Members) :
    membersWithout keys (assignAll members additions) =
      assignAll (membersWithout keys members) (membersWithout keys additions) := by
  cases keys with
  | nil => rfl
  | cons key more =>
    refine changeMembers_assignAll (fun name => ?_) members additions
    by_cases hname : name = key
    · cases more with
      | nil => exact .inl fun value => by simp [hname]
      | cons next rest => exact .inr fun value => ⟨_, by simp [hname]; rfl⟩
    · exact .inr fun value => ⟨value, by simp [hname]⟩

/-- One key takes its member away. -/
theorem membersWithout_last (key : Bytes) (value : Value) :
    membersWithout [key] [(key, value)] = [] :=
  changeMembers_cons_none [] (by simp)

/-- More keys lead into the objects of the member. -/
theorem membersWithout_into (key : Bytes) {more : List Bytes} (hmore : more ≠ []) (value : Value) :
    membersWithout (key :: more) [(key, value)] =
      [(key, value.withObjects (membersWithout more))] :=
  changeMembers_cons_some [] (by simp [hmore])

end GraphQL
