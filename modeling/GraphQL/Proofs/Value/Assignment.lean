/-
GraphQL.Proofs.Value.Assignment — members that are assigned one after another.

  §1 One member     — what `assign` does to the keys and to what is found.
  §2 Many members   — the same for `assignAll`.
  §3 Regrouping     — assigning what was assembled apart.
  §4 Relations      — assigning related values under the same keys.

An object holds each key once, where the key was first assigned, with the value
that was assigned last. Both are stated for lists of assignments, so that nothing
else need be known of `assign`.
-/
import GraphQL.Value.Basic
import Mathlib.Data.List.Forall2
import Mathlib.Data.List.Induction

namespace GraphQL

variable {α : Type} {members additions : List (Bytes × α)} {key other : Bytes} {value : α}

/-! ## §1 One member -/

/-- A key that is there keeps its place, and a new one comes to the end. -/
theorem keys_assign (members : List (Bytes × α)) (key : Bytes) (value : α) :
    (assign members key value).map (·.1) =
      if key ∈ members.map (·.1) then members.map (·.1) else members.map (·.1) ++ [key] := by
  induction members with
  | nil => rfl
  | cons member rest ih =>
    obtain ⟨k, v⟩ := member
    by_cases hkey : k = key
    · simp [assign, hkey]
    · have hother : key ≠ k := Ne.symm hkey
      simp only [assign, beq_iff_eq, hkey, if_false, List.map_cons, ih, List.mem_cons, hother,
        false_or]
      split <;> rfl

theorem assign_of_not_mem (h : key ∉ members.map (·.1)) :
    assign members key value = members ++ [(key, value)] := by
  induction members with
  | nil => rfl
  | cons member rest ih =>
    rw [List.map_cons, List.mem_cons, not_or] at h
    rw [assign, if_neg (by simpa using Ne.symm h.1), ih h.2, List.cons_append]

/-- The first member is found under its key, and passed over under another one. -/
theorem lookup_cons_eq (key : Bytes) (value : α) (rest : List (Bytes × α)) (other : Bytes) :
    ((key, value) :: rest).lookup other =
      if other = key then some value else rest.lookup other := by
  by_cases h : other = key
  · subst h
    simp
  · rw [List.lookup_cons, beq_eq_false_iff_ne.2 h, if_neg h]

/-- What is assigned is found under its key, and under other keys what was there. -/
theorem lookup_assign (members : List (Bytes × α)) (key : Bytes) (value : α) (other : Bytes) :
    (assign members key value).lookup other =
      if other = key then some value else members.lookup other := by
  induction members with
  | nil => exact lookup_cons_eq key value [] other
  | cons member rest ih =>
    obtain ⟨k, v⟩ := member
    by_cases hkey : k = key
    · subst hkey
      rw [assign, if_pos (beq_self_eq_true k), lookup_cons_eq, lookup_cons_eq]
      by_cases h : other = k <;> simp [h]
    · rw [assign, if_neg (by simpa using hkey), lookup_cons_eq, lookup_cons_eq, ih]
      by_cases h : other = k
      · subst h
        simp [hkey]
      · simp [h]

/-- A member comes from the list or is the one that is assigned. -/
theorem mem_of_mem_assign {member : Bytes × α} (h : member ∈ assign members key value) :
    member ∈ members ∨ member = (key, value) := by
  induction members with
  | nil => exact .inr (List.mem_singleton.1 h)
  | cons first rest ih =>
    obtain ⟨k, v⟩ := first
    by_cases hkey : k = key
    · subst hkey
      rw [assign, if_pos (beq_self_eq_true k)] at h
      rcases List.mem_cons.1 h with rfl | hrest
      · exact .inr rfl
      · exact .inl (List.mem_cons_of_mem _ hrest)
    · rw [assign, if_neg (by simpa using hkey)] at h
      rcases List.mem_cons.1 h with rfl | hrest
      · exact .inl List.mem_cons_self
      · exact (ih hrest).imp (List.mem_cons_of_mem _) id

/-! ## §2 Many members -/

theorem assignAll_append (members first later : List (Bytes × α)) :
    assignAll members (first ++ later) = assignAll (assignAll members first) later :=
  List.foldl_append

theorem assignAll_cons (members later : List (Bytes × α)) (key : Bytes) (value : α) :
    assignAll members ((key, value) :: later) = assignAll (assign members key value) later :=
  rfl

/-- Each key stands once, in the place of its first assignment. -/
theorem keys_assignAll (additions : List (Bytes × α)) :
    (assignAll [] additions).map (·.1) = (additions.map (·.1)).eraseDups := by
  induction additions using List.reverseRecOn with
  | nil => rfl
  | append_singleton before last ih =>
    have hlast : assignAll [] (before ++ [last]) =
        assign (assignAll [] before) last.1 last.2 := assignAll_append _ _ _
    rw [hlast, keys_assign, ih, List.map_append, List.eraseDups_append]
    by_cases h : last.1 ∈ before.map (·.1)
    · simp [h, List.removeAll]
    · simp [h, List.removeAll, List.eraseDups_cons]

/-- Keys that are there once are there once after assignments. -/
theorem nodup_keys_assignAll (h : (members.map (·.1)).Nodup) :
    ((assignAll members additions).map (·.1)).Nodup := by
  induction additions generalizing members with
  | nil => exact h
  | cons first rest ih =>
    refine ih ?_
    rw [keys_assign]
    by_cases hkey : first.1 ∈ members.map (·.1)
    · rwa [if_pos hkey]
    · rw [if_neg hkey]
      refine List.nodup_append.2 ⟨h, by simp, fun other hother last hlast heq => hkey ?_⟩
      rwa [← List.mem_singleton.1 hlast, ← heq]

/-- Where keys differ, what is assigned is what there is. -/
theorem assignAll_of_nodup (h : (additions.map (·.1)).Nodup) :
    assignAll [] additions = additions := by
  induction additions using List.reverseRecOn with
  | nil => rfl
  | append_singleton before last ih =>
    rw [List.map_append, List.nodup_append] at h
    obtain ⟨hbefore, -, hdiffer⟩ := h
    have hfresh : last.1 ∉ before.map (·.1) := fun hmem =>
      hdiffer _ hmem _ (List.mem_singleton_self _) rfl
    rw [assignAll_append, ih hbefore]
    exact assign_of_not_mem hfresh

/-- Under a key that is not assigned stands what stood there. -/
theorem lookup_assignAll_of_not_mem (h : key ∉ additions.map (·.1)) :
    (assignAll members additions).lookup key = members.lookup key := by
  induction additions generalizing members with
  | nil => rfl
  | cons first rest ih =>
    obtain ⟨k, v⟩ := first
    obtain ⟨hfirst, hrest⟩ : key ≠ k ∧ key ∉ rest.map (·.1) := by simpa using h
    rw [assignAll_cons, ih hrest, lookup_assign, if_neg hfirst]

/-- What is found under a key is the value of its last assignment. -/
theorem lookup_assignAll_of_last (before later : List (Bytes × α))
    (h : key ∉ later.map (·.1)) :
    (assignAll members (before ++ (key, value) :: later)).lookup key = some value := by
  rw [assignAll_append, assignAll_cons, lookup_assignAll_of_not_mem h, lookup_assign, if_pos rfl]

/-- A member comes from the list or from one of the assignments. -/
theorem mem_of_mem_assignAll {member : Bytes × α} (h : member ∈ assignAll members additions) :
    member ∈ members ∨ member ∈ additions := by
  induction additions generalizing members with
  | nil => exact .inl h
  | cons first rest ih =>
    rcases ih h with hmember | hrest
    · rcases mem_of_mem_assign hmember with hmember | rfl
      · exact .inl hmember
      · exact .inr List.mem_cons_self
    · exact .inr (List.mem_cons_of_mem _ hrest)

/-- What is found under a key is what was assigned last, or else what was there. -/
theorem lookup_assignAll (members additions : List (Bytes × α)) (key : Bytes) :
    (assignAll members additions).lookup key = (additions.reverse ++ members).lookup key := by
  induction additions generalizing members with
  | nil => rfl
  | cons first rest ih =>
    obtain ⟨k, v⟩ := first
    rw [assignAll_cons, ih, List.reverse_cons, List.append_assoc, List.lookup_append,
      List.lookup_append, lookup_assign, List.singleton_append, lookup_cons_eq]

/-! ## §3 Regrouping -/

/-- The later of two assignments to a key is the one that counts. -/
theorem assign_assign_same (members : List (Bytes × α)) (key : Bytes) (value later : α) :
    assign (assign members key value) key later = assign members key later := by
  induction members with
  | nil => simp [assign]
  | cons member rest ih =>
    obtain ⟨k, v⟩ := member
    by_cases hkey : k = key <;> simp [assign, hkey, ih]

/-- A key that has its place may be assigned before or after another one. -/
theorem assign_comm (hkey : key ∈ members.map (·.1)) (hne : key ≠ other) (value later : α) :
    assign (assign members key value) other later =
      assign (assign members other later) key value := by
  induction members with
  | nil => cases hkey
  | cons member rest ih =>
    obtain ⟨k, v⟩ := member
    by_cases hk : k = key
    · subst hk
      simp [assign, hne]
    · have hrest : key ∈ rest.map (·.1) := by simpa [Ne.symm hk] using hkey
      by_cases ho : k = other
      · subst ho
        simp [assign, hk]
      · simp [assign, hk, ho, ih hrest]

/-- A key that has its place may be assigned before or after a list of others. -/
theorem assignAll_assign_comm (hkey : key ∈ members.map (·.1))
    (hfresh : key ∉ additions.map (·.1)) (value : α) :
    assignAll (assign members key value) additions =
      assign (assignAll members additions) key value := by
  induction additions generalizing members with
  | nil => rfl
  | cons first rest ih =>
    obtain ⟨k, v⟩ := first
    obtain ⟨hne, hrest⟩ : key ≠ k ∧ key ∉ rest.map (·.1) := by simpa using hfresh
    have hplaced : key ∈ (assign members k v).map (·.1) := by
      rw [keys_assign]
      split
      · exact hkey
      · exact List.mem_append_left _ hkey
    rw [assignAll_cons, assign_comm hkey hne, ih hplaced hrest, assignAll_cons]

/-- A member assigned to a list counts where the list is assigned. -/
theorem assignAll_assign (members : List (Bytes × α)) (h : (additions.map (·.1)).Nodup)
    (key : Bytes) (value : α) :
    assignAll members (assign additions key value) =
      assign (assignAll members additions) key value := by
  induction additions generalizing members with
  | nil => rfl
  | cons first rest ih =>
    obtain ⟨k, v⟩ := first
    obtain ⟨hfresh, hrest⟩ := List.nodup_cons.1 h
    by_cases hkey : k = key
    · subst hkey
      have hplaced : k ∈ (assign members k v).map (·.1) := by
        rw [keys_assign]
        split
        · assumption
        · simp
      rw [assign, if_pos (beq_self_eq_true k), assignAll_cons, assignAll_cons,
        ← assign_assign_same members k v value, assignAll_assign_comm hplaced hfresh]
    · rw [assign, if_neg (by simpa using hkey), assignAll_cons, assignAll_cons, ih _ hrest]

/-- Members may be assembled apart before they are assigned. -/
theorem assignAll_assignAll_nil (members additions : List (Bytes × α)) :
    assignAll members (assignAll [] additions) = assignAll members additions := by
  induction additions using List.reverseRecOn with
  | nil => rfl
  | append_singleton before last ih =>
    have hnodup : ((assignAll [] before).map (·.1)).Nodup :=
      nodup_keys_assignAll List.nodup_nil
    have hlast (start : List (Bytes × α)) : assignAll start (before ++ [last]) =
        assign (assignAll start before) last.1 last.2 := assignAll_append _ _ _
    rw [hlast, hlast, assignAll_assign members hnodup, ih]

/-! ## §4 Relations -/

section Relations

variable {β : Type} {R : α → β → Prop} {others later : List (Bytes × β)}

/-- Related values that are assigned to related members, under the same key, leave them related. -/
theorem assign_rel {given : β}
    (h : List.Forall₂ (fun member other => member.1 = other.1 ∧ R member.2 other.2) members others)
    (hvalue : R value given) :
    List.Forall₂ (fun member other => member.1 = other.1 ∧ R member.2 other.2)
      (assign members key value) (assign others key given) := by
  induction h with
  | nil => exact .cons ⟨rfl, hvalue⟩ .nil
  | cons hfirst hrest ih =>
    unfold assign
    rw [hfirst.1]
    split
    · exact .cons ⟨rfl, hvalue⟩ hrest
    · exact .cons ⟨rfl, hfirst.2⟩ ih

theorem assignAll_rel
    (h : List.Forall₂ (fun member other => member.1 = other.1 ∧ R member.2 other.2) members others)
    (hadditions : List.Forall₂ (fun member other => member.1 = other.1 ∧ R member.2 other.2)
      additions later) :
    List.Forall₂ (fun member other => member.1 = other.1 ∧ R member.2 other.2)
      (assignAll members additions) (assignAll others later) := by
  induction hadditions generalizing members others with
  | nil => exact h
  | cons hfirst _ ih =>
    rw [assignAll_cons, assignAll_cons]
    refine ih ?_
    rw [← hfirst.1]
    exact assign_rel h hfirst.2

end Relations

end GraphQL
