/-
GraphQL.Proofs.Value.Members — keyed lists and their keys.

  §1 Items    — lists that are related item by item.
  §2 Keys     — what is found under a key.
  §3 Members  — keyed lists whose members are related.

A list of keyed things is looked up from the front. Where keys differ, the
order does not matter for what is found, and neither do members of other keys.
-/
import GraphQL.Text.Bytes
import Mathlib.Data.List.Forall2

namespace GraphQL

/-! ## §1 Items -/

/-- Each of two lists that are related item by item has a partner for the other's items. -/
theorem exists_of_mem_left {α β : Type} {R : α → β → Prop} {as : List α} {bs : List β}
    (h : List.Forall₂ R as bs) {a : α} (hmem : a ∈ as) : ∃ b ∈ bs, R a b := by
  induction h with
  | nil => cases hmem
  | cons hfirst _ ih =>
    rcases List.mem_cons.1 hmem with rfl | hmem
    · exact ⟨_, List.mem_cons_self, hfirst⟩
    · obtain ⟨b, hb, hrelated⟩ := ih hmem
      exact ⟨b, List.mem_cons_of_mem _ hb, hrelated⟩

theorem exists_of_mem_right {α β : Type} {R : α → β → Prop} {as : List α} {bs : List β}
    (h : List.Forall₂ R as bs) {b : β} (hmem : b ∈ bs) : ∃ a ∈ as, R a b :=
  exists_of_mem_left h.flip hmem

/-- Two lists that are related item by item are searched alike. -/
theorem find?_rel {α β : Type} {R : α → β → Prop} {p : α → Bool} {q : β → Bool}
    (hsame : ∀ a b, R a b → p a = q b) {as : List α} {bs : List β} (h : List.Forall₂ R as bs) :
    Option.Rel R (as.find? p) (bs.find? q) := by
  induction h with
  | nil => exact .none
  | cons hfirst _ ih =>
    rw [List.find?_cons, List.find?_cons, hsame _ _ hfirst]
    split
    · exact .some hfirst
    · exact ih

/-- What is read alike off related items gives the same list. -/
theorem map_eq_of_forall₂ {α β γ : Type} {R : α → β → Prop} {f : α → γ} {g : β → γ}
    {as : List α} {bs : List β} (h : List.Forall₂ R as bs) (heq : ∀ a b, R a b → f a = g b) :
    as.map f = bs.map g := by
  induction h with
  | nil => rfl
  | cons hfirst _ ih => rw [List.map_cons, List.map_cons, heq _ _ hfirst, ih]

theorem filterMap_eq_of_forall₂ {α β γ : Type} {R : α → β → Prop} {f : α → Option γ}
    {g : β → Option γ} {as : List α} {bs : List β} (h : List.Forall₂ R as bs)
    (heq : ∀ a b, R a b → f a = g b) : as.filterMap f = bs.filterMap g := by
  induction h with
  | nil => rfl
  | cons hfirst _ ih => rw [List.filterMap_cons, List.filterMap_cons, heq _ _ hfirst, ih]

/-! ## §2 Keys -/

variable {α : Type} {members : List (Bytes × α)} {key : Bytes} {value : α}

/-- Nothing is found under a key that no member has. -/
theorem lookup_eq_none_of_keys (h : key ∉ members.map (·.1)) : members.lookup key = none := by
  rw [List.lookup_eq_none_iff]
  intro member hmember
  rw [bne_iff_ne]
  rintro rfl
  exact h (List.mem_map_of_mem hmember)

/-- What is found under a key is a member. -/
theorem mem_of_lookup (h : members.lookup key = some value) : (key, value) ∈ members := by
  obtain ⟨before, after, rfl, _⟩ := List.lookup_eq_some_iff.1 h
  simp

/-- Something is found under the keys of members, and under no other key. -/
theorem mem_keys_iff : key ∈ members.map (·.1) ↔ (members.lookup key).isSome = true := by
  constructor
  · intro hkey
    obtain ⟨member, hmember, rfl⟩ := List.mem_map.1 hkey
    cases hfound : members.lookup member.1 with
    | some value => rfl
    | none => exact absurd rfl (bne_iff_ne.1 (List.lookup_eq_none_iff.1 hfound member hmember))
  · intro hfound
    obtain ⟨value, hvalue⟩ := Option.isSome_iff_exists.1 hfound
    exact List.mem_map_of_mem (mem_of_lookup hvalue)

/-- Where keys differ, every member is found. -/
theorem lookup_of_mem (hkeys : (members.map (·.1)).Nodup) (h : (key, value) ∈ members) :
    members.lookup key = some value := by
  induction members with
  | nil => cases h
  | cons member members ih =>
    obtain ⟨hfresh, hkeys⟩ := List.nodup_cons.1 hkeys
    rw [List.lookup_cons]
    rcases List.mem_cons.1 h with rfl | hrest
    · simp
    · have hne : key ≠ member.1 := fun heq => hfresh (List.mem_map.2 ⟨_, hrest, heq⟩)
      rw [beq_eq_false_iff_ne.2 hne]
      exact ih hkeys hrest

/-- Members of other keys can be left out. -/
theorem lookup_filter {p : Bytes → Bool} (hkey : p key = true) :
    (members.filter fun member => p member.1).lookup key = members.lookup key := by
  induction members with
  | nil => rfl
  | cons member rest ih =>
    rw [List.filter_cons, List.lookup_cons]
    by_cases hsame : key = member.1
    · rw [if_pos (hsame ▸ hkey), List.lookup_cons, ← hsame]
      simp
    · rw [beq_eq_false_iff_ne.2 hsame]
      split
      · rw [List.lookup_cons, beq_eq_false_iff_ne.2 hsame, ih]
      · exact ih

/-- Where keys differ, an entry that makes a member is found by it, and no other one is found
in its place. -/
theorem lookup_filterMap {β : Type} {name : β → Bytes} {make : β → Option α} {entries : List β}
    (hnames : (entries.map name).Nodup) {entry : β} (hentry : entry ∈ entries) :
    (entries.filterMap fun entry => (make entry).map (name entry, ·)).lookup (name entry) =
      make entry := by
  induction entries with
  | nil => cases hentry
  | cons first rest ih =>
    obtain ⟨hfresh, hnames⟩ := List.nodup_cons.1 hnames
    rw [List.filterMap_cons]
    rcases List.mem_cons.1 hentry with rfl | hrest
    · cases hmade : make entry with
      | some value => simp
      | none =>
        refine lookup_eq_none_of_keys fun hkey => hfresh ?_
        obtain ⟨member, hmember, hsame⟩ := List.mem_map.1 hkey
        obtain ⟨other, hother, hmade⟩ := List.mem_filterMap.1 hmember
        obtain ⟨value, -, rfl⟩ := Option.map_eq_some_iff.1 hmade
        exact List.mem_map.2 ⟨other, hother, hsame⟩
    · have hne : name entry ≠ name first :=
        fun hsame => hfresh (List.mem_map.2 ⟨entry, hrest, hsame⟩)
      cases hmade : make first with
      | none => exact ih hnames hrest
      | some value =>
        rw [Option.map_some, List.lookup_cons, beq_eq_false_iff_ne.2 hne]
        exact ih hnames hrest

/-- Entries of different names make members of different keys. -/
theorem nodup_keys_filterMap {β : Type} {name : β → Bytes} {make : β → Option α}
    {entries : List β} (hnames : (entries.map name).Nodup) :
    ((entries.filterMap fun entry => (make entry).map (name entry, ·)).map (·.1)).Nodup := by
  refine hnames.sublist ?_
  induction entries with
  | nil => exact .slnil
  | cons first rest ih =>
    have hrest := ih (List.nodup_cons.1 hnames).2
    rw [List.filterMap_cons, List.map_cons]
    cases make first with
    | none => exact hrest.cons _
    | some value => exact hrest.cons_cons _

/-- Where keys differ, members in another order are found alike. -/
theorem lookup_perm {others : List (Bytes × α)} (hkeys : (members.map (·.1)).Nodup)
    (h : members.Perm others) : members.lookup key = others.lookup key := by
  have hothers : (others.map (·.1)).Nodup := (h.map (·.1)).nodup_iff.1 hkeys
  cases hfound : members.lookup key with
  | some value => exact (lookup_of_mem hothers (h.mem_iff.1 (mem_of_lookup hfound))).symm
  | none =>
    refine (lookup_eq_none_of_keys fun hkey => ?_).symm
    rw [(h.map (·.1)).mem_iff.symm, mem_keys_iff, hfound] at hkey
    cases hkey

/-- A search by name is a lookup. -/
theorem find?_eq_lookup {name : α → Bytes} (entries : List α) (key : Bytes) :
    entries.find? (name · == key) = (entries.map fun entry => (name entry, entry)).lookup key := by
  induction entries with
  | nil => rfl
  | cons entry rest ih =>
    rw [List.find?_cons, List.map_cons, List.lookup_cons, BEq.comm, ih]

/-! ## §3 Members -/

/-- In lists with the same keys, what is found is related as the members are. -/
theorem lookup_rel {β : Type} {R : α → β → Prop} {others : List (Bytes × β)}
    (h : List.Forall₂ (fun member other => member.1 = other.1 ∧ R member.2 other.2) members others)
    (key : Bytes) : Option.Rel R (members.lookup key) (others.lookup key) := by
  induction h with
  | nil => exact .none
  | cons hmember _ ih =>
    obtain ⟨hkey, hrelated⟩ := hmember
    rw [List.lookup_cons, List.lookup_cons, hkey]
    split
    · exact .some hrelated
    · exact ih

/-- Where keys differ, related members in another order are found alike. -/
theorem lookup_rel_perm {β : Type} {R : α → β → Prop} {alike others : List (Bytes × β)}
    (hkeys : (members.map (·.1)).Nodup)
    (h : List.Forall₂ (fun member other => member.1 = other.1 ∧ R member.2 other.2) members alike)
    (hperm : alike.Perm others) (key : Bytes) :
    Option.Rel R (members.lookup key) (others.lookup key) := by
  rw [map_eq_of_forall₂ h fun _ _ hsame => hsame.1] at hkeys
  rw [← lookup_perm hkeys hperm]
  exact lookup_rel h key

end GraphQL
