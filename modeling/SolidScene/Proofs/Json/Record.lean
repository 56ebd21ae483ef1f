import Mathlib.Data.List.Basic
import SolidScene.Json.Value

/-!
# Records

The values of the fields of an object, whatever the order of its members and whatever other members
it has (`fields?_of_record`). A field that is given twice has none (`fields?_of_repeated`).
-/

namespace SolidScene.Json

/-- The keys of the members are texts, and none of these. -/
def Others (keys : List String) (members : List Member) : Prop :=
  ∀ m ∈ members, ∃ key, m.1 = some key ∧ key ∉ keys

/-- The members for fields with these values, none for a field that is left out. -/
def given : List String → List (Option Json) → List Member
  | key :: keys, value? :: values => value?.toList.map (some key, ·) ++ given keys values
  | _, _ => []

/-- An object whose members give these values to the fields, in any order and among others. -/
inductive Record (keys : List String) (values : List (Option Json)) : Json → Prop
  | mk {members others : List Member} (hothers : Others keys others)
    (hperm : members.Perm (given keys values ++ others)) : Record keys values (.object members)

theorem mem_given {keys : List String} {values : List (Option Json)} {m : Member}
    (h : m ∈ given keys values) : ∃ key ∈ keys, m.1 = some key := by
  induction keys generalizing values with
  | nil => simp [given] at h
  | cons key keys ih =>
    cases values with
    | nil => simp [given] at h
    | cons value? values =>
      rw [given, List.mem_append] at h
      rcases h with h | h
      · obtain ⟨_, -, rfl⟩ := List.mem_map.1 h
        exact ⟨key, List.mem_cons_self, rfl⟩
      · obtain ⟨key', hkey', hm⟩ := ih h
        exact ⟨key', List.mem_cons_of_mem _ hkey', hm⟩

theorem field?_of_perm {key : String} {value? : Option Json} {members others : List Member}
    (hothers : ∀ m ∈ others, m.1 ≠ some key)
    (hperm : members.Perm (value?.toList.map (some key, ·) ++ others)) :
    field? members key = some value? := by
  have hfilter := hperm.filter (·.1 == some key)
  have hnone : others.filter (·.1 == some key) = [] :=
    List.filter_eq_nil_iff.2 fun m hm => by simpa using hothers m hm
  rw [List.filter_append, hnone, List.append_nil] at hfilter
  cases value? with
  | none => rw [field?, List.perm_nil.1 hfilter]
  | some value =>
    have hone : [((some key, value) : Member)].filter (·.1 == some key) = [(some key, value)] := by
      simp
    rw [Option.toList_some, List.map_singleton, hone, List.perm_singleton] at hfilter
    rw [field?, hfilter]

theorem mapM_field? {keys : List String} (hkeys : keys.Nodup) {values : List (Option Json)}
    (hlength : values.length = keys.length) {members others : List Member}
    (hothers : ∀ m ∈ others, ∀ key ∈ keys, m.1 ≠ some key)
    (hperm : members.Perm (given keys values ++ others)) :
    keys.mapM (field? members) = some values := by
  induction keys generalizing values others with
  | nil =>
    rw [List.length_eq_zero_iff.1 hlength]
    rfl
  | cons key keys ih =>
    obtain ⟨value?, values, rfl⟩ := List.exists_cons_of_length_eq_add_one hlength
    obtain ⟨hkey, hkeys⟩ := List.nodup_cons.1 hkeys
    rw [given, List.append_assoc] at hperm
    have hfirst : field? members key = some value? := by
      refine field?_of_perm (fun m hm heq => ?_) hperm
      rcases List.mem_append.1 hm with hm | hm
      · obtain ⟨key', hkey', hm'⟩ := mem_given hm
        exact hkey (Option.some.inj (heq.symm.trans hm') ▸ hkey')
      · exact hothers m hm key List.mem_cons_self heq
    -- for the other fields the first one is one of the others
    have hrest : keys.mapM (field? members) = some values := by
      refine ih hkeys (Nat.succ.inj hlength) (fun m hm key' hkey' heq => ?_)
        (hperm.trans (List.perm_append_comm_assoc ..))
      rcases List.mem_append.1 hm with hm | hm
      · obtain ⟨_, -, rfl⟩ := List.mem_map.1 hm
        exact hkey (Option.some.inj heq ▸ hkey')
      · exact hothers m hm key' (List.mem_cons_of_mem _ hkey') heq
    rw [List.mapM_cons, hfirst, hrest]
    rfl

/-- The fields of a record are read as their values. -/
theorem fields?_of_record {keys : List String} (hkeys : keys.Nodup) {values : List (Option Json)}
    (hlength : values.length = keys.length) {v : Json} (h : Record keys values v) :
    fields? keys v = some values := by
  obtain ⟨hothers, hperm⟩ := h
  rename_i members others
  have htext : members.all (·.1.isSome) = true := by
    refine List.all_eq_true.2 fun m hm => ?_
    rcases List.mem_append.1 (hperm.mem_iff.1 hm) with hm | hm
    · obtain ⟨key, -, hkey⟩ := mem_given hm
      rw [hkey, Option.isSome_some]
    · obtain ⟨key, hkey, -⟩ := hothers m hm
      rw [hkey, Option.isSome_some]
  rw [fields?, if_pos htext]
  refine mapM_field? hkeys hlength (fun m hm key hkey heq => ?_) hperm
  obtain ⟨key', hkey', hnot⟩ := hothers m hm
  exact hnot (Option.some.inj (hkey'.symm.trans heq) ▸ hkey)

/-! ## Fields given twice -/

/-- The object gives a value to the field more than once. -/
def Repeated (key : String) (members : List Member) : Prop :=
  2 ≤ (members.map Prod.fst).count (some key)

theorem field?_of_repeated {key : String} {members : List Member} (h : Repeated key members) :
    field? members key = none := by
  have hlength : 2 ≤ (members.filter (·.1 == some key)).length := by
    rwa [Repeated, List.count, List.countP_map, List.countP_eq_length_filter] at h
  unfold field?
  split
  · rename_i hnil
    simp [hnil] at hlength
  · rename_i hone
    simp [hone] at hlength
  · rfl

/-- A field that a member gives has its value, or none where the field is given again. -/
theorem field?_of_mem {key : String} {v : Json} {members : List Member}
    (h : (some key, v) ∈ members) :
    field? members key = some (some v) ∨ field? members key = none := by
  have hmem : (some key, v) ∈ members.filter (·.1 == some key) := List.mem_filter.2 ⟨h, by simp⟩
  unfold field?
  split
  · rename_i hnil
    rw [hnil] at hmem
    cases hmem
  · rename_i hone
    rw [hone, List.mem_singleton] at hmem
    cases hmem
    exact .inl rfl
  · exact .inr rfl

theorem fields?_of_repeated {key : String} {keys : List String} (hkey : key ∈ keys)
    {members : List Member} (h : Repeated key members) : fields? keys (.object members) = none := by
  have hnone : keys.mapM (field? members) = none := by
    induction keys with
    | nil => cases hkey
    | cons key' keys ih =>
      rw [List.mapM_cons]
      rcases List.mem_cons.1 hkey with rfl | hkey
      · rw [field?_of_repeated h]
        rfl
      · rw [ih hkey]
        cases field? members key' <;> rfl
  rw [fields?, hnone, ite_self]

end SolidScene.Json
