import LockFreeRings.Json.Reader
set_option autoImplicit false

/-!
# Objects are maps

`Json.ofText` keeps one member for each name: a later member takes the place of an earlier
one (`names_putMember`).  So the members of an object that was read have different names
(`distinctNames_of_ofText`), whatever the text repeats.

The induction is on the moves of the machine that reads.  What it carries along is that of
all objects that are open the members read so far have different names.
-/

namespace LockFreeRings.Json

open Scan

/-- If the value is an object, its members have different names. -/
def DistinctNames : Json → Prop
  | .object members => (members.map Prod.fst).Nodup
  | _ => True

/-- If an object was begun, the members read so far have different names. -/
def Unfinished.DistinctNames : Unfinished → Prop
  | .array _ => True
  | .object members _ => (members.map Prod.fst).Nodup

variable {members : List (String × Json)} {name : String} {value : Json}

theorem any_name_iff : members.any (·.1 = name) = true ↔ name ∈ members.map Prod.fst := by
  simp

/-- A name is added if it is new. -/
theorem names_putMember :
    (putMember members name value).map Prod.fst =
      if name ∈ members.map Prod.fst then members.map Prod.fst
      else members.map Prod.fst ++ [name] := by
  unfold putMember
  split
  · next h =>
    rw [if_pos (any_name_iff.mp h), List.map_map]
    apply List.map_congr_left
    intro member _
    rw [Function.comp_apply]
    split
    · next heq => exact heq.symm
    · rfl
  · next h =>
    rw [if_neg fun hmem => h (any_name_iff.mpr hmem), List.map_append]
    rfl

theorem nodup_putMember (h : (members.map Prod.fst).Nodup) :
    ((putMember members name value).map Prod.fst).Nodup := by
  rw [names_putMember]
  split
  · exact h
  · next hnew =>
    refine List.nodup_append.mpr ⟨h, by simp, ?_⟩
    rintro _ hother _ hname rfl
    rw [List.mem_singleton.mp hname] at hother
    exact hnew hother

/-- A string, a number or a word is no object. -/
theorem distinctNames_of_readScalar {s rest : List Char} {v : Json}
    (h : readScalar s = .ok (v, rest)) : v.DistinctNames := by
  unfold readScalar at h
  split at h
  case h_1 => cases h
  case h_6 =>
    split at h
    · obtain ⟨_, -, he⟩ := exists_of_map_eq_ok h
      cases he
      trivial
    · cases h
  all_goals
    obtain ⟨_, -, he⟩ := exists_of_map_eq_ok h
    cases he
    trivial

/-- Each move keeps the names of open objects different, so those of the value that is read
in the end are. -/
theorem distinctNames_of_read :
    (∀ outer s, (∀ u ∈ outer, Unfinished.DistinctNames u) →
      ∀ v rest, readOpen outer s = .ok (v, rest) → v.DistinctNames) ∧
    ∀ outer value s, (∀ u ∈ outer, Unfinished.DistinctNames u) → value.DistinctNames →
      ∀ v rest, readClose outer value s = .ok (v, rest) → v.DistinctNames := by
  have harray : ∀ items, (array items).DistinctNames := fun _ => trivial
  have hobject : (object []).DistinctNames := List.nodup_nil
  have hbegun : ∀ items, Unfinished.DistinctNames (.array items) := fun _ => trivial
  have hbegun' : ∀ name, Unfinished.DistinctNames (.object [] name) := fun _ => List.nodup_nil
  have hput : ∀ members name value next, Unfinished.DistinctNames (.object members name) →
      Unfinished.DistinctNames (.object (putMember members name value) next) :=
    fun _ _ _ _ h => nodup_putMember h
  have hclosed : ∀ members name value, Unfinished.DistinctNames (.object members name) →
      (object (putMember members name value)).DistinctNames :=
    fun _ _ _ h => nodup_putMember h
  apply readOpen.mutual_induct
    (fun outer s => (∀ u ∈ outer, Unfinished.DistinctNames u) →
      ∀ v rest, readOpen outer s = .ok (v, rest) → v.DistinctNames)
    (fun outer value s => (∀ u ∈ outer, Unfinished.DistinctNames u) → value.DistinctNames →
      ∀ v rest, readClose outer value s = .ok (v, rest) → v.DistinctNames)
  -- the moves at the start of a value
  case case1 | case2 | case3 | case4 | case5 | case6 | case7 =>
    intros
    rename_i hread
    rw [readOpen.eq_def] at hread
    grind [distinctNames_of_readScalar]
  -- the moves behind a value
  all_goals
    intros
    rename_i hread
    rw [readClose.eq_def] at hread
    grind

/-- A value that is read from a text has different names. -/
theorem distinctNames_of_ofText {text : String} {v : Json} (h : ofText text = .ok v) :
    v.DistinctNames := by
  unfold ofText at h
  split at h
  · cases h
  · next value rest hread =>
    split at h
    · cases h
      exact distinctNames_of_read.1 [] _ (by simp) _ _ hread
    · cases h

end LockFreeRings.Json
