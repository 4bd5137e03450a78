import Unalias.Proofs.Path.Pieces
import Unalias.Proofs.Report.Recorded
import Unalias.Settings.Load
import Unalias.Text.Start

/-!
What variables put into the fields of the settings. A variable touches the field it names and no
other, whatever its text is, so that a field can be told from the variables that name it.
-/

namespace Unalias.Settings

/-- The field that a variable sets, or a part of which it sets. -/
def field? (name : String) : Option String :=
  (fieldPath? name).bind List.head?

theorem fieldPath?_eq_nil (name : String) : fieldPath? name ≠ some [] := by
  intro h
  rw [fieldPath?] at h
  split at h
  · cases h
  · rename_i rest _
    have hsplit : Text.split '.' (Text.trim rest) ≠ [] := by
      rw [Text.split_eq_splitOn]
      exact List.splitOn_ne_nil _ _
    dsimp only at h
    split at h
    · cases h
    · exact hsplit (List.map_eq_nil_iff.1 (Option.some.inj h))

/-! ### Fields over fields -/

/-- The value of a field after a later value was put over what was there. -/
def stacked (old? : Option Value) (new : Value) : Value :=
  match old? with
  | some old => old.over new
  | none => new

theorem overEntries_cons (old : List (String × Value)) (key : String) (new : Value)
    (rest : List (String × Value)) :
    overEntries old ((key, new) :: rest) =
      overEntries (setEntry key (stacked (old.lookup key) new) old) rest := by
  rw [overEntries]
  rfl

section Entries

variable {old new : List (String × Value)}

theorem sorted_setEntry {key : String} {value : Value}
    (h : old.Pairwise fun a b => a.1 < b.1) :
    (setEntry key value old).Pairwise fun a b => a.1 < b.1 :=
  Index.place_sorted h

theorem lookup_setEntry {key k : String} {value : Value}
    (h : old.Pairwise fun a b => a.1 < b.1) :
    (setEntry key value old).lookup k = if k = key then some value else old.lookup k :=
  Index.lookup_place h

theorem sorted_overEntries (h : old.Pairwise fun a b => a.1 < b.1) :
    (overEntries old new).Pairwise fun a b => a.1 < b.1 := by
  induction new generalizing old with
  | nil => exact h
  | cons entry new ih =>
    rw [overEntries_cons]
    exact ih (sorted_setEntry h)

theorem lookup_overEntries (h : old.Pairwise fun a b => a.1 < b.1)
    (hnodup : (new.map Prod.fst).Nodup) (k : String) :
    (overEntries old new).lookup k =
      ((new.lookup k).map (stacked (old.lookup k))).or (old.lookup k) := by
  induction new generalizing old with
  | nil => rfl
  | cons entry new ih =>
    obtain ⟨key, value⟩ := entry
    obtain ⟨hkey, hnodup⟩ := List.nodup_cons.1 hnodup
    rw [overEntries_cons, ih (sorted_setEntry h) hnodup, lookup_setEntry h, List.lookup_cons]
    by_cases hk : k = key
    · subst hk
      simp [Keyed.lookup_eq_none hkey]
    · simp [hk, beq_false_of_ne]

end Entries

/-! ### Variables -/

section Variables

variable {fields fields' : List (String × Value)} {key : String}

theorem addVariable_of_field?_eq_none {setting : String × String}
    (h : field? setting.1 = none) : addVariable fields setting = fields := by
  rw [addVariable]
  cases hpath : fieldPath? setting.1 with
  | none => rfl
  | some path =>
    rw [field?, hpath] at h
    cases path with
    | nil => exact absurd hpath (fieldPath?_eq_nil _)
    | cons key keys => cases h

/-- A variable puts a value that depends on it alone over what its field holds. -/
theorem exists_addVariable_eq {setting : String × String} (h : field? setting.1 = some key) :
    ∃ value, ∀ fields, addVariable fields setting =
      setEntry key (stacked (fields.lookup key) value) fields := by
  cases hpath : fieldPath? setting.1 with
  | none =>
    rw [field?, hpath] at h
    cases h
  | some path =>
    rw [field?, hpath] at h
    obtain ⟨keys, rfl⟩ := List.head?_eq_some_iff.1 h
    refine ⟨nest keys (Value.ofText setting.2), fun fields => ?_⟩
    rw [addVariable, hpath]
    exact overEntries_cons fields key _ []

theorem sorted_addVariable {setting : String × String}
    (h : fields.Pairwise fun a b => a.1 < b.1) :
    (addVariable fields setting).Pairwise fun a b => a.1 < b.1 := by
  cases hfield : field? setting.1 with
  | none => rwa [addVariable_of_field?_eq_none hfield]
  | some key =>
    obtain ⟨value, hvalue⟩ := exists_addVariable_eq hfield
    rw [hvalue]
    exact sorted_setEntry h

theorem lookup_addVariable_of_ne {setting : String × String}
    (h : fields.Pairwise fun a b => a.1 < b.1) (hfield : field? setting.1 ≠ some key) :
    (addVariable fields setting).lookup key = fields.lookup key := by
  cases hother : field? setting.1 with
  | none => rw [addVariable_of_field?_eq_none hother]
  | some other =>
    obtain ⟨value, hvalue⟩ := exists_addVariable_eq hother
    have hne : key ≠ other := fun he => hfield (he ▸ hother)
    rw [hvalue, lookup_setEntry h, if_neg hne]

theorem lookup_addVariable_congr {setting : String × String}
    (h : fields.Pairwise fun a b => a.1 < b.1) (h' : fields'.Pairwise fun a b => a.1 < b.1)
    (hlookup : fields.lookup key = fields'.lookup key) :
    (addVariable fields setting).lookup key = (addVariable fields' setting).lookup key := by
  by_cases hfield : field? setting.1 = some key
  · obtain ⟨value, hvalue⟩ := exists_addVariable_eq hfield
    rw [hvalue, hvalue, lookup_setEntry h, lookup_setEntry h', hlookup]
  · rw [lookup_addVariable_of_ne h hfield, lookup_addVariable_of_ne h' hfield, hlookup]

theorem sorted_fieldsOf (environment : List (String × String)) :
    (fieldsOf environment).Pairwise fun a b => a.1 < b.1 := by
  suffices h : ∀ fields : List (String × Value), (fields.Pairwise fun a b => a.1 < b.1) →
      (environment.foldl addVariable fields).Pairwise fun a b => a.1 < b.1 from h [] .nil
  induction environment with
  | nil => exact fun _ h => h
  | cons setting environment ih => exact fun _ h => ih _ (sorted_addVariable h)

theorem fieldsOf_singleton (key : String) {name text : String} (h : fieldPath? name = some [key]) :
    fieldsOf [(name, text)] = [(key, Value.ofText text)] := by
  change addVariable [] (name, text) = _
  rw [addVariable, h]
  exact overEntries_cons [] key _ []

theorem nodup_keys_fieldsOf (environment : List (String × String)) :
    ((fieldsOf environment).map Prod.fst).Nodup :=
  Index.nodup_keys_of_sorted (sorted_fieldsOf environment)

/-- Variables of other fields may be left out. -/
theorem lookup_fieldsOf_filter {keep : String × String → Bool}
    (hkeep : ∀ setting, field? setting.1 = some key → keep setting = true)
    (environment : List (String × String)) :
    (fieldsOf (environment.filter keep)).lookup key = (fieldsOf environment).lookup key := by
  suffices h : ∀ fields fields' : List (String × Value),
      (fields.Pairwise fun a b => a.1 < b.1) → (fields'.Pairwise fun a b => a.1 < b.1) →
      fields.lookup key = fields'.lookup key →
      ((environment.filter keep).foldl addVariable fields).lookup key =
        (environment.foldl addVariable fields').lookup key from h [] [] .nil .nil rfl
  induction environment with
  | nil => exact fun _ _ _ _ hlookup => hlookup
  | cons setting environment ih =>
    intro fields fields' h h' hlookup
    by_cases hsetting : keep setting = true
    · rw [List.filter_cons_of_pos hsetting]
      exact ih _ _ (sorted_addVariable h) (sorted_addVariable h')
        (lookup_addVariable_congr h h' hlookup)
    · rw [List.filter_cons_of_neg hsetting]
      have hother : field? setting.1 ≠ some key := fun hfield => hsetting (hkeep setting hfield)
      exact ih _ _ h (sorted_addVariable h')
        (hlookup.trans (lookup_addVariable_of_ne h' hother).symm)

end Variables

/-! ### Names in any letter case -/

/-- The fields that a run has, in the order in which they are read. -/
def names : List String :=
  ["concurrency", "dry_run", "resolve_from", "sync", "verbose"]

/-- A variable names a field by the prefix and the name of the field, each in any letter case. -/
theorem field?_of_lower {name key : String} (hkey : key ∈ names)
    (h : lower name.toList = lower variablePrefix.toList ++ key.toList) :
    field? name = some key := by
  have hsolid : ∀ key ∈ names,
      (lower variablePrefix.toList ++ key.toList).any Text.isBlank = false := by decide
  have hpath : ∀ key ∈ names, Text.split '.' (Text.trim key.toList) = [key.toList] := by decide
  have hne : ∀ key ∈ names, key.toList ≠ [] := by decide
  have htrim : Text.trim name.toList = name.toList := by
    apply Text.trim_of_forall
    intro c hc
    cases hblank : Text.isBlank c with
    | false => rfl
    | true =>
      have hmem : c ∈ lower name.toList :=
        List.mem_map.2 ⟨c, hc, Text.toLower_of_isBlank hblank⟩
      rw [h] at hmem
      exact absurd hblank (List.any_eq_false.1 (hsolid key hkey) c hmem)
  have hrest : (lower variablePrefix.toList).isPrefixOf? (lower name.toList) = some key.toList := by
    rw [h]
    exact Text.isPrefixOf?_append _ _
  rw [field?, fieldPath?, htrim, hrest]
  simp [hpath key hkey, hne key hkey]

end Unalias.Settings
