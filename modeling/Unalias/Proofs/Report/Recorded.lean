import Unalias.Proofs.Files.Outline
import Unalias.Report.Basic

/-!
Reports as what their records add up to. An index is known from what is found in it, so two records
of different files may come in either order, and the report of outcomes under distinct files does
not depend on their order.
-/

namespace Unalias

namespace Index

variable {α : Type}

theorem lookup_eq_none_of_lt {k : String} {l : List (String × α)} (h : ∀ x ∈ l, k < x.1) :
    l.lookup k = none := by
  apply Keyed.lookup_eq_none
  intro hk
  obtain ⟨x, hx, rfl⟩ := List.mem_map.1 hk
  exact String.lt_irrefl _ (h x hx)

theorem lookup_place {key k : String} {f : Option α → α} {l : List (String × α)}
    (h : l.Pairwise fun a b => a.1 < b.1) :
    (place key f l).lookup k = if k = key then some (f (l.lookup key)) else l.lookup k := by
  induction l with
  | nil =>
    by_cases hk : k = key
    · simp [place, hk]
    · simp [place, List.lookup_cons, hk, beq_false_of_ne]
  | cons x l ih =>
    obtain ⟨k', a⟩ := x
    obtain ⟨hlt, hl⟩ := List.pairwise_cons.1 h
    rw [place]
    split
    · rename_i hbefore
      have hnone : ((k', a) :: l).lookup key = none := by
        apply lookup_eq_none_of_lt
        intro x hx
        cases List.mem_cons.1 hx with
        | inl hx => exact hx ▸ hbefore
        | inr hx => exact String.lt_trans hbefore (hlt x hx)
      rw [List.lookup_cons, hnone]
      by_cases hk : k = key
      · simp [hk]
      · simp [hk, beq_false_of_ne]
    · split
      · rename_i hkey
        subst hkey
        by_cases hk : k = key
        · simp [hk]
        · simp [List.lookup_cons, hk, beq_false_of_ne]
      · rename_i hkey
        rw [List.lookup_cons, List.lookup_cons, ih hl, List.lookup_cons, beq_false_of_ne hkey]
        by_cases hk : k = k'
        · have hne : k ≠ key := fun he => hkey (he ▸ hk)
          simp [hk, Ne.symm hkey]
        · simp [beq_false_of_ne hk]

theorem get?_update (x : Index α) (key k : String) (f : Option α → α) :
    (x.update key f).get? k = if k = key then some (f (x.get? key)) else x.get? k :=
  lookup_place x.sorted

/-- What is found in a rising list under the first key of another is found no later there. -/
theorem not_lt_of_lookup {k k' : String} {a a' : α} {l l' : List (String × α)}
    (h : ((k', a') :: l').Pairwise fun a b => a.1 < b.1)
    (hlookup : ((k, a) :: l).lookup k = ((k', a') :: l').lookup k) : ¬k < k' := by
  intro hk
  have hnone : ((k', a') :: l').lookup k = none := by
    apply lookup_eq_none_of_lt
    intro x hx
    cases List.mem_cons.1 hx with
    | inl hx => exact hx ▸ hk
    | inr hx => exact String.lt_trans hk ((List.pairwise_cons.1 h).1 x hx)
  rw [hnone, List.lookup_cons, beq_self_eq_true] at hlookup
  cases hlookup

theorem eq_of_lookup {l l' : List (String × α)} (h : l.Pairwise fun a b => a.1 < b.1)
    (h' : l'.Pairwise fun a b => a.1 < b.1) (hlookup : ∀ k, l.lookup k = l'.lookup k) :
    l = l' := by
  induction l generalizing l' with
  | nil =>
    cases l' with
    | nil => rfl
    | cons x' l' =>
      obtain ⟨k', a'⟩ := x'
      simpa using hlookup k'
  | cons x l ih =>
    obtain ⟨k, a⟩ := x
    cases l' with
    | nil => simpa using hlookup k
    | cons x' l' =>
      obtain ⟨k', a'⟩ := x'
      have hle : ¬k < k' := not_lt_of_lookup h' (hlookup k)
      have hle' : ¬k' < k := not_lt_of_lookup h (hlookup k').symm
      have hk : k = k' := String.le_antisymm (String.not_lt.1 hle') (String.not_lt.1 hle)
      subst hk
      obtain ⟨hlt, hl⟩ := List.pairwise_cons.1 h
      obtain ⟨hlt', hl'⟩ := List.pairwise_cons.1 h'
      have ha := hlookup k
      simp only [List.lookup_cons, beq_self_eq_true, Option.some.injEq] at ha
      have htail : ∀ j, l.lookup j = l'.lookup j := by
        intro j
        by_cases hj : j = k
        · rw [hj, lookup_eq_none_of_lt hlt, lookup_eq_none_of_lt hlt']
        · simpa only [List.lookup_cons, beq_false_of_ne hj] using hlookup j
      rw [ha, ih hl hl' htail]

theorem eq_of_get? {x y : Index α} (h : ∀ k, x.get? k = y.get? k) : x = y := by
  cases x with
  | mk entries sorted =>
    cases y with
    | mk entries' sorted' =>
      obtain rfl : entries = entries' := eq_of_lookup sorted sorted' h
      rfl

theorem mem_entries_of_get? {x : Index α} {k : String} {a : α} (h : x.get? k = some a) :
    (k, a) ∈ x.entries := by
  obtain ⟨before, after, he, -⟩ := List.lookup_eq_some_iff.1 h
  rw [he]
  exact List.mem_append_right _ List.mem_cons_self

theorem get?_of_mem_entries {x : Index α} {k : String} {a : α} (h : (k, a) ∈ x.entries) :
    x.get? k = some a := by
  rw [get?, Keyed.lookup_of_mem (nodup_keys_of_sorted x.sorted) h]

theorem mem_keys_iff {x : Index α} {k : String} : k ∈ x.keys ↔ (x.get? k).isSome := by
  constructor
  · intro hk
    obtain ⟨⟨k', a⟩, hmem, rfl⟩ := List.mem_map.1 hk
    rw [get?_of_mem_entries hmem]
    rfl
  · intro hk
    obtain ⟨a, ha⟩ := Option.isSome_iff_exists.1 hk
    exact List.mem_map_of_mem (mem_entries_of_get? ha)

theorem entries_eq_nil {x : Index α} (h : ∀ k, x.get? k = none) : x.entries = [] := by
  rw [eq_of_get? (y := ({} : Index α)) h]

theorem get?_append (x : Index (List α)) (key k : String) (items : List α) :
    (x.append key items).get? k =
      if k = key ∧ items ≠ [] then some ((x.get? key).getD [] ++ items) else x.get? k := by
  rw [append]
  by_cases hitems : items = []
  · simp [hitems]
  · by_cases hk : k = key <;> simp [hitems, hk, get?_update]

end Index

namespace Report

variable {α : Type}

/-- The items of the outcomes under one file, in the order of the outcomes. -/
def itemsOf (get : Outcome → List α) (file : String) (outcomes : List (String × Outcome)) :
    List α :=
  (outcomes.filter (·.1 = file)).flatMap fun x => get x.2

theorem itemsOf_cons (get : Outcome → List α) (file : String) (x : String × Outcome)
    (outcomes : List (String × Outcome)) :
    itemsOf get file (x :: outcomes) =
      if x.1 = file then get x.2 ++ itemsOf get file outcomes else itemsOf get file outcomes := by
  by_cases h : x.1 = file <;> simp [itemsOf, h]

theorem get?_foldl_append (get : Outcome → List α) (file : String)
    (outcomes : List (String × Outcome)) (x : Index (List α)) :
    (outcomes.foldl (fun x o => x.append o.1 (get o.2)) x).get? file =
      if itemsOf get file outcomes = [] then x.get? file
      else some ((x.get? file).getD [] ++ itemsOf get file outcomes) := by
  induction outcomes generalizing x with
  | nil => rfl
  | cons o outcomes ih =>
    rw [List.foldl_cons, ih, itemsOf_cons, Index.get?_append]
    by_cases hfile : o.1 = file
    · by_cases hitems : get o.2 = []
      · simp [hfile, hitems]
      · by_cases hrest : itemsOf get file outcomes = [] <;> simp [hfile, hitems, hrest]
    · have hne : ¬file = o.1 := Ne.symm hfile
      simp [hfile, hne]

theorem get?_foldl_changed (file : String) (outcomes : List (String × Outcome)) (x : Index Unit) :
    (outcomes.foldl (fun x o => if o.2.changed then x.update o.1 fun _ => () else x) x).get? file =
      if outcomes.any fun o => o.1 = file && o.2.changed then some () else x.get? file := by
  induction outcomes generalizing x with
  | nil => rfl
  | cons o outcomes ih =>
    rw [List.foldl_cons, ih, List.any_cons]
    by_cases hhere : o.1 = file ∧ o.2.changed = true
    · obtain ⟨hfile, hchanged⟩ := hhere
      simp [hchanged, hfile, Index.get?_update]
    · have hfalse : (decide (o.1 = file) && o.2.changed) = false := by
        simpa using hhere
      rw [hfalse, Bool.false_or]
      by_cases hchanged : o.2.changed = true
      · have hne : ¬file = o.1 := fun he => hhere ⟨he.symm, hchanged⟩
        rw [if_pos hchanged, Index.get?_update, if_neg hne]
      · rw [if_neg hchanged]

/-- A report is built part by part. -/
theorem foldl_record (outcomes : List (String × Outcome)) (r : Report) :
    outcomes.foldl (fun r x => r.record x.1 x.2) r =
      ⟨outcomes.foldl (fun x o => x.append o.1 o.2.replacements) r.replacements,
        outcomes.foldl (fun x o => x.append o.1 o.2.unresolved) r.errors,
        outcomes.foldl (fun x o => if o.2.changed then x.update o.1 fun _ => () else x)
          r.changedFiles,
        r.filesScanned⟩ := by
  induction outcomes generalizing r with
  | nil => rfl
  | cons o outcomes ih => exact ih _

variable (n : Nat) (outcomes : List (String × Outcome)) (file : String)

theorem get?_replacements :
    (ofOutcomes n outcomes).replacements.get? file =
      if itemsOf Outcome.replacements file outcomes = [] then none
      else some (itemsOf Outcome.replacements file outcomes) := by
  rw [ofOutcomes, foldl_record, get?_foldl_append]
  rfl

theorem get?_errors :
    (ofOutcomes n outcomes).errors.get? file =
      if itemsOf Outcome.unresolved file outcomes = [] then none
      else some (itemsOf Outcome.unresolved file outcomes) := by
  rw [ofOutcomes, foldl_record, get?_foldl_append]
  rfl

theorem get?_changedFiles :
    (ofOutcomes n outcomes).changedFiles.get? file =
      if outcomes.any fun o => o.1 = file && o.2.changed then some () else none := by
  rw [ofOutcomes, foldl_record, get?_foldl_changed]
  rfl

theorem filesScanned_ofOutcomes : (ofOutcomes n outcomes).filesScanned = n := by
  rw [ofOutcomes, foldl_record]

variable {outcomes}

theorem mem_changedFiles_iff :
    file ∈ (ofOutcomes n outcomes).changedFiles.keys ↔
      ∃ x ∈ outcomes, x.1 = file ∧ x.2.changed = true := by
  rw [Index.mem_keys_iff, get?_changedFiles]
  split
  · rename_i h
    simpa using h
  · rename_i h
    simpa using h

theorem exists_entry_of_mem {x : String × Outcome} (hx : x ∈ outcomes) {pair : String × String}
    (hpair : pair ∈ x.2.replacements) :
    ∃ entry ∈ (ofOutcomes n outcomes).replacements.entries, pair ∈ entry.2 := by
  have hmem : pair ∈ itemsOf Outcome.replacements x.1 outcomes :=
    List.mem_flatMap.2 ⟨x, List.mem_filter.2 ⟨hx, decide_eq_true rfl⟩, hpair⟩
  have hget := get?_replacements n outcomes x.1
  rw [if_neg (List.ne_nil_of_mem hmem)] at hget
  exact ⟨_, Index.mem_entries_of_get? hget, hmem⟩

theorem exists_outcome_of_entry {entry : String × List (String × String)}
    (h : entry ∈ (ofOutcomes n outcomes).replacements.entries) {pair : String × String}
    (hpair : pair ∈ entry.2) : ∃ x ∈ outcomes, pair ∈ x.2.replacements := by
  have hget := Index.get?_of_mem_entries h
  rw [get?_replacements] at hget
  split at hget
  · cases hget
  · rw [← Option.some.inj hget] at hpair
    obtain ⟨x, hx, hmem⟩ := List.mem_flatMap.1 hpair
    exact ⟨x, (List.mem_filter.1 hx).1, hmem⟩

theorem replacements_eq_nil (h : ∀ x ∈ outcomes, x.2.replacements = []) :
    (ofOutcomes n outcomes).replacements.entries = [] := by
  apply Index.entries_eq_nil
  intro file
  have hitems : itemsOf Outcome.replacements file outcomes = [] :=
    List.flatMap_eq_nil_iff.2 fun x hx => h x (List.mem_filter.1 hx).1
  rw [get?_replacements, if_pos hitems]

theorem changedFiles_eq_nil (h : ∀ x ∈ outcomes, x.2.changed = false) :
    (ofOutcomes n outcomes).changedFiles.entries = [] := by
  apply Index.entries_eq_nil
  intro file
  rw [get?_changedFiles, if_neg]
  simp only [List.any_eq_true, Bool.and_eq_true, not_exists, not_and]
  exact fun x hx _ => by simp [h x hx]

variable {outcomes' : List (String × Outcome)}

/-- Only the order of the outcomes of each file counts. -/
theorem ofOutcomes_eq_of_filter
    (h : ∀ file, outcomes.filter (·.1 = file) = outcomes'.filter (·.1 = file)) :
    ofOutcomes n outcomes = ofOutcomes n outcomes' := by
  have hitems : ∀ {α : Type} (get : Outcome → List α) file,
      itemsOf get file outcomes = itemsOf get file outcomes' := by
    intro α get file
    rw [itemsOf, h, itemsOf]
  have hchanged : ∀ file, (outcomes.any fun o => o.1 = file && o.2.changed) =
      outcomes'.any fun o => o.1 = file && o.2.changed := by
    intro file
    rw [← List.any_filter, h, List.any_filter]
  have hreplacements :
      (ofOutcomes n outcomes).replacements = (ofOutcomes n outcomes').replacements :=
    Index.eq_of_get? fun k => by rw [get?_replacements, get?_replacements, hitems]
  have herrors : (ofOutcomes n outcomes).errors = (ofOutcomes n outcomes').errors :=
    Index.eq_of_get? fun k => by rw [get?_errors, get?_errors, hitems]
  have hfiles : (ofOutcomes n outcomes).changedFiles = (ofOutcomes n outcomes').changedFiles :=
    Index.eq_of_get? fun k => by rw [get?_changedFiles, get?_changedFiles, hchanged]
  have hscanned :=
    (filesScanned_ofOutcomes n outcomes).trans (filesScanned_ofOutcomes n outcomes').symm
  rw [Report.mk.injEq]
  exact ⟨hreplacements, herrors, hfiles, hscanned⟩

theorem filter_file_eq {x : String × Outcome} (hnodup : (outcomes.map Prod.fst).Nodup)
    (hx : x ∈ outcomes) : outcomes.filter (·.1 = x.1) = [x] := by
  induction outcomes with
  | nil => cases hx
  | cons o outcomes ih =>
    obtain ⟨hnew, hnodup⟩ := List.nodup_cons.1 hnodup
    cases List.mem_cons.1 hx with
    | inl hx =>
      subst hx
      have hrest : outcomes.filter (·.1 = x.1) = [] := by
        apply List.filter_eq_nil_iff.2
        intro y hy
        exact fun he => hnew (of_decide_eq_true he ▸ List.mem_map_of_mem hy)
      simp [hrest]
    | inr hx =>
      have hne : ¬o.1 = x.1 := fun he => hnew (he ▸ List.mem_map_of_mem hx)
      simp [hne, ih hnodup hx]

/-- The outcomes of distinct files may come in any order. -/
theorem ofOutcomes_perm (hnodup : (outcomes.map Prod.fst).Nodup) (h : outcomes.Perm outcomes') :
    ofOutcomes n outcomes = ofOutcomes n outcomes' := by
  apply ofOutcomes_eq_of_filter n
  intro file
  by_cases hfile : file ∈ outcomes.map Prod.fst
  · obtain ⟨x, hx, rfl⟩ := List.mem_map.1 hfile
    have hnodup' := (h.map Prod.fst).nodup_iff.1 hnodup
    rw [filter_file_eq hnodup hx, filter_file_eq hnodup' (h.mem_iff.1 hx)]
  · have hnone : ∀ {os : List (String × Outcome)}, file ∉ os.map Prod.fst →
        os.filter (·.1 = file) = [] := by
      intro os hos
      apply List.filter_eq_nil_iff.2
      intro y hy he
      apply hos
      rw [← of_decide_eq_true he]
      exact List.mem_map_of_mem hy
    rw [hnone hfile, hnone fun hmem => hfile ((h.map Prod.fst).mem_iff.2 hmem)]

end Report

end Unalias
