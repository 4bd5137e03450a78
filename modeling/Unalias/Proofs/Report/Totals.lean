import Mathlib.Data.List.FinRange
import Mathlib.Data.List.Sort
import Unalias.Proofs.Report.Recorded

/-!
Reports as sums. Under each file a report has the items of all records of that file, one after
another, and its counts are those of all that was recorded. The records may come in any order that
keeps the records of each file in theirs.
-/

namespace Unalias

namespace Index

variable {α : Type}

theorem eq_of_mem_keys_iff {x y : Index Unit} (h : ∀ k, k ∈ x.keys ↔ k ∈ y.keys) : x = y := by
  apply eq_of_get?
  intro k
  have hk := h k
  rw [mem_keys_iff, mem_keys_iff] at hk
  cases hx : x.get? k <;> cases hy : y.get? k <;> simp_all

theorem flatten_place_perm (key : String) (items : List α) (l : List (String × List α)) :
    ((place key (fun old => old.getD [] ++ items) l).map Prod.snd).flatten.Perm
      ((l.map Prod.snd).flatten ++ items) := by
  induction l with
  | nil => simp [place]
  | cons x l ih =>
    obtain ⟨k, a⟩ := x
    rw [place]
    split
    · exact List.perm_append_comm
    · split
      · simp only [Option.getD_some, List.map_cons, List.flatten_cons, List.append_assoc]
        exact List.perm_append_comm.append_left a
      · simp only [List.map_cons, List.flatten_cons, List.append_assoc]
        exact ih.append_left a

theorem flatten_append_perm (x : Index (List α)) (key : String) (items : List α) :
    (x.append key items).values.flatten.Perm (x.values.flatten ++ items) := by
  rw [append]
  split
  · rename_i hitems
    rw [List.isEmpty_iff.1 hitems, List.append_nil]
  · exact flatten_place_perm key items x.entries

/-- The index has what `get` gives of the records: under each file the items of its records, in the
order of the records, and nothing where there are none. -/
structure Collects (x : Index (List α)) (get : Outcome → List α)
    (records : List (String × Outcome)) : Prop where
  items : ∀ file, (x.get? file).getD [] = Report.itemsOf get file records
  mem_keys_iff : ∀ file, file ∈ x.keys ↔ Report.itemsOf get file records ≠ []

section Collects

variable {x : Index (List α)} {get : Outcome → List α} {records : List (String × Outcome)}

theorem collects_iff : x.Collects get records ↔
    ∀ file, x.get? file = if Report.itemsOf get file records = [] then none
      else some (Report.itemsOf get file records) := by
  constructor
  · intro h file
    have hitems := h.items file
    have hkey := h.mem_keys_iff file
    rw [Index.mem_keys_iff] at hkey
    cases hget : x.get? file with
    | none =>
      rw [hget, Option.getD_none] at hitems
      rw [if_pos hitems.symm]
    | some items =>
      rw [hget, Option.getD_some] at hitems
      rw [hget, Option.isSome_some] at hkey
      rw [if_neg (hkey.1 rfl), hitems]
  · intro h
    refine ⟨fun file => ?_, fun file => ?_⟩
    · rw [h]
      by_cases hitems : Report.itemsOf get file records = [] <;> simp [hitems]
    · rw [Index.mem_keys_iff, h]
      by_cases hitems : Report.itemsOf get file records = [] <;> simp [hitems]

theorem Collects.unique {y : Index (List α)} (hx : x.Collects get records)
    (hy : y.Collects get records) : x = y :=
  eq_of_get? fun file => by rw [collects_iff.1 hx, collects_iff.1 hy]

theorem Collects.ne_nil (h : x.Collects get records) {items : List α} (hitems : items ∈ x.values) :
    items ≠ [] := by
  obtain ⟨entry, hentry, rfl⟩ := List.mem_map.1 hitems
  have hget : x.get? entry.1 = some entry.2 := get?_of_mem_entries hentry
  rw [collects_iff.1 h] at hget
  split at hget
  · cases hget
  · rename_i hne
    exact Option.some.inj hget ▸ hne

theorem Collects.entries_ne_nil_iff (h : x.Collects get records) :
    x.entries ≠ [] ↔ 0 < x.values.flatten.length := by
  constructor
  · intro hentries
    obtain ⟨entry, hentry⟩ := List.exists_mem_of_ne_nil _ hentries
    have hvalue : entry.2 ∈ x.values := List.mem_map_of_mem hentry
    obtain ⟨item, hitem⟩ := List.exists_mem_of_ne_nil _ (h.ne_nil hvalue)
    exact List.length_pos_of_mem (List.mem_flatten.2 ⟨_, hvalue, hitem⟩)
  · intro hcount hentries
    rw [values, hentries] at hcount
    exact Nat.lt_irrefl _ hcount

end Collects

end Index

namespace Report

theorem flatten_foldl_append_perm {α : Type} (get : Outcome → List α)
    (records : List (String × Outcome)) (x : Index (List α)) :
    (records.foldl (fun x o => x.append o.1 (get o.2)) x).values.flatten.Perm
      (x.values.flatten ++ records.flatMap fun record => get record.2) := by
  induction records generalizing x with
  | nil => rw [List.flatMap_nil, List.append_nil, List.foldl_nil]
  | cons record records ih =>
    rw [List.foldl_cons, List.flatMap_cons, ← List.append_assoc]
    exact (ih _).trans ((x.flatten_append_perm record.1 (get record.2)).append_right _)

/-- The report has what was recorded, and nothing else. -/
structure IsSum (r : Report) (records : List (String × Outcome)) : Prop where
  replacements : r.replacements.Collects Outcome.replacements records
  errors : r.errors.Collects Outcome.unresolved records
  changedFiles : ∀ file, file ∈ r.changedFiles.keys ↔
    ∃ record ∈ records, record.1 = file ∧ record.2.changed = true
  replacementCount : r.replacementCount =
    (records.flatMap fun record => record.2.replacements).length
  errorCount : r.errorCount = (records.flatMap fun record => record.2.unresolved).length
  hasErrors : r.hasErrors = true ↔ 0 < r.errorCount

theorem isSum_ofOutcomes (n : Nat) (records : List (String × Outcome)) :
    (ofOutcomes n records).IsSum records := by
  have herrors := Index.collects_iff.2 (get?_errors n records)
  refine ⟨Index.collects_iff.2 (get?_replacements n records), herrors,
    fun file => mem_changedFiles_iff n file, ?_, ?_, ?_⟩
  · rw [replacementCount, ofOutcomes, foldl_record]
    exact (flatten_foldl_append_perm Outcome.replacements records {}).length_eq
  · rw [errorCount, ofOutcomes, foldl_record]
    exact (flatten_foldl_append_perm Outcome.unresolved records {}).length_eq
  · rw [errorCount, ← herrors.entries_ne_nil_iff, hasErrors, Bool.not_eq_true',
      List.isEmpty_eq_false_iff]

theorem IsSum.unique {r r' : Report} {records : List (String × Outcome)} (h : r.IsSum records)
    (h' : r'.IsSum records) (hscanned : r.filesScanned = r'.filesScanned) : r = r' := by
  have hchanged : r.changedFiles = r'.changedFiles := by
    apply Index.eq_of_mem_keys_iff
    exact fun file => (h.changedFiles file).trans (h'.changedFiles file).symm
  rw [Report.mk.injEq]
  exact ⟨h.replacements.unique h'.replacements, h.errors.unique h'.errors, hchanged, hscanned⟩

/-! ### Records in another order -/

/-- The same records, each at another place. The records of one file stay in their order. -/
def Reorders (records records' : List (String × Outcome)) : Prop :=
  ∃ place : Fin records.length ≃ Fin records'.length,
    (∀ i, records'[place i] = records[i]) ∧
      ∀ i j, i < j → records[i].1 = records[j].1 → place i < place j

/-- The places of the records of a file. -/
def placesOf (file : String) (records : List (String × Outcome)) : List (Fin records.length) :=
  (List.finRange records.length).filter fun i => records[i].1 = file

section Places

variable (file : String) (records : List (String × Outcome))

theorem pairwise_placesOf : (placesOf file records).Pairwise (· < ·) :=
  (List.pairwise_lt_finRange _).filter _

variable {file records}

theorem mem_placesOf_iff {i : Fin records.length} :
    i ∈ placesOf file records ↔ records[i].1 = file := by
  simp [placesOf]

theorem map_placesOf : (placesOf file records).map (records[·]) = records.filter (·.1 = file) := by
  conv_rhs => rw [← List.map_getElem_finRange records, List.filter_map]
  rfl

variable {records' : List (String × Outcome)}

/-- Both lists rise and have the same members. -/
theorem placesOf_eq_map {place : Fin records.length ≃ Fin records'.length}
    (hsame : ∀ i, records'[place i] = records[i])
    (hkeeps : ∀ i j, i < j → records[i].1 = records[j].1 → place i < place j) :
    placesOf file records' = (placesOf file records).map place := by
  have hrises : ((placesOf file records).map place).Pairwise (· < ·) := by
    refine List.pairwise_map.2 ((pairwise_placesOf file records).imp_of_mem ?_)
    intro i j hi hj hij
    exact hkeeps i j hij ((mem_placesOf_iff.1 hi).trans (mem_placesOf_iff.1 hj).symm)
  refine (pairwise_placesOf file records').eq_of_mem_iff hrises fun j => ?_
  obtain ⟨i, rfl⟩ := place.surjective j
  rw [List.mem_map_of_injective place.injective, mem_placesOf_iff, mem_placesOf_iff, hsame]

theorem Reorders.filter_eq (h : Reorders records records') (file : String) :
    records'.filter (·.1 = file) = records.filter (·.1 = file) := by
  obtain ⟨place, hsame, hkeeps⟩ := h
  rw [← map_placesOf, ← map_placesOf, placesOf_eq_map hsame hkeeps, List.map_map]
  exact List.map_congr_left fun i _ => hsame i

end Places

/-- A report is the sum of its records and no other report is. Only the order of the records of each
file counts. -/
theorem ofOutcomes_sums (n : Nat) (records : List (String × Outcome)) :
    ((ofOutcomes n records).IsSum records ∧ (ofOutcomes n records).filesScanned = n) ∧
      (∀ r : Report, r.IsSum records → r.filesScanned = n → r = ofOutcomes n records) ∧
      ∀ records', Reorders records records' → ofOutcomes n records' = ofOutcomes n records := by
  have hsum := isSum_ofOutcomes n records
  have hscanned := filesScanned_ofOutcomes n records
  refine ⟨⟨hsum, hscanned⟩, fun r hr hn => hr.unique hsum (hn.trans hscanned.symm), ?_⟩
  intro records' hreorders
  exact ofOutcomes_eq_of_filter n hreorders.filter_eq

/-- A file is recorded twice, with another in between, which may as well come first. -/
theorem ofOutcomes_sums_twice :
    let first : Outcome := { replacements := [("@/x", "./x")], changed := true }
    let second : Outcome := { replacements := [("@/y", "./y")], unresolved := ["@/m"] }
    let other : Outcome := { unresolved := ["@/m", "@/m"] }
    let records := [("a.js", first), ("b.js", other), ("a.js", second)]
    let records' := [("b.js", other), ("a.js", first), ("a.js", second)]
    let r := ofOutcomes 2 records
    (r.IsSum records ∧ Reorders records records' ∧ ofOutcomes 2 records' = r) ∧
      r.replacements.entries = [("a.js", [("@/x", "./x"), ("@/y", "./y")])] ∧
      r.errors.entries = [("a.js", ["@/m"]), ("b.js", ["@/m", "@/m"])] ∧
      r.changedFiles.keys = ["a.js"] ∧ r.replacementCount = 2 ∧ r.errorCount = 3 ∧
      r.hasErrors = true := by
  intro first second other records records' r
  have hreorders : Reorders records records' :=
    ⟨Equiv.swap (0 : Fin 3) 1, by decide, by decide⟩
  obtain ⟨⟨hsum, -⟩, -, hreordered⟩ := ofOutcomes_sums 2 records
  refine ⟨⟨hsum, hreorders, hreordered records' hreorders⟩, by decide, by decide, by decide, ?_⟩
  have hcount : r.errorCount = 3 := hsum.errorCount
  exact ⟨hsum.replacementCount, hcount, hsum.hasErrors.2 (hcount ▸ by decide)⟩

end Report

end Unalias
