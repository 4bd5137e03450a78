/-!
Values under keys, kept in the order in which the keys first came.
-/

namespace Unalias.Keyed

variable {κ α : Type} [DecidableEq κ]

/-- Sets the value of a key: one that is there keeps its place, any other comes last. -/
def set (key : κ) (value : α) : List (κ × α) → List (κ × α)
  | [] => [(key, value)]
  | (k, v) :: rest => if k = key then (k, value) :: rest else (k, v) :: set key value rest

theorem keys_set (key : κ) (value : α) (l : List (κ × α)) :
    (set key value l).map Prod.fst =
      if key ∈ l.map Prod.fst then l.map Prod.fst else l.map Prod.fst ++ [key] := by
  induction l with
  | nil => rfl
  | cons x l ih =>
    obtain ⟨k, v⟩ := x
    by_cases h : k = key
    · simp [set, h]
    · have h' : key ≠ k := Ne.symm h
      rw [set, if_neg h, List.map_cons, ih]
      by_cases hmem : key ∈ l.map Prod.fst
      · simp_all
      · simp_all

theorem set_of_not_mem {key : κ} {value : α} {l : List (κ × α)} (h : key ∉ l.map Prod.fst) :
    set key value l = l ++ [(key, value)] := by
  induction l with
  | nil => rfl
  | cons x l ih =>
    rw [List.map_cons, List.mem_cons, not_or] at h
    rw [set, if_neg (Ne.symm h.1), ih h.2]
    rfl

theorem nodup_keys_set {key : κ} {value : α} {l : List (κ × α)}
    (h : (l.map Prod.fst).Nodup) : ((set key value l).map Prod.fst).Nodup := by
  rw [keys_set]
  split
  · exact h
  · rename_i hmem
    refine List.nodup_append.2 ⟨h, List.pairwise_singleton _ key, ?_⟩
    intro a ha b hb he
    rw [List.mem_singleton.1 hb] at he
    exact hmem (he ▸ ha)

/-- Setting the values of keys that all differ puts them one behind the other. -/
theorem foldl_set_of_nodup {l added : List (κ × α)} (h : ((l ++ added).map Prod.fst).Nodup) :
    added.foldl (fun kept x => set x.1 x.2 kept) l = l ++ added := by
  induction added generalizing l with
  | nil => exact (List.append_nil l).symm
  | cons x added ih =>
    have hnew : x.1 ∉ l.map Prod.fst := by
      rw [List.map_append] at h
      intro hmem
      exact (List.nodup_append.1 h).2.2 x.1 hmem x.1 List.mem_cons_self rfl
    rw [List.foldl_cons, set_of_not_mem hnew, ih]
    · rw [List.append_assoc, List.singleton_append]
    · rwa [List.append_assoc, List.singleton_append]

theorem lookup_set [BEq κ] [LawfulBEq κ] (key k : κ) (value : α) (l : List (κ × α)) :
    (set key value l).lookup k = if k = key then some value else l.lookup k := by
  induction l with
  | nil => by_cases h : k = key <;> simp [set, List.lookup_cons, h, beq_false_of_ne]
  | cons x l ih =>
    obtain ⟨k', v⟩ := x
    by_cases h : k' = key
    · by_cases hk : k = key <;> simp [set, List.lookup_cons, h, hk, beq_false_of_ne]
    · by_cases hk : k = k' <;> simp [set, List.lookup_cons, h, hk, ih, beq_false_of_ne]

end Unalias.Keyed
