/-!
Values under keys, kept in the order of the keys.
-/

namespace Unalias

/-- Entries in rising order of their keys, so that no key comes twice. -/
structure Index (α : Type) where
  entries : List (String × α) := []
  sorted : entries.Pairwise fun a b => a.1 < b.1 := by exact .nil

namespace Index

variable {α : Type}

instance : Inhabited (Index α) := ⟨{}⟩

def keys (x : Index α) : List String :=
  x.entries.map Prod.fst

def values (x : Index α) : List α :=
  x.entries.map Prod.snd

def get? (x : Index α) (key : String) : Option α :=
  x.entries.lookup key

/-- The entries with `f` of what stood under `key` now standing there. -/
def place (key : String) (f : Option α → α) : List (String × α) → List (String × α)
  | [] => [(key, f none)]
  | (k, a) :: rest =>
    if key < k then (key, f none) :: (k, a) :: rest
    else if key = k then (k, f (some a)) :: rest
    else (k, a) :: place key f rest

theorem mem_place {key : String} {f : Option α → α} {l : List (String × α)} {x : String × α}
    (h : x ∈ place key f l) : x.1 = key ∨ ∃ y ∈ l, x.1 = y.1 := by
  induction l with
  | nil =>
    rw [place, List.mem_singleton] at h
    exact .inl (h ▸ rfl)
  | cons y l ih =>
    obtain ⟨k, a⟩ := y
    rw [place] at h
    split at h
    · cases List.mem_cons.1 h with
      | inl h => exact .inl (h ▸ rfl)
      | inr h => exact .inr ⟨x, h, rfl⟩
    · split at h
      · rename_i hk
        cases List.mem_cons.1 h with
        | inl h => exact .inl (h ▸ hk.symm)
        | inr h => exact .inr ⟨x, List.mem_cons_of_mem _ h, rfl⟩
      · cases List.mem_cons.1 h with
        | inl h => exact .inr ⟨(k, a), List.mem_cons_self, h ▸ rfl⟩
        | inr h =>
          cases ih h with
          | inl h => exact .inl h
          | inr h =>
            obtain ⟨y, hy, hxy⟩ := h
            exact .inr ⟨y, List.mem_cons_of_mem _ hy, hxy⟩

theorem place_sorted {key : String} {f : Option α → α} {l : List (String × α)}
    (h : l.Pairwise fun a b => a.1 < b.1) :
    (place key f l).Pairwise fun a b => a.1 < b.1 := by
  induction l with
  | nil => exact List.pairwise_singleton _ _
  | cons y l ih =>
    obtain ⟨k, a⟩ := y
    have ⟨hk, hl⟩ := List.pairwise_cons.1 h
    rw [place]
    split
    · rename_i hlt
      refine List.pairwise_cons.2 ⟨?_, h⟩
      intro x hx
      cases List.mem_cons.1 hx with
      | inl hx => exact hx ▸ hlt
      | inr hx => exact String.lt_trans hlt (hk x hx)
    · split
      · exact List.pairwise_cons.2 ⟨hk, hl⟩
      · rename_i hlt hne
        refine List.pairwise_cons.2 ⟨?_, ih hl⟩
        intro x hx
        cases mem_place hx with
        | inl hx =>
          have hle : k ≤ key := String.not_lt.1 hlt
          exact hx ▸ Std.lt_of_le_of_ne hle (Ne.symm hne)
        | inr hx =>
          obtain ⟨y, hy, hxy⟩ := hx
          exact hxy ▸ hk y hy

theorem nodup_keys_of_sorted {l : List (String × α)} (h : l.Pairwise fun a b => a.1 < b.1) :
    (l.map Prod.fst).Nodup := by
  refine List.pairwise_map.2 (h.imp ?_)
  exact fun hlt he => String.lt_irrefl _ (he ▸ hlt)

def update (x : Index α) (key : String) (f : Option α → α) : Index α :=
  ⟨place key f x.entries, place_sorted x.sorted⟩

end Index

end Unalias
