import Unalias.Files.Disk

/-!
What of a file tree stays when files are overwritten: the outline, which is the tree with the
bytes of its files left out. Paths lead to the same places in two trees of one outline, and a
tree is known from its outline and what stands at each location.
-/

namespace Unalias

namespace Keyed

variable {κ α β : Type} [BEq κ] [LawfulBEq κ]

omit [LawfulBEq κ] in
theorem lookup_map_values (f : α → β) (k : κ) (l : List (κ × α)) :
    (l.map fun x => (x.1, f x.2)).lookup k = (l.lookup k).map f := by
  induction l with
  | nil => rfl
  | cons x l ih =>
    rw [List.map_cons, List.lookup_cons, List.lookup_cons, ih]
    cases k == x.1 <;> rfl

theorem map_values_set [DecidableEq κ] {f : α → β} {key : κ} {old new : α} {l : List (κ × α)}
    (hold : l.lookup key = some old) (hf : f new = f old) :
    (set key new l).map (fun x => (x.1, f x.2)) = l.map fun x => (x.1, f x.2) := by
  induction l with
  | nil => cases hold
  | cons x l ih =>
    obtain ⟨k, v⟩ := x
    rw [List.lookup_cons] at hold
    by_cases hk : k = key
    · subst hk
      rw [beq_self_eq_true] at hold
      cases hold
      simp only [set, if_true, List.map_cons, hf]
    · rw [beq_false_of_ne (Ne.symm hk)] at hold
      simp only [set, if_neg hk, List.map_cons, ih hold]

theorem lookup_eq_none {k : κ} {l : List (κ × α)} (h : k ∉ l.map Prod.fst) :
    l.lookup k = none := by
  apply List.lookup_eq_none_iff.2
  intro x hx
  exact bne_iff_ne.2 fun he => h (he ▸ List.mem_map_of_mem hx)

theorem lookup_of_mem {k : κ} {v : α} {l : List (κ × α)} (hnodup : (l.map Prod.fst).Nodup)
    (h : (k, v) ∈ l) : l.lookup k = some v := by
  induction l with
  | nil => cases h
  | cons x l ih =>
    obtain ⟨k', v'⟩ := x
    obtain ⟨hnew, hnodup⟩ := List.nodup_cons.1 hnodup
    rw [List.lookup_cons]
    cases List.mem_cons.1 h with
    | inl h =>
      cases h
      rw [beq_self_eq_true]
    | inr h =>
      have hmem : k ∈ l.map Prod.fst := List.mem_map_of_mem h
      have hk : k ≠ k' := fun he => hnew (he ▸ hmem)
      rw [beq_false_of_ne hk]
      exact ih hnodup h

theorem eq_of_lookup {l l' : List (κ × α)} (hkeys : l.map Prod.fst = l'.map Prod.fst)
    (hnodup : (l.map Prod.fst).Nodup) (hlookup : ∀ k, l.lookup k = l'.lookup k) : l = l' := by
  induction l generalizing l' with
  | nil => exact (List.map_eq_nil_iff.1 hkeys.symm).symm
  | cons x l ih =>
    cases l' with
    | nil => cases hkeys
    | cons x' l' =>
      obtain ⟨k, v⟩ := x
      obtain ⟨k', v'⟩ := x'
      simp only [List.map_cons, List.cons.injEq] at hkeys
      obtain ⟨hk, hkeys⟩ := hkeys
      subst hk
      obtain ⟨hnew, hnodup⟩ := List.nodup_cons.1 hnodup
      have hv := hlookup k
      simp only [List.lookup_cons, beq_self_eq_true, Option.some.injEq] at hv
      have htail : ∀ j, l.lookup j = l'.lookup j := by
        intro j
        by_cases hj : j = k
        · subst hj
          rw [lookup_eq_none hnew, lookup_eq_none (hkeys ▸ hnew)]
        · have h := hlookup j
          simpa only [List.lookup_cons, beq_false_of_ne hj] using h
      rw [hv, ih hkeys hnodup htail]

end Keyed

def Entry.outline : Entry → Entry
  | .file _ => .file .empty
  | .directory => .directory
  | .link target => .link target

theorem Entry.isDirectory_outline (e : Entry) : e.outline.isDirectory = e.isDirectory := by
  cases e <;> rfl

theorem Entry.isFile_outline (e : Entry) : e.outline.isFile = e.isFile := by
  cases e <;> rfl

namespace Disk

/-- The tree with all its files empty. -/
def outline (d : Disk) : Disk where
  workingDirectory := d.workingDirectory
  entries := d.entries.map fun x => (x.1, x.2.outline)
  nodup := by
    rw [List.map_map]
    exact d.nodup

theorem keys_outline (d : Disk) : d.outline.entries.map Prod.fst = d.entries.map Prod.fst := by
  rw [outline, List.map_map]
  rfl

theorem keys_eq_of_outline {d d' : Disk} (h : d'.outline = d.outline) :
    d'.entries.map Prod.fst = d.entries.map Prod.fst := by
  rw [← keys_outline, h, keys_outline]

theorem get?_outline (d : Disk) (l : Location) :
    d.outline.get? l = (d.get? l).map Entry.outline := by
  unfold get?
  split
  · rfl
  · exact Keyed.lookup_map_values Entry.outline l d.entries

theorem any_isDirectory_outline (d : Disk) (l : Location) :
    (d.outline.get? l).any Entry.isDirectory = (d.get? l).any Entry.isDirectory := by
  rw [get?_outline]
  cases d.get? l with
  | none => rfl
  | some e => exact e.isDirectory_outline

theorem walk_outline (d : Disk) (links : Nat) (here : Location) (names : List String) :
    d.outline.walk links here names = d.walk links here names := by
  fun_induction d.walk links here names with
  | case1 => rw [walk]
  | case2 links here name rest hdir => simp only [walk, any_isDirectory_outline, hdir, if_true]
  | case3 links here rest hdir ih =>
    rw [walk, any_isDirectory_outline, if_neg hdir, if_pos rfl, ih]
  | case4 links here rest hdir hdot ih =>
    rw [walk, any_isDirectory_outline, if_neg hdir, if_neg hdot, if_pos rfl, ih]
  | case5 links here name rest hdir hdot hup hlong =>
    rw [walk, any_isDirectory_outline, if_neg hdir, if_neg hdot, if_neg hup, if_pos hlong]
  | case6 links here name rest hdir hdot hup hlong hnone =>
    rw [walk, any_isDirectory_outline, if_neg hdir, if_neg hdot, if_neg hup, if_neg hlong,
      get?_outline, hnone]
    rfl
  | case7 here name rest hdir hdot hup hlong target hlink =>
    rw [walk, any_isDirectory_outline, if_neg hdir, if_neg hdot, if_neg hup, if_neg hlong,
      get?_outline, hlink]
    rfl
  | case8 here name rest hdir hdot hup hlong target hlink links ih =>
    rw [walk, any_isDirectory_outline, if_neg hdir, if_neg hdot, if_neg hup, if_neg hlong,
      get?_outline, hlink]
    exact ih
  | case9 links here name rest hdir hdot hup hlong e hne hsome ih =>
    rw [walk, any_isDirectory_outline, if_neg hdir, if_neg hdot, if_neg hup, if_neg hlong,
      get?_outline, hsome]
    cases e with
    | file _ => exact ih
    | directory => exact ih
    | link target => exact absurd rfl (hne target)

theorem locate_outline (d : Disk) (p : Path) : d.outline.locate p = d.locate p := by
  simp only [locate, walk_outline]
  rfl

theorem kind?_outline (d : Disk) (p : Path) : d.outline.kind? p = d.kind? p := by
  unfold kind?
  rw [locate_outline]
  cases d.locate p with
  | error e => rfl
  | ok l =>
    simp only [get?_outline]
    cases d.get? l with
    | none => rfl
    | some e => cases e <;> rfl

theorem inside_outline (d : Disk) (root : Path) :
    d.outline.inside root = (d.inside root).map fun x => (x.1, x.2.outline) := by
  unfold inside
  rw [locate_outline]
  cases d.locate root with
  | error e => rfl
  | ok l =>
    simp only [outline, List.filterMap_map, List.map_filterMap]
    congr 1
    funext ⟨k, e⟩
    simp only [Function.comp_apply]
    cases l.isPrefixOf? k with
    | none => rfl
    | some names => cases names <;> rfl

theorem halt?_outline (d : Disk) (root : Path) : d.outline.halt? root = d.halt? root := by
  have hshut : isShut root ∘ (fun x => (x.1, x.2.outline)) = isShut root := by
    funext x
    simp only [Function.comp_apply, isShut, Entry.isDirectory_outline]
  rw [halt?, halt?, inside_outline, List.find?_map, hshut, Option.map_map]
  rfl

theorem below_outline (d : Disk) (root : Path) : d.outline.below root = d.below root := by
  have hlisting : d.outline.listing root = d.listing root := by
    rw [listing, listing, inside_outline, List.map_map]
    apply List.map_congr_left
    intro x _
    simp only [Function.comp_apply, Entry.isFile_outline]
  rw [below, below, halt?_outline, hlisting]

section Alike

variable {d d' : Disk}

theorem any_isDirectory_congr (h : d'.outline = d.outline) (l : Location) :
    (d'.get? l).any Entry.isDirectory = (d.get? l).any Entry.isDirectory := by
  rw [← any_isDirectory_outline, h, any_isDirectory_outline]

theorem locate_congr (h : d'.outline = d.outline) (p : Path) : d'.locate p = d.locate p := by
  rw [← locate_outline, h, locate_outline]

theorem kind?_congr (h : d'.outline = d.outline) (p : Path) : d'.kind? p = d.kind? p := by
  rw [← kind?_outline, h, kind?_outline]

theorem below_congr (h : d'.outline = d.outline) (root : Path) :
    d'.below root = d.below root := by
  rw [← below_outline, h, below_outline]

/-- Two trees of one outline with the same entry at each location are one tree. -/
theorem eq_of_get? (h : d'.outline = d.outline) (hroot : [] ∉ d.entries.map Prod.fst)
    (hget : ∀ l, d'.get? l = d.get? l) : d' = d := by
  have hkeys := keys_eq_of_outline h
  have hlookup : ∀ l, d'.entries.lookup l = d.entries.lookup l := by
    intro l
    by_cases hl : l = []
    · subst hl
      rw [Keyed.lookup_eq_none hroot, Keyed.lookup_eq_none (hkeys ▸ hroot)]
    · have hgetl := hget l
      rwa [get?, if_neg hl, get?, if_neg hl] at hgetl
  have hhere : d'.workingDirectory = d.workingDirectory := by
    have hhere := congrArg workingDirectory h
    exact hhere
  have hentries := Keyed.eq_of_lookup hkeys d'.nodup hlookup
  cases d
  cases d'
  cases hhere
  cases hentries
  rfl

end Alike

/-! ### Overwriting a file -/

theorem ne_nil_of_file {d : Disk} {l : Location} {bytes : ByteArray}
    (h : d.get? l = some (.file bytes)) : l ≠ [] := by
  intro hl
  rw [get?, if_pos hl] at h
  cases h

theorem get?_set_of_file {d : Disk} {l : Location} {bytes : ByteArray}
    (h : d.get? l = some (.file bytes)) (e : Entry) (k : Location) :
    (d.set l e).get? k = if k = l then some e else d.get? k := by
  by_cases hk : k = []
  · subst hk
    rw [if_neg (Ne.symm (ne_nil_of_file h))]
    rfl
  · exact get?_set d l k e hk

theorem exists_file_of_outline {d d' : Disk} {l : Location} {bytes : ByteArray}
    (h : d'.outline = d.outline) (hfile : d.get? l = some (.file bytes)) :
    ∃ bytes', d'.get? l = some (.file bytes') := by
  have hout := get?_outline d' l
  rw [h, get?_outline, hfile] at hout
  cases he : d'.get? l with
  | none =>
    rw [he] at hout
    cases hout
  | some e =>
    rw [he] at hout
    cases e with
    | file bytes' => exact ⟨bytes', rfl⟩
    | directory => cases hout
    | link _ => cases hout

theorem outline_set {d : Disk} {l : Location} {bytes bytes' : ByteArray}
    (h : d.get? l = some (.file bytes)) : (d.set l (.file bytes')).outline = d.outline := by
  have hlookup := h
  rw [get?, if_neg (ne_nil_of_file h)] at hlookup
  simp only [outline, set, mk.injEq, true_and]
  exact Keyed.map_values_set hlookup rfl

/-- A file is overwritten where its path leads, and nothing else is. -/
theorem overwrite_file {d : Disk} {p : Path} {l : Location} {bytes : ByteArray} (text : String)
    (hl : d.locate p = .ok l) (hfile : d.get? l = some (.file bytes)) :
    d.overwrite p text = (.ok (), d.set l (.file text.toUTF8)) := by
  simp only [overwrite, hl, hfile]

theorem read_file {d : Disk} {p : Path} {l : Location} {bytes : ByteArray}
    (hl : d.locate p = .ok l) (hfile : d.get? l = some (.file bytes)) :
    d.read p = match String.fromUTF8? bytes with
      | some text => .ok text
      | none => .error .notUtf8 := by
  cases hbytes : String.fromUTF8? bytes with
  | none => simp only [read, hl, hfile, hbytes]
  | some text => simp only [read, hl, hfile, hbytes]

end Disk

end Unalias
