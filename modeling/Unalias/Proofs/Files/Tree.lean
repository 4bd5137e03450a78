import Unalias.Files.Scan
import Unalias.Proofs.Files.Operations
import Unalias.Proofs.Files.Outline
import Unalias.Proofs.Files.Reading
import Unalias.Proofs.Path.Pieces
import Unalias.Proofs.Text.Decoding
import Unalias.Text.Start

/-!
File trees as they come on a disk: whatever lies above an entry is a directory. The files that a
scan of such a tree finds lie each at a place of its own, under a key of its own, and the path of
a scanned file leads to it.
-/

namespace Unalias.Disk

/-- Entries have names, and what lies above an entry is a directory. The root is not listed. -/
structure IsTree (d : Disk) : Prop where
  root : [] ∉ d.entries.map Prod.fst
  names : ∀ l ∈ d.entries.map Prod.fst, ∀ name ∈ l, IsName name
  above : ∀ l ∈ d.entries.map Prod.fst, (d.get? l.dropLast).any Entry.isDirectory

instance (d : Disk) : Decidable d.IsTree :=
  decidable_of_iff
    ([] ∉ d.entries.map Prod.fst ∧ (∀ l ∈ d.entries.map Prod.fst, ∀ name ∈ l, IsName name) ∧
      ∀ l ∈ d.entries.map Prod.fst, (d.get? l.dropLast).any Entry.isDirectory)
    ⟨fun ⟨h₁, h₂, h₃⟩ => ⟨h₁, h₂, h₃⟩, fun h => ⟨h.root, h.names, h.above⟩⟩

theorem isTree_congr {d d' : Disk} (h : d'.outline = d.outline) (hd : d.IsTree) : d'.IsTree where
  root := keys_eq_of_outline h ▸ hd.root
  names := keys_eq_of_outline h ▸ hd.names
  above l hl := by
    rw [any_isDirectory_congr h]
    exact hd.above l (keys_eq_of_outline h ▸ hl)

theorem mem_keys_of_get? {d : Disk} {l : Location} {e : Entry} (h : d.get? l = some e)
    (hl : l ≠ []) : l ∈ d.entries.map Prod.fst := by
  rw [get?, if_neg hl] at h
  apply Decidable.byContradiction
  intro hmem
  rw [Keyed.lookup_eq_none hmem] at h
  cases h

/-! ### Walking down -/

/-- Once some names are walked, the walk goes on from where they lead, or it has failed. -/
theorem walk_append (d : Disk) (links : Nat) (here : Location) (names : List String) :
    (∃ e, ∀ rest, d.walk links here (names ++ rest) = .error e) ∨
      ∃ links' l, ∀ rest, d.walk links here (names ++ rest) = d.walk links' l rest := by
  fun_induction d.walk links here names with
  | case1 links here => exact .inr ⟨links, here, fun _ => rfl⟩
  | case2 links here name rest hdir =>
    refine .inl ⟨.notDirectory, fun more => ?_⟩
    rw [List.cons_append, walk, if_pos hdir]
  | case3 links here rest hdir ih =>
    simpa only [List.cons_append, walk, if_neg hdir, if_true] using ih
  | case4 links here rest hdir hdot ih =>
    simpa only [List.cons_append, walk, if_neg hdir, if_neg hdot, if_true] using ih
  | case5 links here name rest hdir hdot hup hlong =>
    refine .inl ⟨.nameTooLong, fun more => ?_⟩
    rw [List.cons_append, walk, if_neg hdir, if_neg hdot, if_neg hup, if_pos hlong]
  | case6 links here name rest hdir hdot hup hlong hnone =>
    refine .inl ⟨.notFound, fun more => ?_⟩
    rw [List.cons_append, walk, if_neg hdir, if_neg hdot, if_neg hup, if_neg hlong, hnone]
  | case7 here name rest hdir hdot hup hlong target hlink =>
    refine .inl ⟨.tooManyLinks, fun more => ?_⟩
    rw [List.cons_append, walk, if_neg hdir, if_neg hdot, if_neg hup, if_neg hlong, hlink]
  | case8 here name rest hdir hdot hup hlong target hlink links ih =>
    simpa only [List.cons_append, walk, if_neg hdir, if_neg hdot, if_neg hup, if_neg hlong, hlink,
      List.append_assoc] using ih
  | case9 links here name rest hdir hdot hup hlong e hne hsome ih =>
    have hstep : ∀ more, d.walk links here (name :: rest ++ more) =
        d.walk links (here ++ [name]) (rest ++ more) := by
      intro more
      rw [List.cons_append, walk, if_neg hdir, if_neg hdot, if_neg hup, if_neg hlong, hsome]
      cases e with
      | file _ => rfl
      | directory => rfl
      | link target => exact absurd rfl (hne target)
    simpa only [hstep] using ih

theorem isDirectory_above {d : Disk} (hd : d.IsTree) {l names : List String} (hne : names ≠ [])
    {e : Entry} (h : d.get? (l ++ names) = some e) : (d.get? l).any Entry.isDirectory := by
  -- from the last name upwards
  generalize hn : names.length = n
  induction n generalizing names e with
  | zero => exact absurd (List.length_eq_zero_iff.1 hn) hne
  | succ n ih =>
    obtain ⟨names, name, rfl⟩ : ∃ ns n, names = ns ++ [n] :=
      ⟨_, _, (List.dropLast_concat_getLast hne).symm⟩
    have hup := hd.above _ (mem_keys_of_get? h (by simp))
    rw [← List.append_assoc, List.dropLast_concat] at hup
    by_cases hnil : names = []
    · rwa [hnil, List.append_nil] at hup
    · obtain ⟨e', he', -⟩ := (Option.any_eq_true _ _).1 hup
      exact ih hnil he' (by simpa using hn)

/-- Names that lead to a file or a directory below a directory are walked down to it; no link is
met. -/
theorem walk_down {d : Disk} (hd : d.IsTree) (links : Nat) {here : Location} {names : List String}
    {e : Entry} (hne : names ≠ []) (he : d.get? (here ++ names) = some e)
    (hlink : ∀ target, e ≠ .link target) : d.walk links here names = .ok (here ++ names) := by
  induction names generalizing here with
  | nil => exact absurd rfl hne
  | cons name names ih =>
    have hdir := isDirectory_above hd (List.cons_ne_nil name names) he
    have hkey := mem_keys_of_get? he (by simp)
    have hname := hd.names _ hkey name (by simp)
    have hplain := And.intro hname.ne_dot (And.intro hname.ne_dots hname.short)
    have hcons : here ++ name :: names = here ++ [name] ++ names := by simp
    by_cases hnil : names = []
    · subst hnil
      rw [walk_name hplain hdir he hlink, walk]
    · rw [hcons] at he ⊢
      obtain ⟨e', he', hedir⟩ := (Option.any_eq_true _ _).1 (isDirectory_above hd hnil he)
      have hlink' : ∀ target, e' ≠ .link target := by
        rintro target rfl
        cases hedir
      rw [walk_name hplain hdir he' hlink']
      exact ih hnil he

/-- The path at the end of names below a directory leads to the file there, unless it is too
long. -/
theorem locate_down {d : Disk} (hd : d.IsTree) {p : Path} {l : Location} {names : List String}
    {bytes : ByteArray} (hp : d.locate p = .ok l) (hne : names ≠ [])
    (hfile : d.get? (l ++ names) = some (.file bytes)) :
    d.locate (p.down names) =
      if (p.down names).fits then .ok (l ++ names) else .error .nameTooLong := by
  have hnames : ∀ n ∈ names, IsName n := by
    intro n hn
    apply hd.names (l ++ names)
    · exact mem_keys_of_get? hfile (by simp [hne])
    · exact List.mem_append_right _ hn
  obtain ⟨hnul, htext, -, hp⟩ := locate_eq_ok_iff.1 hp
  rw [Path.namesOf_eq] at hp
  have hstart : startOf d.workingDirectory (p.down names) = startOf d.workingDirectory p := by
    simp only [startOf, Path.isAbsolute_down htext hnames]
  rw [locate, if_neg (Path.nul_down htext hnames hnul), if_neg (Path.text_down_ne htext hnames),
    Path.namesOf_down htext hnames hne, hstart]
  by_cases hfits : (p.down names).fits
  case neg => rw [if_pos hfits, if_neg hfits]
  case pos =>
    rw [if_neg (not_not_intro hfits), if_pos hfits]
    obtain ⟨e, he⟩ | ⟨links, m, hm⟩ :=
      d.walk_append maxLinks (startOf d.workingDirectory p) (p.pieces.map String.ofList)
    · rw [he] at hp
      cases hp
    · -- a slash at the end of `p` adds one step that stays where it is
      have hml : m = l := by
        rw [hm] at hp
        split at hp
        · rw [walk] at hp
          split at hp
          · cases hp
          · rw [if_pos rfl, walk] at hp
            exact Except.ok.inj hp
        · rw [walk] at hp
          exact Except.ok.inj hp
      rw [hm, hml]
      exact walk_down hd links hne hfile (by simp)

/-! ### Scanned files -/

/-- What a scan gives on a tree. -/
def scan (d : Disk) (root : Path) : Except Error (List Scanned) :=
  ((Files.scan root).on d).1

/-- The files that a scan finds; a scan that fails finds none. -/
def scanned (d : Disk) (root : Path) : List Scanned :=
  match d.scan root with
  | .ok files => files
  | .error _ => []

/-- A directory below `root` that a walk comes to and cannot open, since its path is too long. -/
def IsShut (d : Disk) (root p : Path) : Prop :=
  ∃ base names, d.locate root = .ok base ∧ names ≠ [] ∧
    d.get? (base ++ names) = some .directory ∧ p = root.down names ∧ p.fits = false

theorem scan_on_eq (d : Disk) (root : Path) :
    (Files.scan root).on d =
      (if Files.isInput root then .ok []
        else if d.kind? root = some .directory then
          ((d.below root).map (Scanned.ofEntries root)).mapError (Halt.error root)
        else .ok [], d) := by
  have hdirectory : (liftM (Files.isDirectory root) : Attempt Bool).on d =
      (.ok (decide (d.kind? root = some .directory)), d) := by
    rw [Attempt.lift_on, Files.isDirectory_run]
  rw [Files.scan]
  by_cases hinput : Files.isInput root
  · rw [if_pos hinput, if_pos hinput]
    rfl
  · rw [if_neg hinput, if_neg hinput, Attempt.bind_on_ok hdirectory]
    by_cases hkind : d.kind? root = some .directory
    · rw [if_pos (decide_eq_true hkind), if_pos hkind, Attempt.bind_on, Attempt.entries_on]
      cases d.below root <;> rfl
    · rw [if_neg (by simpa using hkind), if_neg hkind]
      rfl

theorem scan_on (d : Disk) (root : Path) : (Files.scan root).on d = (d.scan root, d) := by
  rw [scan, scan_on_eq]

theorem scanned_of_scan {d : Disk} {root : Path} {files : List Scanned}
    (h : d.scan root = .ok files) : d.scanned root = files := by
  rw [scanned, h]

theorem scan_of_mem {d : Disk} {root : Path} {f : Scanned} (h : f ∈ d.scanned root) :
    d.scan root = .ok (d.scanned root) := by
  cases hscan : d.scan root with
  | ok files => rw [scanned_of_scan hscan]
  | error error =>
    rw [scanned, hscan] at h
    cases h

/-- A scan finds the compiled files in the listing of a directory, or none, or it fails. -/
theorem scan_cases (d : Disk) (root : Path) :
    d.scan root = .ok [] ∨
      d.scan root = .ok (Scanned.ofEntries root (d.listing root)) ∨
      ∃ halt, d.halt? root = some halt ∧ d.scan root = .error (halt.error root) := by
  rw [scan, scan_on_eq]
  by_cases hinput : Files.isInput root
  · exact .inl (if_pos hinput)
  · rw [if_neg hinput]
    by_cases hkind : d.kind? root = some .directory
    · rw [if_pos hkind, below]
      cases d.halt? root with
      | none => exact .inr (.inl rfl)
      | some halt => exact .inr (.inr ⟨halt, rfl, rfl⟩)
    · exact .inl (if_neg hkind)

theorem scan_congr {d d' : Disk} (h : d'.outline = d.outline) (root : Path) :
    d'.scan root = d.scan root := by
  rw [scan, scan_on_eq, scan, scan_on_eq, kind?_congr h, below_congr h]

theorem exists_of_mem_inside {d : Disk} {root : Path} {x : List String × Entry}
    (h : x ∈ d.inside root) :
    ∃ base, d.locate root = .ok base ∧ x.1 ≠ [] ∧ (base ++ x.1, x.2) ∈ d.entries := by
  rw [inside] at h
  split at h
  · cases h
  rename_i base hbase
  obtain ⟨⟨k, e⟩, hk, hx⟩ := List.mem_filterMap.1 h
  dsimp only at hx
  split at hx
  · cases hx
  · cases hx
  · rename_i names hne hnames
    cases hx
    obtain rfl : k = base ++ names := Text.append_of_isPrefixOf? hnames
    exact ⟨base, hbase, hne, hk⟩

theorem get?_of_mem_inside {d : Disk} {root : Path} {x : List String × Entry}
    (h : x ∈ d.inside root) :
    ∃ base, d.locate root = .ok base ∧ x.1 ≠ [] ∧ d.get? (base ++ x.1) = some x.2 := by
  obtain ⟨base, hbase, hne, hmem⟩ := exists_of_mem_inside h
  refine ⟨base, hbase, hne, ?_⟩
  rw [get?, if_neg (by simp [hne])]
  exact Keyed.lookup_of_mem d.nodup hmem

/-- A scan fails at a directory whose path is too long. -/
theorem exists_isShut_of_scan {d : Disk} {root : Path} {error : Error}
    (h : d.scan root = .error error) :
    ∃ p cause, d.IsShut root p ∧ error = .filesAt p cause := by
  obtain hok | hok | ⟨halt, hhalt, herror⟩ := d.scan_cases root
  · cases h.symm.trans hok
  · cases h.symm.trans hok
  obtain ⟨⟨names, e⟩, hfind, rfl⟩ := Option.map_eq_some_iff.1 hhalt
  obtain ⟨base, hbase, hne, he⟩ := get?_of_mem_inside (List.mem_of_find?_eq_some hfind)
  have hshut := List.find?_some hfind
  simp only [isShut, Bool.and_eq_true, Bool.not_eq_true'] at hshut
  refine ⟨root.down names, _, ⟨base, names, hbase, hne, ?_, rfl, hshut.2⟩,
    Except.error.inj (h.symm.trans herror)⟩
  cases e with
  | directory => exact he
  | file _ => cases hshut.1.1
  | link _ => cases hshut.1.1

theorem mem_ofEntries {root : Path} {entries : List Below} {f : Scanned}
    (h : f ∈ Scanned.ofEntries root entries) :
    ∃ b ∈ entries, b.isFile ∧ f = Scanned.below root b.names := by
  obtain ⟨names, hnames, rfl⟩ := List.mem_map.1 h
  obtain ⟨b, hb, rfl⟩ := List.mem_map.1 ((List.mergeSort_perm _ _).mem_iff.1 hnames)
  obtain ⟨hb, hfile⟩ := List.mem_filter.1 hb
  exact ⟨b, hb, (Bool.and_eq_true_iff.1 hfile).1, rfl⟩

/-- The file that a scanned file stands for: the names that lead to it from where the root is. -/
theorem exists_of_mem_scanned {d : Disk} {root : Path} {f : Scanned} (h : f ∈ d.scanned root) :
    ∃ base names bytes, d.locate root = .ok base ∧ names ≠ [] ∧
      d.get? (base ++ names) = some (.file bytes) ∧ f = Scanned.below root names := by
  obtain hscan | hscan | ⟨halt, -, hscan⟩ := d.scan_cases root
  · rw [scanned_of_scan hscan] at h
    cases h
  · rw [scanned_of_scan hscan] at h
    obtain ⟨b, hb, hfile, rfl⟩ := mem_ofEntries h
    obtain ⟨⟨names, e⟩, hx, rfl⟩ := List.mem_map.1 hb
    obtain ⟨base, hbase, hne, he⟩ := get?_of_mem_inside hx
    cases e with
    | file bytes => exact ⟨base, names, bytes, hbase, hne, he, rfl⟩
    | directory => cases hfile
    | link _ => cases hfile
  · rw [scanned, hscan] at h
    cases h

section Scanned

variable {d : Disk} {root : Path} {f g : Scanned} {l : Location}

theorem locate_scanned (hd : d.IsTree) (hf : f ∈ d.scanned root) :
    (∃ l bytes, d.locate f.path = .ok l ∧ d.get? l = some (.file bytes)) ∨
      d.locate f.path = .error .nameTooLong := by
  obtain ⟨base, names, bytes, hbase, hne, hfile, rfl⟩ := exists_of_mem_scanned hf
  have hlocate : d.locate (Scanned.below root names).path = _ := locate_down hd hbase hne hfile
  split at hlocate
  · exact .inl ⟨base ++ names, bytes, hlocate, hfile⟩
  · exact .inr hlocate

/-- Two scanned files never lie at one place. -/
theorem eq_of_locate (hd : d.IsTree) (hf : f ∈ d.scanned root) (hg : g ∈ d.scanned root)
    (hfl : d.locate f.path = .ok l) (hgl : d.locate g.path = .ok l) : f = g := by
  obtain ⟨base, names, bytes, hbase, hne, hfile, rfl⟩ := exists_of_mem_scanned hf
  obtain ⟨base', names', bytes', hbase', hne', hfile', rfl⟩ := exists_of_mem_scanned hg
  cases hbase.symm.trans hbase'
  have hl : l = base ++ names := by
    have h := (locate_down hd hbase hne hfile).symm.trans hfl
    split at h
    · exact (Except.ok.inj h).symm
    · cases h
  have hl' : l = base ++ names' := by
    have h := (locate_down hd hbase hne' hfile').symm.trans hgl
    split at h
    · exact (Except.ok.inj h).symm
    · cases h
  rw [List.append_cancel_left (hl.symm.trans hl')]

end Scanned

theorem names_nodup_listing (d : Disk) (root : Path) :
    ((d.listing root).map Below.names).Nodup := by
  rw [listing, List.map_map, inside]
  split
  · exact List.nodup_nil
  · rename_i base hbase
    apply List.pairwise_map.2
    have hkeys : d.entries.Pairwise fun x y => x.1 ≠ y.1 := List.pairwise_map.1 d.nodup
    apply hkeys.filterMap _
    rintro ⟨k, e⟩ ⟨k', e'⟩ hne b hb b' hb' he
    dsimp only at hb hb'
    split at hb
    · cases hb
    · cases hb
    rename_i names hnil hk
    split at hb'
    · cases hb'
    · cases hb'
    rename_i names' hnil' hk'
    cases hb
    cases hb'
    have hkey : k = base ++ names := Text.append_of_isPrefixOf? hk
    have hkey' : k' = base ++ names' := Text.append_of_isPrefixOf? hk'
    have hnames : names = names' := he
    exact hne (by rw [hkey, hkey', hnames])

theorem isName_of_mem_listing {d : Disk} (hd : d.IsTree) {root : Path} {b : Below}
    (h : b ∈ d.listing root) : b.names ≠ [] ∧ ∀ n ∈ b.names, IsName n := by
  obtain ⟨⟨names, e⟩, hx, rfl⟩ := List.mem_map.1 h
  obtain ⟨base, -, hne, hmem⟩ := exists_of_mem_inside hx
  refine ⟨hne, fun n hn => ?_⟩
  exact hd.names _ (List.mem_map_of_mem hmem) n (List.mem_append_right _ hn)

theorem keys_nodup_scanned {d : Disk} (hd : d.IsTree) (root : Path) :
    ((d.scanned root).map Scanned.key).Nodup := by
  obtain hscan | hscan | ⟨halt, -, hscan⟩ := d.scan_cases root
  · rw [scanned_of_scan hscan]
    exact List.nodup_nil
  · let found :=
      (d.listing root).filter fun e => e.isFile && e.names.getLast?.any Scanned.isCompiled
    have hfound : (found.map Below.names).Nodup :=
      (names_nodup_listing d root).sublist (List.filter_sublist.map _)
    have hsorted :=
      (List.mergeSort_perm (found.map Below.names) Scanned.precedes).nodup_iff.2 hfound
    have hproper : ∀ ns ∈ (found.map Below.names).mergeSort Scanned.precedes,
        ns ≠ [] ∧ ∀ n ∈ ns, IsName n := by
      intro ns hns
      obtain ⟨b, hb, rfl⟩ := List.mem_map.1 ((List.mergeSort_perm _ _).mem_iff.1 hns)
      exact isName_of_mem_listing hd (List.mem_filter.1 hb).1
    rw [scanned_of_scan hscan, Scanned.ofEntries, List.map_map]
    refine List.pairwise_map.2 (hsorted.imp_of_mem ?_)
    intro ns ns' hns hns' hne hkey
    obtain ⟨hnil, hnames⟩ := hproper ns hns
    obtain ⟨hnil', hnames'⟩ := hproper ns' hns'
    simp only [Function.comp_apply, Scanned.below, Path.joined_toUTF8] at hkey
    exact hne (intercalate_injective hnames hnames' hnil hnil' hkey)
  · rw [scanned, hscan]
    exact List.nodup_nil

theorem nodup_scanned {d : Disk} (hd : d.IsTree) (root : Path) : (d.scanned root).Nodup :=
  (List.pairwise_map.1 (keys_nodup_scanned hd root)).imp fun hne he => hne (congrArg Scanned.key he)

end Unalias.Disk
