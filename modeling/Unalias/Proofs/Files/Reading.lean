import Unalias.Files.Disk
import Unalias.Proofs.Files.Outline

/-!
Files that are read: a text is the bytes of the file that a path leads to, and a path that leads to
a file has a parent.
-/

namespace Unalias

namespace Path

theorem ofPiece?_ne_root (piece : List Char) : Component.ofPiece? piece ≠ some .root := by
  rw [Component.ofPiece?]
  split
  · simp
  · split <;> simp

theorem ofPiece?_eq_none_iff {piece : List Char} :
    Component.ofPiece? piece = none ↔ piece = [] ∨ piece = ['.'] := by
  rw [Component.ofPiece?]
  split
  · rename_i h
    simp [h]
  · rename_i h
    split <;> simp [h]

theorem eq_root_of_getLast? {step : Component} {ps : List (List Char)}
    (h : (step :: ps.filterMap Component.ofPiece?).getLast? = some .root) :
    step = .root ∧ ps.filterMap Component.ofPiece? = [] := by
  cases hsteps : ps.filterMap Component.ofPiece? with
  | nil =>
    rw [hsteps] at h
    exact ⟨Option.some.inj h, rfl⟩
  | cons next steps =>
    rw [hsteps, List.getLast?_cons_cons, ← hsteps] at h
    obtain ⟨piece, -, hpiece⟩ := List.mem_filterMap.1 (List.mem_of_getLast? h)
    exact absurd hpiece (ofPiece?_ne_root piece)

theorem components_of_slash {p : Path} {cs : List Char} (h : p.text.toList = '/' :: cs) :
    p.components = .root :: (Text.split '/' cs).filterMap Component.ofPiece? := by
  simp [components, h]

theorem exists_components_of_ne {p : Path} {c : Char} {cs : List Char} (hc : c ≠ '/')
    (h : p.text.toList = c :: cs) : ∃ step, ∃ ps : List (List Char), step ≠ .root ∧
      p.components = step :: ps.filterMap Component.ofPiece? := by
  obtain ⟨piece, ps, hsplit⟩ : ∃ piece ps, Text.split '/' (c :: cs) = (c :: piece) :: ps := by
    rw [Text.split, if_neg hc]
    cases Text.split '/' cs with
    | nil => exact ⟨[], [], rfl⟩
    | cons piece ps => exact ⟨piece, ps, rfl⟩
  rw [components]
  rw [h]
  split
  · rename_i hslash
    exact absurd (List.cons.inj hslash).1 hc
  · rw [hsplit]
    split
    · exact ⟨_, _, Component.noConfusion, rfl⟩
    · rename_i hfirst
      cases hpiece : Component.ofPiece? (c :: piece) with
      | none =>
        obtain hnil | hdot := ofPiece?_eq_none_iff.1 hpiece
        · cases hnil
        · exact absurd (congrArg (· :: ps) hdot) (hfirst ps)
      | some step =>
        refine ⟨step, ps, ?_, by rw [List.filterMap_cons, hpiece]⟩
        rintro rfl
        exact ofPiece?_ne_root _ hpiece

theorem eq_dot_of_mem_namesOf {p : Path} {cs : List Char} (h : p.text.toList = '/' :: cs)
    (hsteps : (Text.split '/' cs).filterMap Component.ofPiece? = []) :
    ∀ name ∈ Disk.namesOf p, name = "." := by
  have hpieces : ∀ piece ∈ (Text.split '/' p.text.toList).filter (· ≠ []), piece = ['.'] := by
    intro piece hmem
    rw [h, Text.split, if_pos rfl] at hmem
    obtain ⟨hmem, hne⟩ := List.mem_filter.1 hmem
    obtain rfl | hmem := List.mem_cons.1 hmem
    · simp at hne
    · obtain rfl | rfl := ofPiece?_eq_none_iff.1 (List.filterMap_eq_nil_iff.1 hsteps piece hmem)
      · simp at hne
      · rfl
  intro name hname
  obtain ⟨piece, hpiece, rfl⟩ := List.mem_map.1 hname
  have hdot : piece = ['.'] := by
    split at hpiece
    · obtain hmem | hmem := List.mem_append.1 hpiece
      · exact hpieces piece hmem
      · exact List.mem_singleton.1 hmem
    · exact hpieces piece hpiece
  rw [hdot]

theorem getLast?_of_parent? {p : Path} (h : p.parent? = none) :
    p.components = [] ∨ p.components.getLast? = some .root := by
  rw [parent?] at h
  split at h
  · exact .inl (List.getLast?_eq_none_iff.1 ‹_›)
  · exact .inr ‹_›
  · cases h

/-- Only the root and paths that stay there have no parent. -/
theorem of_parent?_eq_none {p : Path} (h : p.parent? = none) :
    p.text = "" ∨ p.isAbsolute ∧ ∀ name ∈ Disk.namesOf p, name = "." := by
  cases htext : p.text.toList with
  | nil => exact .inl (String.toList_inj.1 htext)
  | cons c cs =>
    by_cases hc : c = '/'
    · subst hc
      have hcomponents := components_of_slash htext
      refine .inr ⟨by simp [isAbsolute, htext], eq_dot_of_mem_namesOf htext ?_⟩
      obtain hnil | hlast := getLast?_of_parent? h
      · cases hcomponents.symm.trans hnil
      · rw [hcomponents] at hlast
        exact (eq_root_of_getLast? hlast).2
    · exfalso
      obtain ⟨step, ps, hstep, hcomponents⟩ := exists_components_of_ne hc htext
      obtain hnil | hlast := getLast?_of_parent? h
      · cases hcomponents.symm.trans hnil
      · rw [hcomponents] at hlast
        exact hstep (eq_root_of_getLast? hlast).1

end Path

theorem toUTF8_of_fromUTF8? {bytes : ByteArray} {text : String}
    (h : String.fromUTF8? bytes = some text) : text.toUTF8 = bytes := by
  rw [String.fromUTF8?] at h
  split at h
  · cases h
    rfl
  · cases h

theorem fromUTF8?_toUTF8 (text : String) : String.fromUTF8? text.toUTF8 = some text := by
  rw [String.fromUTF8?]
  exact dif_pos text.isValidUTF8

namespace Disk

theorem locate_eq_ok_iff {d : Disk} {p : Path} {l : Location} :
    d.locate p = .ok l ↔ '\x00' ∉ p.text.toList ∧ p.text ≠ "" ∧ p.fits ∧
      d.walk maxLinks (startOf d.workingDirectory p) (namesOf p) = .ok l := by
  rw [locate]
  split
  case isTrue hnul => simp [hnul]
  case isFalse hnul =>
    split
    case isTrue htext => simp [htext]
    case isFalse htext =>
      split
      case isTrue hfits => simp [hfits]
      case isFalse hfits => simp [hnul, htext, Decidable.not_not.1 hfits]

theorem locate_of_names {d : Disk} {p : Path} {l : Location} (names : List String)
    (hnames : namesOf p = names) (hpath : '\x00' ∉ p.text.toList ∧ p.text ≠ "" ∧ p.fits)
    (hwalk : d.walk maxLinks (startOf d.workingDirectory p) names = .ok l) :
    d.locate p = .ok l :=
  locate_eq_ok_iff.2 ⟨hpath.1, hpath.2.1, hpath.2.2, hnames ▸ hwalk⟩

/-- A text that was read is the bytes of the file a path leads to. -/
theorem exists_of_read {d : Disk} {p : Path} {text : String} (h : d.read p = .ok text) :
    ∃ l, d.locate p = .ok l ∧ d.get? l = some (.file text.toUTF8) := by
  rw [read] at h
  split at h
  · cases h
  rename_i l hl
  split at h
  · rename_i bytes hfile
    split at h
    · rename_i text' htext
      cases h
      rw [toUTF8_of_fromUTF8? htext]
      exact ⟨l, hl, hfile⟩
    · cases h
  · cases h
  · cases h

theorem read_of_file {d : Disk} {p : Path} {l : Location} {text : String}
    (hl : d.locate p = .ok l) (hfile : d.get? l = some (.file text.toUTF8)) :
    d.read p = .ok text := by
  rw [read_file hl hfile, fromUTF8?_toUTF8]

theorem read_congr {d d' : Disk} {p : Path} (hlocate : d'.locate p = d.locate p)
    (hget : ∀ l, d.locate p = .ok l → d'.get? l = d.get? l) : d'.read p = d.read p := by
  unfold read
  rw [hlocate]
  cases h : d.locate p with
  | error e => rfl
  | ok l => simp only [hget l h]

/-- A name of an entry that is no link leads from its directory to that entry. -/
theorem walk_name {d : Disk} {links : Nat} {here : Location} {name : String} {rest : List String}
    {e : Entry} (hname : name ≠ "." ∧ name ≠ ".." ∧ name.utf8ByteSize ≤ maxName)
    (hdir : (d.get? here).any Entry.isDirectory) (he : d.get? (here ++ [name]) = some e)
    (hlink : ∀ target, e ≠ .link target) :
    d.walk links here (name :: rest) = d.walk links (here ++ [name]) rest := by
  obtain ⟨hdot, hdots, hshort⟩ := hname
  rw [walk, if_neg (by simp [hdir]), if_neg hdot, if_neg hdots, if_neg (Nat.not_lt.2 hshort), he]
  cases e with
  | link target => exact absurd rfl (hlink target)
  | directory => rfl
  | file _ => rfl

theorem walk_dots {d : Disk} {links : Nat} {l : Location} {names : List String}
    (h : ∀ name ∈ names, name = ".") (hwalk : d.walk links [] names = .ok l) : l = [] := by
  induction names with
  | nil =>
    rw [walk] at hwalk
    exact (Except.ok.inj hwalk).symm
  | cons name names ih =>
    obtain rfl := h name List.mem_cons_self
    rw [walk] at hwalk
    split at hwalk
    · cases hwalk
    · apply ih _ hwalk
      intro name hname
      exact h name (List.mem_cons_of_mem _ hname)

/-- A file lies in a directory. -/
theorem exists_parent_of_read {d : Disk} {p : Path} {text : String} (h : d.read p = .ok text) :
    ∃ directory, p.parent? = some directory := by
  obtain ⟨l, hl, hfile⟩ := exists_of_read h
  have hne := ne_nil_of_file hfile
  cases hparent : p.parent? with
  | some directory => exact ⟨directory, rfl⟩
  | none =>
    exfalso
    obtain ⟨-, htext, -, hwalk⟩ := locate_eq_ok_iff.1 hl
    obtain hempty | ⟨habsolute, hdots⟩ := Path.of_parent?_eq_none hparent
    · exact htext hempty
    · rw [startOf, if_pos habsolute] at hwalk
      exact hne (walk_dots hdots hwalk)

end Disk

end Unalias
