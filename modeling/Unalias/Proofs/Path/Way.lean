import Mathlib.Data.List.Induction
import Unalias.Path.Relative
import Unalias.Proofs.Path.Steps
import Unalias.Proofs.Text.Decoding

/-!
The way from a directory to a path, as a reference spells it: up with `..` to where the two part,
then down. Taken from the directory, it leads to the path. What it begins with tells whether it can
pass for the name of a package.
-/

namespace Unalias.Path

open Component

/-- From the root downwards, without a `..`. -/
structure Straight (p : Path) : Prop where
  absolute : p.isAbsolute = true
  descends : ∀ c ∈ p.onward, c ≠ .parent

instance : DecidablePred Straight := fun p =>
  decidable_of_iff (p.isAbsolute = true ∧ ∀ c ∈ p.onward, c ≠ .parent)
    ⟨fun h => ⟨h.1, h.2⟩, fun h => ⟨h.absolute, h.descends⟩⟩

/-- An absolute path as normalization leaves it. -/
structure IsNormal (p : Path) : Prop where
  absolute : p.isAbsolute = true
  normal : p.normalize = p

instance : DecidablePred IsNormal := fun p =>
  decidable_of_iff (p.isAbsolute = true ∧ p.normalize = p)
    ⟨fun h => ⟨h.1, h.2⟩, fun h => ⟨h.absolute, h.normal⟩⟩

section Straight

variable {p q : Path} {cs : List Component}

theorem Straight.components (h : p.Straight) : p.components = .root :: p.onward :=
  components_of_absolute h.absolute

theorem Straight.start (h : p.Straight) : p.start = [.root] :=
  if_pos h.absolute

theorem straight_ofComponents (hpieces : ∀ c ∈ cs, c.IsPiece) (hnames : ∀ c ∈ cs, c ≠ .parent) :
    (ofComponents (.root :: cs)).Straight := by
  refine ⟨isAbsolute_root cs, ?_⟩
  rwa [onward_root hpieces]

theorem straight_normalize (h : p.isAbsolute = true) : p.normalize.Straight := by
  obtain ⟨kept, -, hnormalize, hkept⟩ := exists_normalize_eq p
  rw [hnormalize, start, if_pos h]
  exact straight_ofComponents (fun c hc => (hkept c hc).1) fun c hc => (hkept c hc).2 h

theorem IsNormal.straight (h : p.IsNormal) : p.Straight :=
  h.normal ▸ straight_normalize h.absolute

theorem isAbsolute_foldl_join {parts : List Path} (h : p.isAbsolute = true) :
    (parts.foldl join p).isAbsolute = true := by
  induction parts generalizing p with
  | nil => exact h
  | cons part parts ih =>
    apply ih
    cases hpart : part.isAbsolute with
    | true => rwa [join_of_absolute hpart]
    | false => rwa [isAbsolute_join_of_relative hpart]

theorem straight_resolve {parts : List Path} (h : p.isAbsolute = true) :
    (p.resolve parts).Straight :=
  straight_normalize (isAbsolute_foldl_join h)

theorem Straight.join (h : p.Straight) (hrelative : q.isAbsolute = false)
    (hnames : ∀ c ∈ q.onward, c ≠ .parent) : (p.join q).Straight := by
  refine ⟨(isAbsolute_join_of_relative hrelative).trans h.absolute, ?_⟩
  rw [onward_join hrelative, List.forall_mem_append]
  exact ⟨h.descends, hnames⟩

theorem Straight.components_join (h : p.Straight) (hrelative : q.isAbsolute = false) :
    (p.join q).components = p.components ++ q.onward := by
  have habsolute := (isAbsolute_join_of_relative hrelative).trans h.absolute
  rw [components_of_absolute habsolute, onward_join hrelative, h.components]
  rfl

theorem parent?_of_components {above : List Component} {last : Component}
    (h : p.components = above ++ [last]) (hlast : last ≠ .root) :
    p.parent? = some (ofComponents above) := by
  rw [parent?]
  rw [h, List.getLast?_concat, List.dropLast_concat]
  split
  · contradiction
  · rename_i hroot
    exact absurd (Option.some.inj hroot) hlast
  · rfl

theorem Straight.exists_parent (h : p.Straight) (hne : p.onward ≠ []) :
    ∃ directory, p.parent? = some directory ∧ directory.Straight := by
  obtain ⟨above, last, honward⟩ : ∃ cs c, p.onward = cs ++ [c] :=
    ⟨_, _, (List.dropLast_concat_getLast hne).symm⟩
  have hpieces := isPiece_onward p
  have hdescends := h.descends
  have hsteps := h.components
  rw [honward] at hpieces hdescends hsteps
  have hlast : last ≠ .root := by
    rintro rfl
    exact absurd (hpieces .root (by simp)) (by decide)
  refine ⟨ofComponents (.root :: above), parent?_of_components hsteps hlast, ?_⟩
  exact straight_ofComponents (List.forall_mem_append.1 hpieces).1
    (List.forall_mem_append.1 hdescends).1

theorem IsNormal.eq_ofComponents (h : p.IsNormal) : p = ofComponents p.components := by
  obtain ⟨kept, hfold, hnormalize, -⟩ := exists_normalize_eq p
  have hsteps := components_normalize p
  rw [hfold, h.normal] at hsteps
  rw [hsteps, ← hnormalize, h.normal]

end Straight

/-! ### From a directory to a path -/

theorem exists_diverge {α : Type} [DecidableEq α] (as bs : List α) :
    ∃ common, as = common ++ (diverge as bs).1 ∧ bs = common ++ (diverge as bs).2 := by
  fun_induction diverge as bs with
  | case1 as b bs ih =>
    obtain ⟨common, has, hbs⟩ := ih
    exact ⟨b :: common, congrArg (b :: ·) has, congrArg (b :: ·) hbs⟩
  | case2 a as b bs hne => exact ⟨[], rfl, rfl⟩
  | case3 as bs => exact ⟨[], rfl, rfl⟩

theorem diverge_append {α : Type} [DecidableEq α] (as bs : List α) :
    diverge as (as ++ bs) = ([], bs) := by
  induction as with
  | nil =>
    rw [List.nil_append, diverge]
    rintro a as b bs hnil
    cases hnil
  | cons a as ih => rw [List.cons_append, diverge, if_pos rfl, ih]

section Steps

variable {cs : List Component}

theorem intercalate_concat (c : Component) (hne : cs ≠ []) :
    "/".intercalate ((cs ++ [c]).map Component.text) =
      "/".intercalate (cs.map Component.text) ++ "/" ++ c.text := by
  rw [List.map_append, String.intercalate_append_of_ne_nil (mt List.map_eq_nil_iff.1 hne) (by simp)]
  rfl

/-- The text of steps ends as its last step does, and that is no slash. -/
theorem exists_getLast?_intercalate (h : ∀ c ∈ cs, c.IsPiece) (hne : cs ≠ []) :
    ∃ a, ("/".intercalate (cs.map Component.text)).toList.getLast? = some a ∧ a ≠ '/' := by
  obtain ⟨above, last, rfl⟩ : ∃ cs' c, cs = cs' ++ [c] :=
    ⟨_, _, (List.dropLast_concat_getLast hne).symm⟩
  have hlast : last.IsPiece := h last (by simp)
  obtain ⟨init, a, ha⟩ : ∃ as a, last.text.toList = as ++ [a] :=
    ⟨_, _, (List.dropLast_concat_getLast hlast.ne_nil).symm⟩
  refine ⟨a, ?_, ?_⟩
  · by_cases habove : above = []
    · subst habove
      simp [ha]
    · rw [intercalate_concat last habove, String.toList_append, ha, ← List.append_assoc,
        List.getLast?_concat]
  · rintro rfl
    apply hlast.slash
    rw [ha]
    exact List.mem_append_right _ List.mem_cons_self

theorem foldl_join_text (h : ∀ c ∈ cs, c.IsPiece) :
    cs.foldl (fun p c => join p ⟨c.text⟩) ⟨""⟩ = ⟨"/".intercalate (cs.map Component.text)⟩ := by
  induction cs using List.reverseRecOn with
  | nil => rfl
  | append_singleton cs c ih =>
    have hcs : ∀ c ∈ cs, c.IsPiece := fun c hc => h c (List.mem_append_left _ hc)
    have hc : c.IsPiece := h c (by simp)
    have hrelative : isAbsolute ⟨c.text⟩ = false := by
      have hsingle := isAbsolute_intercalate (List.forall_mem_singleton.2 hc)
      rwa [List.map_singleton, String.intercalate_singleton] at hsingle
    rw [List.foldl_append, ih hcs]
    change join _ ⟨c.text⟩ = _
    rw [join, hrelative, if_neg Bool.false_ne_true]
    by_cases hne : cs = []
    · subst hne
      simp
    · obtain ⟨a, ha, hslash⟩ := exists_getLast?_intercalate hcs hne
      rw [if_neg, intercalate_concat c hne]
      rintro (hempty | hlast)
      · simp only at hempty
        rw [hempty] at ha
        cases ha
      · exact hslash (Option.some.inj (ha.symm.trans hlast))

end Steps

section Reference

variable {directory target : Path}

/-- The steps of the way from a directory to a path. -/
def wayTo (directory target : Path) : List Component :=
  (diverge directory.onward target.onward).1.map (fun _ => .parent) ++
    (diverge directory.onward target.onward).2

theorem isPiece_wayTo (directory target : Path) :
    ∀ c ∈ wayTo directory target, c.IsPiece := by
  intro c hc
  obtain ⟨common, -, htarget⟩ := exists_diverge directory.onward target.onward
  obtain hc | hc := List.mem_append.1 hc
  · obtain ⟨-, -, rfl⟩ := List.mem_map.1 hc
    exact isPiece_parent
  · apply isPiece_onward target
    rw [htarget]
    exact List.mem_append_right _ hc

theorem relative_eq (hdirectory : directory.isAbsolute = true)
    (htarget : target.isAbsolute = true) :
    relative directory target =
      ⟨"/".intercalate ((wayTo directory target).map Component.text)⟩ := by
  rw [← foldl_join_text (isPiece_wayTo directory target), relative,
    components_of_absolute hdirectory, components_of_absolute htarget, diverge, if_pos rfl]
  rfl

theorem toSlash_relative (hdirectory : directory.isAbsolute = true)
    (htarget : target.isAbsolute = true) :
    (relative directory target).toSlash =
      "/".intercalate ((wayTo directory target).map Component.text) := by
  rw [toSlash_eq, relative_eq hdirectory htarget,
    components_intercalate (isPiece_wayTo directory target)]

theorem onward_moduleReference (hdirectory : directory.isAbsolute = true)
    (htarget : target.isAbsolute = true) :
    isAbsolute ⟨moduleReference directory target⟩ = false ∧
      onward ⟨moduleReference directory target⟩ = wayTo directory target := by
  have hpieces := isPiece_wayTo directory target
  rw [moduleReference]
  rw [toSlash_relative hdirectory htarget]
  split
  · exact ⟨isAbsolute_intercalate hpieces, onward_intercalate hpieces⟩
  · have hrelative := isAbsolute_intercalate hpieces
    have hjoin : (⟨"./" ++ "/".intercalate ((wayTo directory target).map Component.text)⟩ : Path) =
        join ⟨"."⟩ ⟨"/".intercalate ((wayTo directory target).map Component.text)⟩ := by
      rw [join, hrelative, if_neg Bool.false_ne_true, if_neg (by decide)]
      rfl
    rw [hjoin, isAbsolute_join_of_relative hrelative, onward_join hrelative,
      onward_intercalate hpieces]
    exact ⟨rfl, rfl⟩

/-- Every `..` takes one of the names away that are on top. -/
theorem foldl_step_climb {names taken : List Component} (hpieces : ∀ c ∈ names, c.IsPiece)
    (hnames : ∀ c ∈ names, c ≠ .parent) :
    (List.replicate names.length .parent).foldl step (names ++ taken) = taken := by
  induction names with
  | nil => rfl
  | cons c names ih =>
    obtain ⟨hpiece, hpieces'⟩ := List.forall_mem_cons.1 hpieces
    obtain ⟨hc, hnames'⟩ := List.forall_mem_cons.1 hnames
    obtain rfl | ⟨name, rfl⟩ := hpiece.eq_parent_or_name
    · exact absurd rfl hc
    · rw [List.length_cons, List.replicate_succ, List.foldl_cons]
      exact ih hpieces' hnames'

/-- Names lead down from where one stands, and one `..` for each leads back there. -/
theorem foldl_step_back {names taken : List Component} (hpieces : ∀ c ∈ names, c.IsPiece)
    (hnames : ∀ c ∈ names, c ≠ .parent) :
    (names ++ names.map fun _ => Component.parent).foldl step taken = taken := by
  rw [List.foldl_append, foldl_step_names hnames hpieces, List.map_const', ← List.length_reverse]
  apply foldl_step_climb
  · exact fun c hc => hpieces c (List.mem_reverse.1 hc)
  · exact fun c hc => hnames c (List.mem_reverse.1 hc)

/-- The steps of the way lead from the directory to the path. -/
theorem components_resolve_wayTo {q : Path} (hdirectory : directory.Straight)
    (htarget : target.Straight) (hrelative : q.isAbsolute = false)
    (honward : q.onward = wayTo directory target) :
    (directory.resolve [q]).components = target.components := by
  obtain ⟨common, hup, hdown⟩ := exists_diverge directory.onward target.onward
  have hpieces := isPiece_onward directory
  have hnames := hdirectory.descends
  rw [hup, List.forall_mem_append] at hpieces hnames
  have hsteps : directory.onward ++ wayTo directory target =
      common ++ (((diverge directory.onward target.onward).1 ++
        (diverge directory.onward target.onward).1.map fun _ => .parent) ++
          (diverge directory.onward target.onward).2) := by
    rw [wayTo]
    nth_rewrite 1 [hup]
    simp only [List.append_assoc]
  rw [resolve_one, components_normalize, onward_join hrelative, start_join hrelative, honward,
    hsteps, List.foldl_append, List.foldl_append, foldl_step_back hpieces.2 hnames.2,
    ← List.foldl_append, ← hdown, foldl_step_names htarget.descends (isPiece_onward target),
    hdirectory.start, htarget.components, List.reverse_append, List.reverse_reverse]
  rfl

/-- A reference leads from its directory to the path it names. -/
theorem components_resolve_moduleReference (hdirectory : directory.Straight)
    (htarget : target.Straight) :
    (directory.resolve [⟨moduleReference directory target⟩]).components = target.components := by
  obtain ⟨hrelative, honward⟩ := onward_moduleReference hdirectory.absolute htarget.absolute
  exact components_resolve_wayTo hdirectory htarget hrelative honward

end Reference

/-! ### What a reference begins with -/

/-- A reference up to its first slash. -/
def firstPiece (reference : String) : String :=
  String.ofList (reference.toList.takeWhile (· != '/'))

/-- The path lies in the directory, under a name there that starts with a dot. -/
def Hides (directory target : Path) : Prop :=
  ∃ name below, target.components = directory.components ++ .name name :: below ∧
    name.toList.head? = some '.'

section FirstPiece

variable {directory target : Path} {c : Component} {cs : List Component}

theorem toList_intercalate_cons (c : Component) (cs : List Component) :
    ∃ rest, ("/".intercalate ((c :: cs).map Component.text)).toList = c.text.toList ++ rest ∧
      (rest = [] ∨ rest.head? = some '/') := by
  rw [String.toList_intercalate]
  cases cs with
  | nil => exact ⟨[], by simp [List.intercalate], .inl rfl⟩
  | cons c' cs => exact ⟨_, by simp [List.intercalate]; rfl, .inr (by simp)⟩

theorem firstPiece_intercalate (hc : c.IsPiece) (cs : List Component) :
    firstPiece ("/".intercalate ((c :: cs).map Component.text)) = c.text := by
  obtain ⟨rest, htext, hrest⟩ := toList_intercalate_cons c cs
  have hslash : ∀ a ∈ c.text.toList, (a != '/') = true := by
    rintro a ha
    rw [bne_iff_ne]
    rintro rfl
    exact hc.slash ha
  have hend : rest.takeWhile (· != '/') = [] := by
    cases rest with
    | nil => rfl
    | cons a rest => simp_all
  rw [firstPiece, htext, List.takeWhile_append_of_pos hslash, hend, List.append_nil,
    String.ofList_toList]

theorem head?_intercalate (hc : c.IsPiece) (cs : List Component) :
    ("/".intercalate ((c :: cs).map Component.text)).toList.head? = c.text.toList.head? := by
  obtain ⟨rest, htext, -⟩ := toList_intercalate_cons c cs
  obtain ⟨a, as, ha⟩ := List.exists_cons_of_ne_nil hc.ne_nil
  rw [htext, ha]
  rfl

theorem onward_of_components (hdirectory : directory.IsNormal) (htarget : target.IsNormal)
    (h : target.components = directory.components ++ cs) :
    target.onward = directory.onward ++ cs := by
  rw [hdirectory.straight.components, htarget.straight.components] at h
  exact (List.cons.inj h).2

theorem wayTo_of_onward (h : target.onward = directory.onward ++ cs) :
    wayTo directory target = cs := by
  rw [wayTo, h, diverge_append]
  rfl

theorem moduleReference_eq (hdirectory : directory.IsNormal) (htarget : target.IsNormal) :
    moduleReference directory target =
      if ("/".intercalate ((wayTo directory target).map Component.text)).toList.head? = some '.'
      then "/".intercalate ((wayTo directory target).map Component.text)
      else "./" ++ "/".intercalate ((wayTo directory target).map Component.text) := by
  rw [moduleReference, toSlash_relative hdirectory.absolute htarget.absolute]

/-- A way that climbs begins with `..`. -/
theorem firstPiece_of_climb (hdirectory : directory.IsNormal) (htarget : target.IsNormal)
    (hclimb : (diverge directory.onward target.onward).1 ≠ []) :
    firstPiece (moduleReference directory target) = ".." := by
  obtain ⟨c, climb, hclimb⟩ := List.exists_cons_of_ne_nil hclimb
  have hway : wayTo directory target = .parent ::
      (climb.map (fun _ => .parent) ++ (diverge directory.onward target.onward).2) := by
    rw [wayTo, hclimb]
    rfl
  rw [moduleReference_eq hdirectory htarget, hway, if_pos, firstPiece_intercalate isPiece_parent]
  · rfl
  · rw [head?_intercalate isPiece_parent]
    rfl

theorem firstPiece_of_self (hdirectory : directory.IsNormal) (htarget : target.IsNormal)
    (h : target.onward = directory.onward) :
    firstPiece (moduleReference directory target) = "." := by
  have hway : wayTo directory target = [] := wayTo_of_onward (by rw [h, List.append_nil])
  rw [moduleReference_eq hdirectory htarget, hway]
  rfl

/-- A way down begins with its first name if that has a dot at its start, and with `.` if not. -/
theorem firstPiece_of_descent (hdirectory : directory.IsNormal) (htarget : target.IsNormal)
    (h : target.onward = directory.onward ++ c :: cs) :
    firstPiece (moduleReference directory target) =
      if c.text.toList.head? = some '.' then c.text else "." := by
  have hc : c.IsPiece := isPiece_onward target c (by simp [h])
  rw [moduleReference_eq hdirectory htarget, wayTo_of_onward h, head?_intercalate hc]
  split
  · exact firstPiece_intercalate hc cs
  · rw [firstPiece, String.toList_append]
    rfl

theorem firstPiece_of_name {name : String} (hdirectory : directory.IsNormal)
    (htarget : target.IsNormal) (h : target.components = directory.components ++ .name name :: cs)
    (hdot : name.toList.head? = some '.') :
    firstPiece (moduleReference directory target) = name ∧ name ≠ "." ∧ name ≠ ".." := by
  have honward := onward_of_components hdirectory htarget h
  have hname : IsPiece (.name name) := isPiece_onward target _ (by simp [honward])
  have hne := hname.text_ne Component.noConfusion
  rw [firstPiece_of_descent hdirectory htarget honward]
  exact ⟨if_pos hdot, hne⟩

/-- A reference begins with `.` or `..`, unless it leads to what has a dot at the start of its name
in the directory. Then it begins with that name, and can pass for the name of a package. -/
theorem firstPiece_moduleReference (hdirectory : directory.IsNormal) (htarget : target.IsNormal) :
    (firstPiece (moduleReference directory target) = "." ∨
        firstPiece (moduleReference directory target) = ".." ↔ ¬directory.Hides target) ∧
      ∀ name below, target.components = directory.components ++ .name name :: below →
        name.toList.head? = some '.' → firstPiece (moduleReference directory target) = name := by
  refine ⟨⟨?_, fun hhides => ?_⟩, fun name below h hdot =>
    (firstPiece_of_name hdirectory htarget h hdot).1⟩
  · rintro hfirst ⟨name, below, h, hdot⟩
    obtain ⟨hname, hne⟩ := firstPiece_of_name hdirectory htarget h hdot
    rw [hname] at hfirst
    exact hfirst.elim hne.1 hne.2
  · by_cases hclimb : (diverge directory.onward target.onward).1 = []
    · obtain ⟨common, hup, hdown⟩ := exists_diverge directory.onward target.onward
      rw [hclimb, List.append_nil] at hup
      rw [← hup] at hdown
      left
      cases hcs : (diverge directory.onward target.onward).2 with
      | nil =>
        rw [hcs, List.append_nil] at hdown
        exact firstPiece_of_self hdirectory htarget hdown
      | cons c cs =>
        rw [hcs] at hdown
        have hc : c.IsPiece := isPiece_onward target c (by simp [hdown])
        have hdescends : c ≠ .parent := htarget.straight.descends c (by simp [hdown])
        obtain ⟨name, rfl⟩ := hc.eq_parent_or_name.resolve_left hdescends
        rw [firstPiece_of_descent hdirectory htarget hdown]
        apply if_neg
        intro hdot
        apply hhides
        refine ⟨name, cs, ?_, hdot⟩
        rw [hdirectory.straight.components, htarget.straight.components, hdown]
        rfl
    · exact .inr (firstPiece_of_climb hdirectory htarget hclimb)

end FirstPiece

theorem firstPiece_moduleReference_cache :
    let directory : Path := ⟨"/p/dist"⟩
    let target : Path := ⟨"/p/dist/.cache/m"⟩
    (directory.IsNormal ∧ target.IsNormal) ∧ directory.Hides target ∧
      ¬(firstPiece (moduleReference directory target) = "." ∨
        firstPiece (moduleReference directory target) = "..") ∧
      firstPiece (moduleReference directory target) = ".cache" := by
  have hdirectory : IsNormal ⟨"/p/dist"⟩ := by decide
  have htarget : IsNormal ⟨"/p/dist/.cache/m"⟩ := by decide
  have hsteps : components ⟨"/p/dist/.cache/m"⟩ =
      components ⟨"/p/dist"⟩ ++ .name ".cache" :: [.name "m"] := by decide
  have hhides : Hides ⟨"/p/dist"⟩ ⟨"/p/dist/.cache/m"⟩ := ⟨".cache", [.name "m"], hsteps, by decide⟩
  obtain ⟨hiff, hbare⟩ := firstPiece_moduleReference hdirectory htarget
  exact ⟨⟨hdirectory, htarget⟩, hhides, fun hfirst => hiff.1 hfirst hhides,
    hbare ".cache" [.name "m"] hsteps (by decide)⟩

theorem not_firstPiece_moduleReference :
    ¬∀ directory target : Path, directory.IsNormal → target.IsNormal →
      firstPiece (moduleReference directory target) = "." ∨
        firstPiece (moduleReference directory target) = ".." := by
  intro h
  have hbare : ¬(firstPiece (moduleReference ⟨"/p/dist"⟩ ⟨"/p/dist/.cache/m"⟩) = "." ∨
      firstPiece (moduleReference ⟨"/p/dist"⟩ ⟨"/p/dist/.cache/m"⟩) = "..") := by
    decide +kernel
  exact hbare (h _ _ (by decide) (by decide))

end Unalias.Path
