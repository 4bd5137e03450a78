import Unalias.Path.Relative
import Unalias.Proofs.Files.Reading
import Unalias.Proofs.Path.Pieces

/-!
Paths as their steps. A path starts at the root or where one stands, and its pieces are the steps
from there. Joining puts steps behind steps, and normalization folds them onto the start, so that
where a path leads can be told from its steps alone.
-/

namespace Unalias

theorem Text.not_mem_split (c : Char) (cs : List Char) : ∀ piece ∈ Text.split c cs, c ∉ piece := by
  induction cs with
  | nil => simp [Text.split]
  | cons a cs ih =>
    rw [Text.split]
    split
    · simpa using ih
    · rename_i ha
      split
      · simpa using Ne.symm ha
      · rename_i p ps hps
        rw [hps] at ih
        obtain ⟨hp, hrest⟩ := List.forall_mem_cons.1 ih
        refine List.forall_mem_cons.2 ⟨?_, hrest⟩
        simp [Ne.symm ha, hp]

namespace Path

namespace Component

/-- A step that stands as one piece in a text: a name or `..`. -/
structure IsPiece (c : Component) : Prop where
  slash : '/' ∉ c.text.toList
  of_text : ofPiece? c.text.toList = some c

instance : DecidablePred IsPiece := fun c =>
  decidable_of_iff ('/' ∉ c.text.toList ∧ ofPiece? c.text.toList = some c)
    ⟨fun h => ⟨h.1, h.2⟩, fun h => ⟨h.slash, h.of_text⟩⟩

theorem isPiece_parent : IsPiece .parent := by
  decide

theorem isPiece_of_ofPiece? {piece : List Char} {c : Component} (hslash : '/' ∉ piece)
    (h : ofPiece? piece = some c) : c.IsPiece := by
  have htext : c.text.toList = piece := by
    rw [ofPiece?] at h
    split at h
    · cases h
    · split at h
      · rename_i hdots
        cases h
        exact hdots.symm
      · cases h
        exact String.toList_ofList
  exact ⟨htext ▸ hslash, htext ▸ h⟩

theorem IsPiece.eq_parent_or_name {c : Component} (h : c.IsPiece) :
    c = .parent ∨ ∃ name, c = .name name := by
  cases c with
  | root => exact absurd h (by decide)
  | current => exact absurd h (by decide)
  | parent => exact .inl rfl
  | name name => exact .inr ⟨name, rfl⟩

theorem IsPiece.ne_nil {c : Component} (h : c.IsPiece) : c.text.toList ≠ [] := by
  intro hnil
  have htext := h.of_text
  rw [hnil] at htext
  cases htext

theorem IsPiece.ne_dot {c : Component} (h : c.IsPiece) : c.text.toList ≠ ['.'] := by
  intro hdot
  have htext := h.of_text
  rw [hdot] at htext
  cases htext

theorem IsPiece.text_ne {c : Component} (h : c.IsPiece) (hname : c ≠ .parent) :
    c.text ≠ "." ∧ c.text ≠ ".." := by
  refine ⟨fun hdot => h.ne_dot (congrArg String.toList hdot), fun hdots => hname ?_⟩
  have hof := h.of_text
  rw [hdots] at hof
  exact (Option.some.inj hof).symm

end Component

open Component

/-- What a path starts with: the root, if it is absolute. -/
def start (p : Path) : List Component :=
  if p.isAbsolute then [.root] else []

/-- The names and `..` on the way from the start. -/
def onward (p : Path) : List Component :=
  (Text.split '/' p.text.toList).filterMap ofPiece?

theorem isPiece_onward (p : Path) : ∀ c ∈ p.onward, c.IsPiece := by
  intro c hc
  obtain ⟨piece, hpiece, hof⟩ := List.mem_filterMap.1 hc
  exact isPiece_of_ofPiece? (Text.not_mem_split _ _ piece hpiece) hof

theorem components_of_absolute {p : Path} (h : p.isAbsolute = true) :
    p.components = .root :: p.onward := by
  obtain ⟨cs, hcs⟩ := List.head?_eq_some_iff.1 (of_decide_eq_true h)
  rw [components_of_slash hcs, onward, hcs, Text.split, if_pos rfl, List.filterMap_cons]
  rfl

theorem components_of_relative {p : Path} (h : p.isAbsolute = false) :
    p.components = p.onward ∨ p.components = .current :: p.onward := by
  have hhead : p.text.toList.head? ≠ some '/' := of_decide_eq_false h
  rw [components]
  rw [onward]
  split
  · rename_i hslash
    rw [hslash] at hhead
    exact absurd rfl hhead
  · split
    · rename_i hdot
      rw [hdot, List.filterMap_cons]
      exact .inr rfl
    · exact .inl rfl

/-! ### Texts of steps -/

section Pieces

variable {cs : List Component}

theorem split_intercalate (h : ∀ c ∈ cs, c.IsPiece) (hne : cs ≠ []) :
    Text.split '/' ("/".intercalate (cs.map Component.text)).toList =
      cs.map fun c => c.text.toList := by
  have hslash : ∀ piece ∈ cs.map fun c => c.text.toList, '/' ∉ piece := by
    intro piece hpiece
    obtain ⟨c, hc, rfl⟩ := List.mem_map.1 hpiece
    exact (h c hc).slash
  have hne' : (cs.map fun c => c.text.toList) ≠ [] := mt List.map_eq_nil_iff.1 hne
  rw [Text.split_eq_splitOn, String.toList_intercalate, List.map_map]
  exact List.splitOn_intercalate '/' hslash hne'

theorem filterMap_ofPiece? (h : ∀ c ∈ cs, c.IsPiece) :
    (cs.map fun c => c.text.toList).filterMap ofPiece? = cs := by
  induction cs with
  | nil => rfl
  | cons c cs ih =>
    obtain ⟨hc, hcs⟩ := List.forall_mem_cons.1 h
    rw [List.map_cons, List.filterMap_cons, hc.of_text, ih hcs]

theorem onward_intercalate (h : ∀ c ∈ cs, c.IsPiece) :
    onward ⟨"/".intercalate (cs.map Component.text)⟩ = cs := by
  by_cases hne : cs = []
  · subst hne
    rfl
  · rw [onward, split_intercalate h hne, filterMap_ofPiece? h]

theorem isAbsolute_intercalate (h : ∀ c ∈ cs, c.IsPiece) :
    isAbsolute ⟨"/".intercalate (cs.map Component.text)⟩ = false := by
  cases cs with
  | nil => rfl
  | cons c cs =>
    obtain ⟨hc, -⟩ := List.forall_mem_cons.1 h
    obtain ⟨a, as, ha⟩ := List.exists_cons_of_ne_nil hc.ne_nil
    have hhead : ("/".intercalate ((c :: cs).map Component.text)).toList.head? = some a := by
      rw [String.toList_intercalate]
      cases cs <;> simp [List.intercalate, ha]
    rw [isAbsolute]
    refine decide_eq_false fun hslash => hc.slash ?_
    obtain rfl : a = '/' := Option.some.inj (hhead.symm.trans hslash)
    rw [ha]
    exact List.mem_cons_self

/-- Steps are read back from their text. -/
theorem components_intercalate (h : ∀ c ∈ cs, c.IsPiece) :
    components ⟨"/".intercalate (cs.map Component.text)⟩ = cs := by
  have hrelative := isAbsolute_intercalate h
  have honward := onward_intercalate h
  obtain hsteps | hsteps := components_of_relative hrelative
  · rw [hsteps, honward]
  · -- the text would begin with a piece that is a dot
    rw [components] at hsteps
    split at hsteps
    · rename_i hslash
      rw [isAbsolute, hslash] at hrelative
      cases hrelative
    · split at hsteps
      · rename_i hdot
        have hne : cs ≠ [] := by
          rintro rfl
          cases hdot
        rw [split_intercalate h hne] at hdot
        obtain ⟨c, cs, rfl⟩ := List.exists_cons_of_ne_nil hne
        exact absurd (List.cons.inj hdot).1 (h c List.mem_cons_self).ne_dot
      · change onward _ = _ at hsteps
        rw [honward] at hsteps
        exact absurd (congrArg List.length hsteps) (by simp)

theorem ofComponents_of_isPiece (h : ∀ c ∈ cs, c.IsPiece) :
    ofComponents cs = ⟨"/".intercalate (cs.map Component.text)⟩ := by
  rw [ofComponents]
  rintro cs' rfl
  exact absurd (h .root List.mem_cons_self) (by decide)

theorem components_ofComponents (h : ∀ c ∈ cs, c.IsPiece) : (ofComponents cs).components = cs := by
  rw [ofComponents_of_isPiece h, components_intercalate h]

theorem onward_root (h : ∀ c ∈ cs, c.IsPiece) : (ofComponents (.root :: cs)).onward = cs := by
  have htext : (ofComponents (.root :: cs)).text.toList =
      '/' :: ("/".intercalate (cs.map Component.text)).toList := by
    rw [ofComponents, String.toList_append]
    rfl
  rw [onward, htext, Text.split, if_pos rfl, List.filterMap_cons]
  exact onward_intercalate h

theorem isAbsolute_root (cs : List Component) : (ofComponents (.root :: cs)).isAbsolute = true := by
  rw [isAbsolute, ofComponents, String.toList_append]
  rfl

theorem components_root (h : ∀ c ∈ cs, c.IsPiece) :
    (ofComponents (.root :: cs)).components = .root :: cs := by
  rw [components_of_absolute (isAbsolute_root cs), onward_root h]

end Pieces

/-! ### Joining -/

section Join

variable {p q : Path}

theorem join_of_absolute (h : q.isAbsolute = true) : p.join q = q := by
  rw [join, if_pos h]

theorem onward_join (h : q.isAbsolute = false) : (p.join q).onward = p.onward ++ q.onward := by
  have hsplit : ∀ cs cs' : List Char, (Text.split '/' (cs ++ '/' :: cs')).filterMap ofPiece? =
      (Text.split '/' cs).filterMap ofPiece? ++ (Text.split '/' cs').filterMap ofPiece? := by
    intro cs cs'
    simp only [Text.split_eq_splitOn, List.splitOn_append_cons_self, List.filterMap_append]
  rw [join, if_neg (by simp [h])]
  by_cases hempty : p.text = ""
  · rw [if_pos (.inl hempty)]
    simp only [onward, hempty, String.toList_append]
    rfl
  · by_cases hlast : p.text.toList.getLast? = some '/'
    · obtain ⟨cs, hcs⟩ := List.getLast?_eq_some_iff.1 hlast
      rw [if_pos (.inr hlast)]
      simp only [onward, String.toList_append, hcs, List.append_assoc, List.singleton_append,
        hsplit]
      simp [Text.split, ofPiece?]
    · rw [if_neg (not_or.2 ⟨hempty, hlast⟩)]
      have hslash : "/".toList = ['/'] := rfl
      simp only [onward, String.toList_append, hslash, List.append_assoc, List.singleton_append,
        hsplit]

theorem isAbsolute_join_of_relative (h : q.isAbsolute = false) :
    (p.join q).isAbsolute = p.isAbsolute := by
  rw [join, if_neg (by simp [h])]
  cases hcs : p.text.toList with
  | nil =>
    obtain htext : p.text = "" := String.toList_inj.1 hcs
    rw [if_pos (.inl htext)]
    simpa [isAbsolute, htext] using h
  | cons c cs =>
    split <;> simp [isAbsolute, hcs]

theorem start_join (h : q.isAbsolute = false) : (p.join q).start = p.start := by
  rw [start, isAbsolute_join_of_relative h, start]

end Join

/-! ### Folding -/

theorem resolve_one (base part : Path) : base.resolve [part] = (base.join part).normalize :=
  rfl

theorem resolve_two (base part part' : Path) :
    base.resolve [part, part'] = ((base.join part).join part').normalize :=
  rfl

/-- The fold of a path keeps only its start and the steps onward. -/
theorem normalize_eq (p : Path) :
    p.normalize = ofComponents (p.onward.foldl step p.start).reverse := by
  rw [normalize]
  cases h : p.isAbsolute with
  | true =>
    rw [components_of_absolute h, start, if_pos h]
    rfl
  | false =>
    have hstart : p.start = [] := by rw [start, if_neg (by simp [h])]
    obtain hsteps | hsteps := components_of_relative h
    · rw [hsteps, hstart]
    · rw [hsteps, hstart]
      rfl

section Fold

variable {cs : List Component} {taken : List Component}

theorem foldl_step_names (h : ∀ c ∈ cs, c ≠ .parent) (hpieces : ∀ c ∈ cs, c.IsPiece) :
    cs.foldl step taken = cs.reverse ++ taken := by
  induction cs generalizing taken with
  | nil => rfl
  | cons c cs ih =>
    obtain ⟨hc, hcs⟩ := List.forall_mem_cons.1 h
    obtain ⟨hpiece, hrest⟩ := List.forall_mem_cons.1 hpieces
    obtain rfl | ⟨name, rfl⟩ := hpiece.eq_parent_or_name
    · exact absurd rfl hc
    · rw [List.foldl_cons, step, ih hcs hrest]
      · simp
      · simp
      · simp

/-- A step that normalization leaves behind the start: behind the root, only names are left. -/
def IsKept (p : Path) (c : Component) : Prop :=
  c.IsPiece ∧ (p.isAbsolute = true → c ≠ .parent)

/-- Folding never takes the start away. -/
theorem exists_foldl_step (p : Path) (h : ∀ c ∈ cs, c.IsPiece) (htaken : ∀ c ∈ taken, p.IsKept c) :
    ∃ taken', cs.foldl step (taken ++ p.start) = taken' ++ p.start ∧ ∀ c ∈ taken', p.IsKept c := by
  induction cs generalizing taken with
  | nil => exact ⟨taken, rfl, htaken⟩
  | cons c cs ih =>
    obtain ⟨hc, hcs⟩ := List.forall_mem_cons.1 h
    suffices hstep : ∃ taken', step (taken ++ p.start) c = taken' ++ p.start ∧
        ∀ c ∈ taken', p.IsKept c by
      obtain ⟨taken', htaken', hkept⟩ := hstep
      rw [List.foldl_cons, htaken']
      exact ih hcs hkept
    obtain rfl | ⟨name, rfl⟩ := hc.eq_parent_or_name
    · cases taken with
      | nil =>
        rw [start]
        split
        · exact ⟨[], rfl, htaken⟩
        · rename_i hrelative
          refine ⟨[.parent], rfl, fun c hc => ?_⟩
          obtain rfl := List.mem_singleton.1 hc
          exact ⟨isPiece_parent, fun habsolute => absurd habsolute hrelative⟩
      | cons top taken =>
        obtain ⟨htop, hbelow⟩ := List.forall_mem_cons.1 htaken
        obtain rfl | ⟨name, rfl⟩ := htop.1.eq_parent_or_name
        · refine ⟨.parent :: .parent :: taken, rfl, ?_⟩
          exact List.forall_mem_cons.2 ⟨htop, List.forall_mem_cons.2 ⟨htop, hbelow⟩⟩
        · exact ⟨taken, rfl, hbelow⟩
    · refine ⟨.name name :: taken, rfl, List.forall_mem_cons.2 ⟨⟨hc, ?_⟩, htaken⟩⟩
      exact fun _ => Component.noConfusion

theorem components_of_start (p : Path) (h : ∀ c ∈ cs, c.IsPiece) :
    (ofComponents (p.start ++ cs)).components = p.start ++ cs := by
  rw [start]
  split
  · exact components_root h
  · exact components_ofComponents h

/-- The start of a path and what normalization leaves behind it. -/
theorem exists_normalize_eq (p : Path) :
    ∃ kept, (p.onward.foldl step p.start).reverse = p.start ++ kept ∧
      p.normalize = ofComponents (p.start ++ kept) ∧ ∀ c ∈ kept, p.IsKept c := by
  obtain ⟨taken, hfold, hkept⟩ := exists_foldl_step p (isPiece_onward p) (List.forall_mem_nil _)
  have hstart : p.start.reverse = p.start := by
    rw [start]
    split <;> rfl
  have hreverse : (p.onward.foldl step p.start).reverse = p.start ++ taken.reverse := by
    rw [List.nil_append] at hfold
    rw [hfold, List.reverse_append, hstart]
  refine ⟨taken.reverse, hreverse, ?_, fun c hc => hkept c (List.mem_reverse.1 hc)⟩
  rw [normalize_eq, hreverse]

theorem components_normalize (p : Path) :
    p.normalize.components = (p.onward.foldl step p.start).reverse := by
  obtain ⟨kept, hfold, hnormalize, hkept⟩ := exists_normalize_eq p
  rw [hfold, hnormalize]
  exact components_of_start p fun c hc => (hkept c hc).1

end Fold

end Path

end Unalias
