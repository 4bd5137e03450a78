import Mathlib.Data.List.Induction
import Unalias.Proofs.Path.Steps

/-!
The algebra of normalization. What folding leaves is behind the root names only, and elsewhere a
run of `..` and then names. Steps that were folded before fold like the steps they come from, on
top of whatever is there, so that a path may be normalized as a whole, part by part or again.
-/

namespace Unalias.Path

open Component

/-! ### What folding leaves -/

section Shape

variable {p : Path} {cs taken : List Component} {c : Component}

/-- Steps last first: names, below them `..` that had nothing to undo, at the bottom the start. -/
def IsFoldedOnto (p : Path) (taken : List Component) : Prop :=
  ∃ (names : List String) (n : Nat),
    taken = names.map .name ++ List.replicate n .parent ++ p.start ∧ (p.isAbsolute = true → n = 0)

theorem isFoldedOnto_start (p : Path) : p.IsFoldedOnto p.start :=
  ⟨[], 0, rfl, fun _ => rfl⟩

theorem IsFoldedOnto.step (h : p.IsFoldedOnto taken) (hc : c.IsPiece) :
    p.IsFoldedOnto (step taken c) := by
  obtain ⟨names, n, rfl, hn⟩ := h
  obtain rfl | ⟨name, rfl⟩ := hc.eq_parent_or_name
  · cases names with
    | cons name names => exact ⟨names, n, rfl, hn⟩
    | nil =>
      -- only at the root does a `..` get lost
      cases habsolute : p.isAbsolute with
      | true =>
        obtain rfl := hn habsolute
        have hroot : p.start = [.root] := if_pos habsolute
        refine ⟨[], 0, ?_, fun _ => rfl⟩
        rw [hroot]
        rfl
      | false =>
        have hempty : p.start = [] := if_neg (by simp [habsolute])
        refine ⟨[], n + 1, ?_, fun h => absurd (habsolute.symm.trans h) Bool.false_ne_true⟩
        rw [hempty]
        cases n <;> rfl
  · exact ⟨name :: names, n, rfl, hn⟩

theorem IsFoldedOnto.foldl (h : p.IsFoldedOnto taken) (hcs : ∀ c ∈ cs, c.IsPiece) :
    p.IsFoldedOnto (cs.foldl Path.step taken) := by
  induction cs generalizing taken with
  | nil => exact h
  | cons c cs ih =>
    obtain ⟨hc, hrest⟩ := List.forall_mem_cons.1 hcs
    exact ih (h.step hc) hrest

theorem exists_components_normalize (p : Path) :
    ∃ (names : List String) (n : Nat), (p.isAbsolute = true → n = 0) ∧
      p.normalize.components = p.start ++ (List.replicate n .parent ++ names.map .name) := by
  obtain ⟨names, n, hfold, hn⟩ := (isFoldedOnto_start p).foldl (isPiece_onward p)
  refine ⟨names.reverse, n, hn, ?_⟩
  have hstart : p.start.reverse = p.start := by
    rw [start]
    split <;> rfl
  rw [components_normalize, hfold, List.reverse_append, List.reverse_append, hstart,
    List.reverse_replicate, List.map_reverse]

end Shape

/-! ### Folding what was folded -/

/-- A step taken before or after the steps below it are put on top of others. -/
theorem foldl_step_reverse_step (below taken : List Component) (c : Component) :
    (step below c).reverse.foldl step taken = step (below.reverse.foldl step taken) c := by
  cases c with
  | current => rfl
  | root | name => simp [step]
  | parent =>
    cases below with
    | nil => rfl
    | cons top below => cases top <;> simp [step]

/-- Folded steps fold on top of others as the steps do that they come from. -/
theorem foldl_step_foldl (cs below taken : List Component) :
    (cs.foldl step below).reverse.foldl step taken =
      cs.foldl step (below.reverse.foldl step taken) := by
  induction cs generalizing below with
  | nil => rfl
  | cons c cs ih => rw [List.foldl_cons, ih, foldl_step_reverse_step, List.foldl_cons]

/-- The steps that normalization leaves, last first. -/
def folded (p : Path) : List Component :=
  p.onward.foldl step p.start

theorem normalize_eq_of_folded {p q : Path} (h : p.folded = q.folded) :
    p.normalize = q.normalize := by
  rw [normalize_eq, normalize_eq, ← folded, ← folded, h]

theorem isAbsolute_normalize (p : Path) : p.normalize.isAbsolute = p.isAbsolute := by
  obtain ⟨kept, -, hnormalize, hkept⟩ := exists_normalize_eq p
  have hpieces : ∀ c ∈ kept, c.IsPiece := fun c hc => (hkept c hc).1
  rw [hnormalize, start]
  cases p.isAbsolute with
  | true => exact isAbsolute_root kept
  | false =>
    change (ofComponents kept).isAbsolute = false
    rw [ofComponents_of_isPiece hpieces]
    exact isAbsolute_intercalate hpieces

theorem start_normalize (p : Path) : p.normalize.start = p.start := by
  rw [start, isAbsolute_normalize, start]

theorem start_append_onward_normalize (p : Path) :
    p.start ++ p.normalize.onward = p.folded.reverse := by
  obtain ⟨kept, hfold, hnormalize, hkept⟩ := exists_normalize_eq p
  have hpieces : ∀ c ∈ kept, c.IsPiece := fun c hc => (hkept c hc).1
  have honward : p.normalize.onward = kept := by
    rw [hnormalize, start]
    split
    · exact onward_root hpieces
    · change (ofComponents kept).onward = kept
      rw [ofComponents_of_isPiece hpieces, onward_intercalate hpieces]
  rw [honward, folded, hfold]

theorem folded_normalize (p : Path) : p.normalize.folded = p.folded := by
  have hstart : p.start.foldl step [] = p.start := by
    rw [start]
    split <;> rfl
  have hreverse : p.start.reverse = p.start := by
    rw [start]
    split <;> rfl
  calc p.normalize.folded
      = (p.start ++ p.normalize.onward).foldl step [] := by
        rw [folded, start_normalize, List.foldl_append, hstart]
    _ = p.folded.reverse.foldl step [] := by rw [start_append_onward_normalize]
    _ = p.folded := by rw [folded, foldl_step_foldl, hreverse, hstart]

theorem normalize_normalize (p : Path) : p.normalize.normalize = p.normalize :=
  normalize_eq_of_folded (folded_normalize p)

section Join

variable {a b : Path}

theorem folded_join (h : b.isAbsolute = false) :
    (a.join b).folded = b.onward.foldl step a.folded := by
  rw [folded, onward_join h, start_join h, List.foldl_append, folded]

theorem normalize_join_left (a b : Path) :
    (a.normalize.join b).normalize = (a.join b).normalize := by
  cases h : b.isAbsolute with
  | true => rw [join_of_absolute h, join_of_absolute h]
  | false =>
    apply normalize_eq_of_folded
    rw [folded_join h, folded_join h, folded_normalize]

theorem normalize_join_right (a b : Path) :
    (a.join b.normalize).normalize = (a.join b).normalize := by
  have habsolute := isAbsolute_normalize b
  cases h : b.isAbsolute with
  | true =>
    rw [h] at habsolute
    rw [join_of_absolute h, join_of_absolute habsolute, normalize_normalize]
  | false =>
    rw [h] at habsolute
    have hstart : b.start = [] := if_neg (by simp [h])
    have honward := start_append_onward_normalize b
    rw [folded, hstart, List.nil_append] at honward
    apply normalize_eq_of_folded
    rw [folded_join h, folded_join habsolute, honward, foldl_step_foldl]
    rfl

end Join

/-! ### Resolving part by part -/

theorem normalize_foldl_join (base : Path) (parts : List Path) :
    (parts.foldl join base.normalize).normalize = (parts.foldl join base).normalize := by
  induction parts using List.reverseRecOn with
  | nil => exact normalize_normalize base
  | append_singleton parts part ih =>
    simp only [List.foldl_append, List.foldl_cons, List.foldl_nil]
    rw [← normalize_join_left, ih, normalize_join_left]

theorem resolve_append (base : Path) (parts parts' : List Path) :
    base.resolve (parts ++ parts') = (base.resolve parts).resolve parts' := by
  rw [resolve, resolve, resolve, normalize_foldl_join, List.foldl_append]

theorem foldl_resolve (base : Path) (parts : List Path) :
    parts.foldl (fun here part => here.resolve [part]) base.normalize = base.resolve parts := by
  induction parts using List.reverseRecOn with
  | nil => rfl
  | append_singleton parts part ih =>
    rw [List.foldl_append, ih, resolve_append]
    rfl

/-- A normalized path starts at the root if the path does that it comes from, and then has names
only; elsewhere it is a run of `..` and then names. A path that is joined onto another may be
normalized before, and so may the other; so it makes no difference to normalize again, or to
resolve parts one by one or all at once. -/
theorem normalize_join (a b : Path) :
    (.current ∉ a.normalize.components ∧
      (a.isAbsolute = true ∧ (∃ names : List String,
          a.normalize.components = .root :: names.map .name) ∨
        a.isAbsolute = false ∧ ∃ (n : Nat) (names : List String),
          a.normalize.components = List.replicate n .parent ++ names.map .name) ∧
      a.normalize.isAbsolute = a.isAbsolute) ∧
    ((a.join b).normalize = (a.normalize.join b).normalize ∧
      (a.join b).normalize = (a.join b.normalize).normalize) ∧
    a.normalize.normalize = a.normalize ∧
    ∀ parts parts' : List Path,
      a.resolve (parts ++ parts') = (a.resolve parts).resolve parts' ∧
      a.resolve parts = parts.foldl (fun here part => here.resolve [part]) a.normalize := by
  obtain ⟨names, n, hn, hcomponents⟩ := exists_components_normalize a
  refine ⟨⟨?_, ?_, isAbsolute_normalize a⟩,
    ⟨(normalize_join_left a b).symm, (normalize_join_right a b).symm⟩, normalize_normalize a,
    fun parts parts' => ⟨resolve_append a parts parts', (foldl_resolve a parts).symm⟩⟩
  · rw [hcomponents, start]
    split <;> simp
  · rw [start] at hcomponents
    cases habsolute : a.isAbsolute with
    | true =>
      rw [habsolute, hn habsolute] at hcomponents
      exact .inl ⟨rfl, names, hcomponents⟩
    | false =>
      rw [habsolute] at hcomponents
      exact .inr ⟨rfl, n, names, hcomponents⟩

end Unalias.Path
