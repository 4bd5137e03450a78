import Mathlib.Data.List.Lex
import Unalias.Proofs.Files.Tree
import Unalias.Proofs.Path.Steps

/-!
The compiled files below a directory. In whatever order the entries of a tree are walked, a scan
finds the files whose names have one of the endings, each once, in the order of their paths and
under a key of its own.
-/

namespace Unalias

/-! ### The names of compiled files -/

namespace Scanned

def HasEnding (name : String) : Prop :=
  ∃ ending ∈ [".js", ".jsx", ".ts", ".tsx"], ending.toList <:+ name.toList

/-- Whether it is an extension or not, what counts is what stands behind the last dot. -/
theorem ending_of_dot {name : String} {before last : List Char}
    (hname : name.toList = before ++ '.' :: last) (hlast : '.' ∉ last) :
    (extension? name).or (undotted? name) = some (String.ofList last) := by
  have hsplit : (Text.split '.' name.toList).reverse =
      last :: (Text.split '.' before).reverse := by
    rw [hname, Text.split_eq_splitOn, Text.split_eq_splitOn, List.splitOn_append_cons_self,
      List.splitOn_eq_singleton hlast, List.reverse_append]
    rfl
  rw [extension?, hsplit]
  by_cases hbefore : before = []
  · rw [hbefore] at hname ⊢
    rw [undotted?, hname]
    rfl
  · have hjoined : ['.'].intercalate (Text.split '.' before) = before := by
      rw [Text.split_eq_splitOn, List.intercalate_splitOn]
    split
    next hone => simp [Text.split_eq_splitOn, List.splitOn_ne_nil] at hone
    next hempty =>
      have hpieces : Text.split '.' before = [[]] := by
        simpa using congrArg List.reverse (List.cons.inj hempty).2
      rw [hpieces] at hjoined
      exact absurd hjoined.symm hbefore
    next hcons =>
      rw [(List.cons.inj hcons).1]
      rfl
    next hnil => cases hnil

theorem ending_of_not_dot {name : String} (hname : '.' ∉ name.toList) :
    (extension? name).or (undotted? name) = none := by
  have hundotted : undotted? name = none := by
    rw [undotted?]
    split
    · rename_i hdot
      rw [hdot] at hname
      exact absurd List.mem_cons_self hname
    · rfl
  rw [hundotted, extension?, Text.split_eq_splitOn, List.splitOn_eq_singleton hname]
  rfl

theorem isCompiled_iff (name : String) : isCompiled name = true ↔ HasEnding name := by
  rw [isCompiled]
  constructor
  · intro h
    by_cases hdot : '.' ∈ name.toList
    · obtain ⟨last, before, hname, hlast⟩ := List.eq_append_cons_of_mem (List.mem_reverse.2 hdot)
      replace hname : name.toList = before.reverse ++ '.' :: last.reverse := by
        simpa using congrArg List.reverse hname
      rw [ending_of_dot hname (mt List.mem_reverse.1 hlast), Option.any_some,
        List.contains_iff_mem] at h
      have hending : ∀ ending e : String, ending.toList = '.' :: e.toList →
          String.ofList last.reverse = e → ending.toList <:+ name.toList := by
        rintro ending e hdotted rfl
        rw [hname, hdotted, String.toList_ofList]
        exact List.suffix_append _ _
      simp only [extensions, List.mem_cons, List.not_mem_nil, or_false] at h
      obtain h | h | h | h := h
      · exact ⟨".js", by decide, hending ".js" "js" (by decide) h⟩
      · exact ⟨".jsx", by decide, hending ".jsx" "jsx" (by decide) h⟩
      · exact ⟨".ts", by decide, hending ".ts" "ts" (by decide) h⟩
      · exact ⟨".tsx", by decide, hending ".tsx" "tsx" (by decide) h⟩
    · rw [ending_of_not_dot hdot] at h
      cases h
  · rintro ⟨ending, hmem, before, hname⟩
    simp only [List.mem_cons, List.not_mem_nil, or_false] at hmem
    obtain rfl | rfl | rfl | rfl := hmem <;>
      rw [ending_of_dot hname.symm (by decide)] <;> decide

end Scanned

/-! ### The order of paths -/

namespace Path

def Component.rank : Component → Nat
  | .root => 0
  | .current => 1
  | .parent => 2
  | .name _ => 3

/-- The order of steps: the root, `.`, `..`, then names by their texts. -/
inductive Component.Before : Component → Component → Prop
  | rank {c c' : Component} (h : c.rank < c'.rank) : Before c c'
  | name {s s' : String} (h : s < s') : Before (.name s) (.name s')

/-- Paths in the order of the first step in which they differ. -/
def Before (p q : Path) : Prop :=
  List.Lex Component.Before p.components q.components

instance : Std.Asymm Component.Before where
  asymm c c' h h' := by
    cases h with
    | rank h =>
      cases h' with
      | rank h' => exact Nat.lt_asymm h h'
      | name _ => exact Nat.lt_irrefl _ h
    | name h =>
      cases h' with
      | rank h' => exact Nat.lt_irrefl _ h'
      | name h' => exact String.lt_asymm h h'

theorem Before.asymm {p q : Path} (h : p.Before q) : ¬q.Before p :=
  Std.Asymm.asymm (r := List.Lex Component.Before) _ _ h

/-! ### Steps below a path -/

section Down

variable {p q : Path} {name : String} {names : List String}

theorem isPiece_name (h : IsName name) : (Component.name name).IsPiece := by
  refine ⟨h.slash, ?_⟩
  have hne : ¬(name.toList = [] ∨ name.toList = ['.']) := by
    rintro (he | he)
    · exact h.ne_empty (String.toList_inj.1 he)
    · exact h.ne_dot (String.toList_inj.1 he)
  have hdots : name.toList ≠ ['.', '.'] := fun he => h.ne_dots (String.toList_inj.1 he)
  rw [Component.text, Component.ofPiece?, if_neg hne, if_neg hdots, String.ofList_toList]

/-- What stands behind a slash adds its steps to those of the path before it. -/
theorem components_append_slash {cs : List Char} (hp : p.text ≠ "")
    (hq : q.text.toList = p.text.toList ++ '/' :: cs) :
    q.components = p.components ++ (Text.split '/' cs).filterMap Component.ofPiece? := by
  obtain ⟨c, start, hstart⟩ :=
    List.exists_cons_of_ne_nil fun he => hp (String.toList_inj.1 he)
  rw [hstart, List.cons_append] at hq
  by_cases hc : c = '/'
  · subst hc
    rw [components_of_slash hstart, components_of_slash hq, Text.split_eq_splitOn,
      List.splitOn_append_cons_self, List.filterMap_append]
    simp only [Text.split_eq_splitOn, List.cons_append]
  · have hsplit : Text.split '/' (c :: (start ++ '/' :: cs)) =
        Text.split '/' (c :: start) ++ Text.split '/' cs := by
      simp only [Text.split_eq_splitOn]
      exact List.splitOn_append_cons_self (c :: start) cs
    obtain ⟨first, pieces, hpieces⟩ :=
      List.exists_cons_of_ne_nil (List.splitOn_ne_nil '/' (c :: start))
    rw [← Text.split_eq_splitOn] at hpieces
    rw [hpieces, List.cons_append] at hsplit
    rw [components, components, hq, hstart]
    by_cases hdot : first = ['.']
    · subst hdot
      simp [hc, hsplit, hpieces]
    · cases hfirst : Component.ofPiece? first with
      | none => simp [hc, hsplit, hpieces, hdot, hfirst]
      | some step => simp [hc, hsplit, hpieces, hdot, hfirst]

theorem components_join_name (hp : p.text ≠ "") (h : IsName name) :
    (p.join ⟨name⟩).components = p.components ++ [.name name] := by
  have hname : (Text.split '/' name.toList).filterMap Component.ofPiece? = [.name name] := by
    have hof : Component.ofPiece? name.toList = some (.name name) := (isPiece_name h).of_text
    rw [Text.split_eq_splitOn, List.splitOn_eq_singleton h.slash, List.filterMap_cons, hof]
    rfl
  rw [join, isAbsolute_name h, if_neg Bool.false_ne_true]
  by_cases hlast : p.text.toList.getLast? = some '/'
  · rw [if_pos (.inr hlast)]
    obtain ⟨start, hstart⟩ := List.getLast?_eq_some_iff.1 hlast
    have hjoined : (p.text ++ name).toList = start ++ '/' :: name.toList := by
      rw [String.toList_append, hstart, List.append_assoc]
      rfl
    by_cases hnil : start = []
    · subst hnil
      rw [components_of_slash hstart, components_of_slash hjoined, hname]
      rfl
    · have hne : String.ofList start ≠ "" := fun he =>
        hnil (by rw [← @String.toList_ofList start, he]; rfl)
      rw [← @String.toList_ofList start] at hstart hjoined
      rw [@components_append_slash ⟨String.ofList start⟩ p [] hne hstart,
        @components_append_slash ⟨String.ofList start⟩ ⟨p.text ++ name⟩ _ hne hjoined, hname]
      simp [Text.split, Component.ofPiece?]
  · rw [if_neg (not_or.2 ⟨hp, hlast⟩), @components_append_slash p _ name.toList hp, hname]
    simp only [String.toList_append, List.append_assoc]
    rfl

theorem components_down (hp : p.text ≠ "") (h : ∀ n ∈ names, IsName n) :
    (p.down names).components = p.components ++ names.map Component.name := by
  induction names generalizing p with
  | nil => exact (List.append_nil _).symm
  | cons name names ih =>
    obtain ⟨hname, hnames⟩ := List.forall_mem_cons.1 h
    have hdown := ih (text_join_ne hp hname) hnames
    rw [components_join_name hp hname, List.append_assoc] at hdown
    exact hdown

theorem isPiece_of_mem_names (h : ∀ n ∈ names, IsName n) :
    ∀ c ∈ names.map Component.name, c.IsPiece := by
  intro c hc
  obtain ⟨n, hn, rfl⟩ := List.mem_map.1 hc
  exact isPiece_name (h n hn)

theorem text_names (names : List String) :
    (names.map Component.name).map Component.text = names := by
  rw [List.map_map]
  exact List.map_id names

/-- The way down is what a path below has on top of the path it is below. -/
theorem toSlash_stripPrefix?_down (hp : p.text ≠ "") (h : ∀ n ∈ names, IsName n) :
    ((p.down names).stripPrefix? p).map toSlash = some ("/".intercalate names) := by
  have hrest : p.components.isPrefixOf? (p.down names).components =
      some (names.map Component.name) :=
    List.isPrefixOf?_eq_some_iff_append_eq.2 (components_down hp h).symm
  rw [stripPrefix?, hrest, Option.map_some, Option.map_some, toSlash_eq,
    components_ofComponents (isPiece_of_mem_names h), text_names]

theorem join_join_name {rest : String} (hp : p.text ≠ "") (h : IsName name)
    (hrest : isAbsolute ⟨rest⟩ = false) :
    (p.join ⟨name⟩).join ⟨rest⟩ = p.join ⟨name ++ "/" ++ rest⟩ := by
  have hlast : (p.join ⟨name⟩).text.toList.getLast? ≠ some '/' :=
    @getLast?_down p [name] hp (List.forall_mem_singleton.2 h) (List.cons_ne_nil _ _)
  have hrelative : isAbsolute ⟨name ++ "/" ++ rest⟩ = false := by
    obtain ⟨c, cs, hcs⟩ :=
      List.exists_cons_of_ne_nil fun he => h.ne_empty (String.toList_inj.1 he)
    have hname := isAbsolute_name h
    simp only [isAbsolute, String.toList_append, hcs, List.cons_append, List.head?_cons] at hname ⊢
    exact hname
  have houter : (p.join ⟨name⟩).join ⟨rest⟩ = ⟨(p.join ⟨name⟩).text ++ "/" ++ rest⟩ := by
    rw [join, hrest, if_neg Bool.false_ne_true, if_neg (not_or.2 ⟨text_join_ne hp h, hlast⟩)]
  rw [houter, join, join, isAbsolute_name h, hrelative, if_neg Bool.false_ne_true,
    if_neg Bool.false_ne_true]
  split <;> simp only [String.append_assoc]

theorem join_intercalate (hp : p.text ≠ "") (h : ∀ n ∈ names, IsName n) (hne : names ≠ []) :
    p.join ⟨"/".intercalate names⟩ = p.down names := by
  induction names generalizing p with
  | nil => exact absurd rfl hne
  | cons name names ih =>
    obtain ⟨hname, hnames⟩ := List.forall_mem_cons.1 h
    by_cases hnil : names = []
    · subst hnil
      rfl
    · have hrelative : isAbsolute ⟨"/".intercalate names⟩ = false := by
        have hpieces := isAbsolute_intercalate (isPiece_of_mem_names hnames)
        rwa [text_names] at hpieces
      rw [String.intercalate_cons_of_ne_nil hnil, ← join_join_name hp hname hrelative,
        ih (text_join_ne hp hname) hnames hnil]
      rfl

end Down

end Path

/-! ### Sorting -/

namespace Scanned

variable {names names' : List String}

theorem precedes_iff : precedes names names' = true ↔
    names = names' ∨ List.Lex (· < ·) names names' := by
  induction names generalizing names' with
  | nil =>
    cases names' with
    | nil => simp [precedes]
    | cons name' names' => exact iff_of_true rfl (.inr .nil)
  | cons name names ih =>
    cases names' with
    | nil => simp [precedes]
    | cons name' names' =>
      rw [precedes, List.cons.injEq, List.cons_lex_cons_iff]
      by_cases h : name = name'
      · rw [if_pos h, ih]
        simp [h]
      · rw [if_neg h, decide_eq_true_iff]
        simp [h]

theorem pairwise_mergeSort_precedes (found : List (List String)) :
    (found.mergeSort precedes).Pairwise fun a b => precedes a b = true := by
  apply List.pairwise_mergeSort
  · intro a b c hab hbc
    obtain rfl | hab := precedes_iff.1 hab
    · exact hbc
    · obtain rfl | hbc := precedes_iff.1 hbc
      · exact precedes_iff.2 (.inr hab)
      · exact precedes_iff.2 (.inr (List.lex_trans String.lt_trans hab hbc))
  · intro a b
    rw [Bool.or_eq_true, precedes_iff, precedes_iff]
    by_cases hab : List.Lex (· < ·) a b
    · exact .inl (.inr hab)
    · by_cases hba : List.Lex (· < ·) b a
      · exact .inr (.inr hba)
      · exact .inl (.inl (Std.Trichotomous.trichotomous a b hab hba))

theorem before_of_lex {p : Path} (hp : p.text ≠ "") (hnames : ∀ n ∈ names, IsName n)
    (hnames' : ∀ n ∈ names', IsName n) (h : List.Lex (· < ·) names names') :
    (p.down names).Before (p.down names') := by
  rw [Path.Before, Path.components_down hp hnames, Path.components_down hp hnames']
  apply List.Lex.append_left
  clear hnames hnames'
  induction h with
  | nil => exact .nil
  | cons _ ih => exact .cons ih
  | rel h => exact .rel (.name h)

theorem mem_ofEntries_iff {root : Path} {entries : List Below} {f : Scanned} :
    f ∈ ofEntries root entries ↔ ∃ b ∈ entries, b.isFile = true ∧
      (∃ name, b.names.getLast? = some name ∧ HasEnding name) ∧ f = below root b.names := by
  have hkept : ∀ b : Below, (b.isFile && b.names.getLast?.any isCompiled) = true ↔
      b.isFile = true ∧ ∃ name, b.names.getLast? = some name ∧ HasEnding name := by
    intro b
    simp only [Bool.and_eq_true, Option.any_eq_true, isCompiled_iff]
  constructor
  · intro h
    obtain ⟨names, hnames, rfl⟩ := List.mem_map.1 h
    obtain ⟨b, hb, rfl⟩ := List.mem_map.1 ((List.mergeSort_perm _ _).mem_iff.1 hnames)
    obtain ⟨hb, hfile⟩ := List.mem_filter.1 hb
    obtain ⟨hfile, hending⟩ := (hkept b).1 hfile
    exact ⟨b, hb, hfile, hending, rfl⟩
  · rintro ⟨b, hb, hfile, hending, rfl⟩
    apply List.mem_map_of_mem
    apply (List.mergeSort_perm _ _).mem_iff.2
    exact List.mem_map_of_mem (List.mem_filter.2 ⟨hb, (hkept b).2 ⟨hfile, hending⟩⟩)

end Scanned

/-! ### Walking a tree in any order -/

namespace Disk

/-- The answers of a system whose walks of directories give `walks` and come to no halt. -/
def answerWalking (d : Disk) (walks : Path → List Below) : (op : FileOp) → op.Answer × Disk
  | .entries root => (.ok (walks root), d)
  | op => d.answer op

end Disk

def Script.runWalking {α : Type} (walks : Path → List Below) : Script α → Disk → α × Disk
  | .done a, d => (a, d)
  | .perform op next, d =>
    (next (d.answerWalking walks op).1).runWalking walks (d.answerWalking walks op).2

namespace Disk

/-- The entries below a root, each once and in any order. Links are not followed. -/
structure Walks (d : Disk) (root : Path) (found : List Below) : Prop where
  nodup : (found.map Below.names).Nodup
  mem_iff : ∀ b, b ∈ found ↔ ∃ base e, d.locate root = .ok base ∧ b.names ≠ [] ∧
    d.get? (base ++ b.names) = some e ∧ (b.isFile = true ↔ ∃ bytes, e = .file bytes)

/-- Names lead from a root down to a file with the name of a compiled one. -/
def IsCompiled (d : Disk) (root : Path) (names : List String) : Prop :=
  ∃ base bytes name, d.locate root = .ok base ∧ d.get? (base ++ names) = some (.file bytes) ∧
    names.getLast? = some name ∧ Scanned.HasEnding name

/-- The compiled files below a root in the order of their paths. A key is what the path of a file
has on top of the root. A path that is not too long leads to its file. -/
structure IsScan (d : Disk) (root : Path) (files : List Scanned) : Prop where
  mem_iff : ∀ f, f ∈ files ↔
    ∃ names, d.IsCompiled root names ∧ f = ⟨root.down names, "/".intercalate names⟩
  increasing : files.Pairwise fun f g => f.path.Before g.path
  nodup_keys : (files.map Scanned.key).Nodup
  key_eq : ∀ f ∈ files, (f.path.stripPrefix? root).map Path.toSlash = some f.key
  join_key : ∀ f ∈ files, root.join ⟨f.key⟩ = f.path
  leads : ∀ f ∈ files, f.path.fits = true → ∃ base names, d.locate root = .ok base ∧
    f = ⟨root.down names, "/".intercalate names⟩ ∧ d.locate f.path = .ok (base ++ names)

section Walks

variable {d : Disk} {root : Path} {found found' : List Below} {files files' : List Scanned}

theorem IsCompiled.names_ne {names : List String} (h : d.IsCompiled root names) : names ≠ [] := by
  obtain ⟨base, bytes, name, -, -, hlast, -⟩ := h
  rintro rfl
  cases hlast

theorem Walks.perm (h : d.Walks root found) (hperm : found.Perm found') : d.Walks root found' where
  nodup := (hperm.map Below.names).nodup_iff.1 h.nodup
  mem_iff b := hperm.mem_iff.symm.trans (h.mem_iff b)

theorem get?_eq_some_iff {l : Location} {e : Entry} (hl : l ≠ []) :
    d.get? l = some e ↔ (l, e) ∈ d.entries := by
  constructor
  · intro h
    obtain ⟨⟨k, e'⟩, hk, rfl⟩ := List.mem_map.1 (mem_keys_of_get? h hl)
    rw [get?, if_neg hl, Keyed.lookup_of_mem d.nodup hk] at h
    rwa [Option.some.inj h] at hk
  · intro h
    rw [get?, if_neg hl, Keyed.lookup_of_mem d.nodup h]

theorem mem_inside_iff {x : List String × Entry} :
    x ∈ d.inside root ↔
      ∃ base, d.locate root = .ok base ∧ x.1 ≠ [] ∧ d.get? (base ++ x.1) = some x.2 := by
  constructor
  · exact get?_of_mem_inside
  · rintro ⟨base, hbase, hne, he⟩
    have hmem := (get?_eq_some_iff (by simp [hne])).1 he
    have hrest : base.isPrefixOf? (base ++ x.1) = some x.1 :=
      List.isPrefixOf?_eq_some_iff_append_eq.2 rfl
    obtain ⟨names, e⟩ := x
    obtain ⟨name, names, rfl⟩ := List.exists_cons_of_ne_nil hne
    rw [inside, hbase]
    refine List.mem_filterMap.2 ⟨_, hmem, ?_⟩
    dsimp only at hrest ⊢
    rw [hrest]

theorem walks_listing (d : Disk) (root : Path) : d.Walks root (d.listing root) where
  nodup := names_nodup_listing d root
  mem_iff b := by
    have hfile : ∀ e : Entry, e.isFile = true ↔ ∃ bytes, e = .file bytes := by
      intro e
      cases e <;> simp [Entry.isFile]
    constructor
    · intro hb
      obtain ⟨⟨names, e⟩, hx, rfl⟩ := List.mem_map.1 hb
      obtain ⟨base, hbase, hne, he⟩ := mem_inside_iff.1 hx
      exact ⟨base, e, hbase, hne, he, hfile e⟩
    · rintro ⟨base, e, hbase, hne, he, hkind⟩
      obtain ⟨names, isFile⟩ := b
      refine List.mem_map.2 ⟨(names, e), mem_inside_iff.2 ⟨base, hbase, hne, he⟩, ?_⟩
      have hsame : e.isFile = isFile := Bool.eq_iff_iff.2 ((hfile e).trans hkind.symm)
      rw [hsame]

theorem IsScan.unique (h : d.IsScan root files) (h' : d.IsScan root files') : files = files' := by
  have hnodup : ∀ {files : List Scanned}, d.IsScan root files → files.Nodup := by
    intro files h
    apply h.increasing.imp
    rintro f _ hbefore rfl
    exact hbefore.asymm hbefore
  apply List.Perm.eq_of_pairwise _ h.increasing h'.increasing
  · apply (List.perm_ext_iff_of_nodup (hnodup h) (hnodup h')).2
    intro f
    rw [h.mem_iff, h'.mem_iff]
  · intro f g _ _ hfg hgf
    exact absurd hgf hfg.asymm

theorem Walks.names (h : d.Walks root found) (hd : d.IsTree) {b : Below} (hb : b ∈ found) :
    root.text ≠ "" ∧ b.names ≠ [] ∧ ∀ n ∈ b.names, IsName n := by
  obtain ⟨base, e, hbase, hne, he, -⟩ := (h.mem_iff b).1 hb
  refine ⟨(locate_eq_ok_iff.1 hbase).2.1, hne, fun n hn => ?_⟩
  apply hd.names (base ++ b.names)
  · exact mem_keys_of_get? he (by simp [hne])
  · exact List.mem_append_right _ hn

theorem Walks.mem_ofEntries_iff (h : d.Walks root found) {f : Scanned} :
    f ∈ Scanned.ofEntries root found ↔
      ∃ names, d.IsCompiled root names ∧ f = ⟨root.down names, "/".intercalate names⟩ := by
  have hbelow : ∀ names, Scanned.below root names = ⟨root.down names, "/".intercalate names⟩ :=
    fun names => congrArg _ (Path.joined_toUTF8 names)
  rw [Scanned.mem_ofEntries_iff]
  simp only [hbelow]
  constructor
  · rintro ⟨b, hb, hfile, ⟨name, hlast, hending⟩, rfl⟩
    obtain ⟨base, e, hbase, -, he, hkind⟩ := (h.mem_iff b).1 hb
    obtain ⟨bytes, rfl⟩ := hkind.1 hfile
    exact ⟨b.names, ⟨base, bytes, name, hbase, he, hlast, hending⟩, rfl⟩
  · rintro ⟨names, ⟨base, bytes, name, hbase, hfile, hlast, hending⟩, rfl⟩
    have hne := IsCompiled.names_ne ⟨base, bytes, name, hbase, hfile, hlast, hending⟩
    have hmem : (⟨names, true⟩ : Below) ∈ found :=
      (h.mem_iff _).2 ⟨base, .file bytes, hbase, hne, hfile, iff_of_true rfl ⟨bytes, rfl⟩⟩
    exact ⟨_, hmem, rfl, ⟨name, hlast, hending⟩, rfl⟩

theorem Walks.increasing (h : d.Walks root found) (hd : d.IsTree) :
    (Scanned.ofEntries root found).Pairwise fun f g => f.path.Before g.path := by
  let kept := (found.filter fun b => b.isFile && b.names.getLast?.any Scanned.isCompiled).map
    Below.names
  have hperm := List.mergeSort_perm kept Scanned.precedes
  have hnodup : kept.Nodup := h.nodup.sublist (List.filter_sublist.map _)
  have hsorted := (Scanned.pairwise_mergeSort_precedes kept).and (hperm.nodup_iff.2 hnodup)
  have hnames : ∀ names ∈ kept.mergeSort Scanned.precedes,
      root.text ≠ "" ∧ ∀ n ∈ names, IsName n := by
    intro names hnames
    obtain ⟨b, hb, rfl⟩ := List.mem_map.1 (hperm.mem_iff.1 hnames)
    obtain ⟨hroot, -, hproper⟩ := h.names hd (List.mem_filter.1 hb).1
    exact ⟨hroot, hproper⟩
  apply List.pairwise_map.2
  apply hsorted.imp_of_mem
  intro names names' hmem hmem' hle
  obtain heq | hlex := Scanned.precedes_iff.1 hle.1
  · exact absurd heq hle.2
  · exact Scanned.before_of_lex (hnames _ hmem).1 (hnames _ hmem).2 (hnames _ hmem').2 hlex

theorem Walks.isScan (h : d.Walks root found) (hd : d.IsTree) :
    d.IsScan root (Scanned.ofEntries root found) := by
  have hproper : ∀ {names}, d.IsCompiled root names →
      root.text ≠ "" ∧ names ≠ [] ∧ ∀ n ∈ names, IsName n := by
    rintro names ⟨base, bytes, name, hbase, hfile, hlast, hending⟩
    have hne := IsCompiled.names_ne ⟨base, bytes, name, hbase, hfile, hlast, hending⟩
    exact h.names hd ((h.mem_iff ⟨names, true⟩).2
      ⟨base, .file bytes, hbase, hne, hfile, iff_of_true rfl ⟨bytes, rfl⟩⟩)
  have hjoin : ∀ f ∈ Scanned.ofEntries root found, root.join ⟨f.key⟩ = f.path := by
    intro f hf
    obtain ⟨names, hcompiled, rfl⟩ := h.mem_ofEntries_iff.1 hf
    obtain ⟨hroot, hne, hnames⟩ := hproper hcompiled
    exact Path.join_intercalate hroot hnames hne
  refine ⟨fun _ => h.mem_ofEntries_iff, h.increasing hd, ?_, ?_, hjoin, ?_⟩
  · -- files with the same key would have the same path
    apply List.pairwise_map.2
    apply (h.increasing hd).imp_of_mem
    intro f g hf hg hbefore hkey
    have hpath : f.path = g.path := by rw [← hjoin f hf, ← hjoin g hg, hkey]
    rw [hpath] at hbefore
    exact hbefore.asymm hbefore
  · intro f hf
    obtain ⟨names, hcompiled, rfl⟩ := h.mem_ofEntries_iff.1 hf
    obtain ⟨hroot, -, hnames⟩ := hproper hcompiled
    exact Path.toSlash_stripPrefix?_down hroot hnames
  · intro f hf hfits
    obtain ⟨names, hcompiled, rfl⟩ := h.mem_ofEntries_iff.1 hf
    have hne := hcompiled.names_ne
    obtain ⟨base, bytes, -, hbase, hfile, -⟩ := hcompiled
    refine ⟨base, names, hbase, rfl, ?_⟩
    rw [locate_down hd hbase hne hfile, if_pos hfits]

end Walks

theorem scan_runWalking {d : Disk} {root : Path} {walks : Path → List Below}
    (hroot : d.kind? root = some .directory) (hinput : Files.isInput root = false) :
    (Files.scan root).run.runWalking walks d =
      (.ok (Scanned.ofEntries root (walks root)), d) := by
  rw [Files.scan, if_neg (by simp [hinput])]
  have hwalk : ∀ b : Bool, b = true →
      (ExceptT.run (if b = true then
        (do return Scanned.ofEntries root (← Attempt.entries root) : Attempt (List Scanned))
      else return [])).runWalking walks d = (.ok (Scanned.ofEntries root (walks root)), d) := by
    rintro b rfl
    rfl
  exact hwalk (decide (d.kind? root = some .directory)) (decide_eq_true hroot)

/-- Below a directory a scan finds all the compiled files and nothing else, in the order of their
paths, whatever order they are walked in. Names are text here, and the path of the directory does
not stand for standard input. -/
theorem exists_isScan {d : Disk} {root : Path} (hd : d.IsTree)
    (hroot : d.kind? root = some .directory) (hinput : Files.isInput root = false) :
    ∃ files, d.IsScan root files ∧ (∀ found, d.scan root = .ok found → found = files) ∧
      ∀ walks : Path → List Below, d.Walks root (walks root) →
        (Files.scan root).run.runWalking walks d = (.ok files, d) := by
  have hscan := (d.walks_listing root).isScan hd
  refine ⟨_, hscan, ?_, ?_⟩
  · intro found hfound
    rw [scan, scan_on_eq, if_neg (by simp [hinput]), if_pos hroot, below] at hfound
    cases hhalt : d.halt? root with
    | none =>
      rw [hhalt] at hfound
      exact (Except.ok.inj hfound).symm
    | some halt =>
      rw [hhalt] at hfound
      cases hfound
  · intro walks hwalks
    rw [scan_runWalking hroot hinput, (hwalks.isScan hd).unique hscan]

end Disk

/-! ### A tree where few entries count -/

/-- A link and a directory have the names of compiled files, and a map has one within its name. -/
def compiledTree : Disk where
  workingDirectory := ["w"]
  entries :=
    [(["w"], .directory), (["w", "dist"], .directory), (["w", "dist", "c.js"], .link ⟨"a.js"⟩),
      (["w", "dist", "a.js"], .file .empty), (["w", "dist", "a"], .directory),
      (["w", "dist", "a", "b.js"], .file .empty), (["w", "dist", "a.js.map"], .file .empty),
      (["w", "dist", ".js"], .file .empty), (["w", "dist", "d.js"], .directory)]
  nodup := by decide

def compiledWalk : List Below :=
  [⟨["a"], false⟩, ⟨["a.js.map"], true⟩, ⟨[".js"], true⟩, ⟨["a", "b.js"], true⟩,
    ⟨["d.js"], false⟩, ⟨["a.js"], true⟩, ⟨["c.js"], false⟩]

theorem exists_isScan_compiledTree :
    (compiledTree.IsTree ∧ compiledTree.kind? ⟨"/w/dist"⟩ = some .directory ∧
      Files.isInput ⟨"/w/dist"⟩ = false) ∧
    compiledTree.Walks ⟨"/w/dist"⟩ compiledWalk ∧
    ∃ files, compiledTree.IsScan ⟨"/w/dist"⟩ files ∧
      compiledTree.scan ⟨"/w/dist"⟩ = .ok files ∧
      (Files.scan ⟨"/w/dist"⟩).run.runWalking (fun _ => compiledWalk) compiledTree =
        (.ok files, compiledTree) ∧
      files.map Scanned.key = [".js", "a/b.js", "a.js"] := by
  have htree : compiledTree.IsTree := by decide
  have hlocate : compiledTree.locate ⟨"/w/dist"⟩ = .ok ["w", "dist"] :=
    Disk.locate_of_names ["w", "dist"] (by decide) (by decide)
      (Disk.walk_down htree _ (by decide) rfl (by simp))
  have hkind : compiledTree.kind? ⟨"/w/dist"⟩ = some .directory := by
    rw [Disk.kind?, hlocate]
    rfl
  have hinput : Files.isInput ⟨"/w/dist"⟩ = false := by decide +kernel
  have hinside : compiledTree.inside ⟨"/w/dist"⟩ =
      [(["c.js"], .link ⟨"a.js"⟩), (["a.js"], .file .empty), (["a"], .directory),
        (["a", "b.js"], .file .empty), (["a.js.map"], .file .empty), ([".js"], .file .empty),
        (["d.js"], .directory)] := by
    rw [Disk.inside, hlocate]
    rfl
  have hwalks : compiledTree.Walks ⟨"/w/dist"⟩ compiledWalk := by
    apply (compiledTree.walks_listing ⟨"/w/dist"⟩).perm
    rw [Disk.listing, hinside]
    decide
  obtain ⟨files, hscan, hunique, hwalked⟩ := Disk.exists_isScan htree hkind hinput
  have hrun := hwalked (fun _ => compiledWalk) hwalks
  have hopen : compiledTree.halt? ⟨"/w/dist"⟩ = none := by
    rw [Disk.halt?, hinside]
    decide +kernel
  have hfound : compiledTree.scan ⟨"/w/dist"⟩ = .ok files := by
    obtain ⟨found, hfound⟩ : ∃ found, compiledTree.scan ⟨"/w/dist"⟩ = .ok found := by
      rw [Disk.scan, Disk.scan_on_eq, if_neg (by simp [hinput]), if_pos hkind, Disk.below, hopen]
      exact ⟨_, rfl⟩
    rw [hfound, hunique found hfound]
  refine ⟨⟨htree, hkind, hinput⟩, hwalks, files, hscan, hfound, hrun, ?_⟩
  have hkept : (compiledWalk.filter fun b =>
      b.isFile && b.names.getLast?.any Scanned.isCompiled).map Below.names =
      [[".js"], ["a", "b.js"], ["a.js"]] := by
    decide +kernel
  have hsorted : [[".js"], ["a", "b.js"], ["a.js"]].mergeSort Scanned.precedes =
      [[".js"], ["a", "b.js"], ["a.js"]] :=
    List.mergeSort_of_pairwise (by decide +kernel)
  have hfiles : files = Scanned.ofEntries ⟨"/w/dist"⟩ compiledWalk :=
    Except.ok.inj (congrArg Prod.fst (hrun.symm.trans (Disk.scan_runWalking hkind hinput)))
  rw [hfiles, Scanned.ofEntries, hkept, hsorted]
  decide +kernel

/-- A directory whose path is that of standard input. -/
def inputTree : Disk where
  workingDirectory := ["w"]
  entries := [(["w"], .directory), (["w", "-"], .directory), (["w", "-", "a.js"], .file .empty)]
  nodup := by decide

/-- Two names of files that are no text have one key, which names neither of them; and nothing is
found below the directory whose path is that of standard input. -/
theorem not_exists_isScan :
    (let first : ByteArray := ⟨#[0xfe]⟩ ++ ".js".toUTF8
      let second : ByteArray := ⟨#[0xff]⟩ ++ ".js".toUTF8
      first ≠ second ∧ Path.joined [first] = Path.joined [second] ∧
        (Path.joined [first]).toUTF8 ≠ first ∧ (Path.joined [second]).toUTF8 ≠ second) ∧
    ¬∀ (d : Disk) (root : Path), d.IsTree → d.kind? root = some .directory →
      ∃ files, d.scan root = .ok files ∧ d.IsScan root files := by
  refine ⟨by decide +kernel, fun h => ?_⟩
  have hlocate : inputTree.locate ⟨"-"⟩ = .ok ["w", "-"] :=
    Disk.locate_of_names ["-"] (by decide) (by decide)
      (Disk.walk_down (by decide) _ (by decide) rfl (by simp))
  have hkind : inputTree.kind? ⟨"-"⟩ = some .directory := by
    rw [Disk.kind?, hlocate]
    rfl
  obtain ⟨files, hfiles, hscan⟩ := h inputTree ⟨"-"⟩ (by decide) hkind
  have hempty : inputTree.scan ⟨"-"⟩ = .ok [] := by
    rw [Disk.scan, Disk.scan_on_eq, if_pos (by decide +kernel)]
  obtain rfl := Except.ok.inj (hfiles.symm.trans hempty)
  have hcompiled : inputTree.IsCompiled ⟨"-"⟩ ["a.js"] :=
    ⟨["w", "-"], .empty, "a.js", hlocate, rfl, rfl, ".js", by decide, by decide⟩
  exact absurd ((hscan.mem_iff _).2 ⟨_, hcompiled, rfl⟩) List.not_mem_nil

end Unalias
