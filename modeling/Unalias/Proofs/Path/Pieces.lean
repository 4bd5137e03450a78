import Unalias.Files.Disk

/-!
The pieces of a path between its slashes, and those of a path that names were joined onto: names
come behind the pieces that are there, and are read back from the text of the path.
-/

namespace Unalias

theorem Text.split_eq_splitOn (c : Char) (cs : List Char) : Text.split c cs = cs.splitOn c := by
  induction cs with
  | nil => rfl
  | cons a cs ih =>
    rw [Text.split, List.splitOn_cons_eq_if_modifyHead, ih]
    by_cases h : a = c
    · rw [if_pos h, if_pos (beq_iff_eq.2 h)]
    · rw [if_neg h, if_neg (fun he => h (beq_iff_eq.1 he))]
      obtain ⟨p, ps, hp⟩ := List.exists_cons_of_ne_nil (List.splitOn_ne_nil c cs)
      rw [hp]
      rfl

/-- What the system takes as the name of an entry. -/
structure IsName (name : String) : Prop where
  ne_empty : name ≠ ""
  ne_dot : name ≠ "."
  ne_dots : name ≠ ".."
  slash : '/' ∉ name.toList
  nul : '\x00' ∉ name.toList
  short : name.utf8ByteSize ≤ Disk.maxName

instance : DecidablePred IsName := fun name =>
  decidable_of_iff
    (name ≠ "" ∧ name ≠ "." ∧ name ≠ ".." ∧ '/' ∉ name.toList ∧ '\x00' ∉ name.toList ∧
      name.utf8ByteSize ≤ Disk.maxName)
    ⟨fun ⟨h₁, h₂, h₃, h₄, h₅, h₆⟩ => ⟨h₁, h₂, h₃, h₄, h₅, h₆⟩,
      fun h => ⟨h.1, h.2, h.3, h.4, h.5, h.6⟩⟩

theorem intercalate_injective {names names' : List String} (hnames : ∀ n ∈ names, IsName n)
    (hnames' : ∀ n ∈ names', IsName n) (hne : names ≠ []) (hne' : names' ≠ [])
    (h : "/".intercalate names = "/".intercalate names') : names = names' := by
  have hslash : ∀ {ns : List String}, (∀ n ∈ ns, IsName n) →
      ∀ cs ∈ ns.map String.toList, '/' ∉ cs := by
    intro ns hns cs hcs
    obtain ⟨n, hn, rfl⟩ := List.mem_map.1 hcs
    exact (hns n hn).slash
  have hlists := congrArg (fun s => s.toList.splitOn '/') h
  have hsep : "/".toList = ['/'] := rfl
  simp only [String.toList_intercalate, hsep] at hlists
  rw [List.splitOn_intercalate '/' (hslash hnames) (mt List.map_eq_nil_iff.1 hne),
    List.splitOn_intercalate '/' (hslash hnames') (mt List.map_eq_nil_iff.1 hne')] at hlists
  exact (List.map_inj_right fun _ _ => String.toList_inj.1).1 hlists

namespace Path

def pieces (p : Path) : List (List Char) :=
  (p.text.toList.splitOn '/').filter (· ≠ [])

theorem isAbsolute_name {name : String} (h : IsName name) : isAbsolute ⟨name⟩ = false := by
  rw [isAbsolute]
  apply decide_eq_false
  intro he
  apply h.slash
  exact List.mem_of_head? he

/-- A name joined onto a path: the text of the path, a slash if there is none at its end, the
name. -/
theorem join_name {p : Path} {name : String} (hp : p.text ≠ "") (h : IsName name) :
    ∃ start, (p.join ⟨name⟩).text.toList = start ++ '/' :: name.toList ∧
      p.pieces = (start.splitOn '/').filter (· ≠ []) ∧
      ((p.join ⟨name⟩).text.toList.head? = p.text.toList.head?) := by
  rw [join, isAbsolute_name h, if_neg Bool.false_ne_true]
  by_cases hlast : p.text.toList.getLast? = some '/'
  · obtain ⟨start, hstart⟩ := List.getLast?_eq_some_iff.1 hlast
    refine ⟨start, ?_, ?_, ?_⟩
    · rw [if_pos (.inr hlast), String.toList_append, hstart]
      simp only [List.append_assoc, List.singleton_append]
    · rw [pieces, hstart, List.splitOn_append_cons_self, List.filter_append]
      simp
    · rw [if_pos (.inr hlast), String.toList_append, hstart]
      cases start <;> rfl
  · have hno : ¬(p.text = "" ∨ p.text.toList.getLast? = some '/') := not_or.2 ⟨hp, hlast⟩
    refine ⟨p.text.toList, ?_, rfl, ?_⟩
    · rw [if_neg hno]
      simp
    · rw [if_neg hno]
      have hcs : p.text.toList ≠ [] := fun he => hp (String.toList_inj.1 he)
      obtain ⟨c, cs, hcs⟩ := List.exists_cons_of_ne_nil hcs
      simp [hcs]

theorem pieces_join {p : Path} {name : String} (hp : p.text ≠ "") (h : IsName name) :
    (p.join ⟨name⟩).pieces = p.pieces ++ [name.toList] := by
  obtain ⟨start, htext, hpieces, -⟩ := join_name hp h
  have hne : name.toList ≠ [] := fun he => h.ne_empty (String.toList_inj.1 he)
  rw [hpieces, pieces, htext, List.splitOn_append_cons_self, List.splitOn_eq_singleton h.slash,
    List.filter_append]
  simp [hne]

theorem isAbsolute_join {p : Path} {name : String} (hp : p.text ≠ "") (h : IsName name) :
    (p.join ⟨name⟩).isAbsolute = p.isAbsolute := by
  obtain ⟨-, -, -, hhead⟩ := join_name hp h
  rw [isAbsolute, hhead, isAbsolute]

theorem text_join_ne {p : Path} {name : String} (hp : p.text ≠ "") (h : IsName name) :
    (p.join ⟨name⟩).text ≠ "" := by
  obtain ⟨start, htext, -, -⟩ := join_name hp h
  intro he
  rw [he] at htext
  simp at htext

theorem pieces_down {p : Path} {names : List String} (hp : p.text ≠ "")
    (h : ∀ n ∈ names, IsName n) : (p.down names).pieces = p.pieces ++ names.map String.toList := by
  induction names generalizing p with
  | nil => simp [down]
  | cons name names ih =>
    have hname := h name List.mem_cons_self
    have htail := ih (text_join_ne hp hname) fun n hn => h n (List.mem_cons_of_mem _ hn)
    change ((p.join ⟨name⟩).down names).pieces = _
    rw [htail, pieces_join hp hname]
    simp

theorem isAbsolute_down {p : Path} {names : List String} (hp : p.text ≠ "")
    (h : ∀ n ∈ names, IsName n) : (p.down names).isAbsolute = p.isAbsolute := by
  induction names generalizing p with
  | nil => rfl
  | cons name names ih =>
    have hname := h name List.mem_cons_self
    change ((p.join ⟨name⟩).down names).isAbsolute = _
    rw [ih (text_join_ne hp hname) fun n hn => h n (List.mem_cons_of_mem _ hn),
      isAbsolute_join hp hname]

theorem text_down_ne {p : Path} {names : List String} (hp : p.text ≠ "")
    (h : ∀ n ∈ names, IsName n) : (p.down names).text ≠ "" := by
  induction names generalizing p with
  | nil => exact hp
  | cons name names ih =>
    apply ih (text_join_ne hp (h name List.mem_cons_self))
    intro n hn
    exact h n (List.mem_cons_of_mem _ hn)

theorem down_concat (p : Path) (names : List String) (name : String) :
    p.down (names ++ [name]) = (p.down names).join ⟨name⟩ := by
  simp [down]

theorem getLast?_down {p : Path} {names : List String} (hp : p.text ≠ "")
    (h : ∀ n ∈ names, IsName n) (hne : names ≠ []) :
    (p.down names).text.toList.getLast? ≠ some '/' := by
  obtain ⟨names, name, rfl⟩ : ∃ ns n, names = ns ++ [n] :=
    ⟨_, _, (List.dropLast_concat_getLast hne).symm⟩
  have hname := h name (List.mem_append_right _ List.mem_cons_self)
  have hp' := text_down_ne hp fun n hn => h n (List.mem_append_left _ hn)
  obtain ⟨start, htext, -, -⟩ := join_name hp' hname
  obtain ⟨c, cs, hcs⟩ :=
    List.exists_cons_of_ne_nil fun he => hname.ne_empty (String.toList_inj.1 he)
  have hlast : (start ++ '/' :: name.toList).getLast? = name.toList.getLast? := by
    rw [hcs, List.getLast?_append, List.getLast?_cons_cons, List.getLast?_cons]
    rfl
  rw [down_concat, htext, hlast]
  exact fun he => hname.slash (List.mem_of_getLast? he)

theorem nul_down {p : Path} {names : List String} (hp : p.text ≠ "")
    (h : ∀ n ∈ names, IsName n) (hnul : '\x00' ∉ p.text.toList) :
    '\x00' ∉ (p.down names).text.toList := by
  induction names generalizing p with
  | nil => exact hnul
  | cons name names ih =>
    have hname := h name List.mem_cons_self
    apply ih (text_join_ne hp hname) (fun n hn => h n (List.mem_cons_of_mem _ hn))
    rw [join, isAbsolute_name hname, if_neg Bool.false_ne_true]
    have hslash : '\x00' ∉ "/".toList := by decide
    split <;> simp only [String.toList_append, List.mem_append, hnul, hslash, hname.nul, or_self,
      not_false_eq_true]

theorem namesOf_eq (p : Path) :
    Disk.namesOf p = p.pieces.map String.ofList ++
      if p.text.toList.getLast? = some '/' then ["."] else [] := by
  rw [Disk.namesOf]
  rw [Text.split_eq_splitOn]
  split
  · simp [pieces]
  · simp [pieces]

theorem namesOf_down {p : Path} {names : List String} (hp : p.text ≠ "")
    (h : ∀ n ∈ names, IsName n) (hne : names ≠ []) :
    Disk.namesOf (p.down names) = p.pieces.map String.ofList ++ names := by
  have hback : (names.map String.toList).map String.ofList = names := by
    simp [Function.comp_def, String.ofList_toList]
  rw [namesOf_eq, if_neg (getLast?_down hp h hne), pieces_down hp h, List.map_append, hback,
    List.append_nil]

/-! ### Slashes at the end -/

/-- A path with slashes at its end. -/
def slashed (p : Path) : Nat → Path
  | 0 => p
  | n + 1 => ⟨(p.slashed n).text ++ "/"⟩

section Slashed

variable (p : Path) (n : Nat)

theorem toList_slashed :
    (p.slashed n).text.toList = p.text.toList ++ List.replicate n '/' := by
  induction n with
  | zero => exact (List.append_nil _).symm
  | succ n ih =>
    rw [slashed, String.toList_append, ih, List.append_assoc, List.replicate_succ']
    rfl

theorem size_slashed : (p.slashed n).text.utf8ByteSize = p.text.utf8ByteSize + n := by
  induction n with
  | zero => rfl
  | succ n ih =>
    rw [slashed, String.utf8ByteSize_append, ih]
    rfl

theorem getLast?_slashed : (p.slashed (n + 1)).text.toList.getLast? = some '/' := by
  rw [toList_slashed, List.replicate_succ', ← List.append_assoc, List.getLast?_concat]

theorem pieces_slashed : (p.slashed n).pieces = p.pieces := by
  induction n with
  | zero => rfl
  | succ n ih =>
    rw [pieces, slashed, String.toList_append]
    change ((_ ++ '/' :: []).splitOn '/').filter _ = _
    rw [List.splitOn_append_cons_self, List.filter_append, ← pieces, ih]
    simp

theorem namesOf_slashed :
    Disk.namesOf (p.slashed (n + 1)) = p.pieces.map String.ofList ++ ["."] := by
  rw [namesOf_eq, pieces_slashed, if_pos (getLast?_slashed p n)]

theorem down_slashed {name : String} (h : IsName name) :
    (p.slashed (n + 1)).down [name] = ⟨(p.slashed (n + 1)).text ++ name⟩ := by
  rw [down, List.foldl_cons, List.foldl_nil, join, isAbsolute_name h, if_neg Bool.false_ne_true,
    if_pos (.inr (getLast?_slashed p n))]

end Slashed

end Path

end Unalias
