import Mathlib.Data.List.Forall2
import Mathlib.Data.List.Induction
import Mathlib.Data.List.Nodup
import Unalias.Config.Rule

/-!
The table of rules that patterns give. A stem has one rule, which stands where the first pattern
with the stem stood and has the targets of the last.
-/

namespace Unalias

theorem Json.strings?_eq_some_iff {value : Json} {l : List String} :
    value.strings? = some l ↔ value = .strings l := by
  cases value with
  | array elements =>
    rw [strings?, strings, Json.array.injEq]
    induction elements generalizing l with
    | nil => cases l <;> simp
    | cons v elements ih =>
      cases v with
      | string s => cases l <;> simp [Option.bind_eq_some_iff, ih, and_comm]
      | _ => cases l <;> simp
  | _ => simp [strings?, strings]

namespace Rule

/-- The text `s` is `stem`, or has one star more at its end. Of several stars one is left out. -/
def Unstarred (s stem : String) : Prop :=
  s = stem ++ "*" ∨ s = stem ∧ ∀ t, s ≠ t ++ "*"

theorem dropStar_eq_iff {s stem : String} : dropStar s = stem ↔ Unstarred s stem := by
  have hstar : "*".toList = ['*'] := rfl
  rw [dropStar, Unstarred]
  split
  case isTrue hlast =>
    obtain ⟨cs, hcs⟩ := List.getLast?_eq_some_iff.1 hlast
    have hs : s = String.ofList cs ++ "*" := by
      rw [← String.toList_inj, String.toList_append, String.toList_ofList, hcs, hstar]
    rw [hcs, List.dropLast_concat]
    constructor
    · rintro rfl
      exact .inl hs
    · rintro (h | ⟨-, h⟩)
      · exact (String.append_left_inj "*").1 (hs.symm.trans h)
      · exact absurd hs (h _)
  case isFalse hlast =>
    have hno : ∀ t, s ≠ t ++ "*" := by
      rintro t rfl
      exact hlast (by simp [hstar])
    simp [hno]

/-- A pattern with its targets. -/
structure Mapping where
  pattern : String
  targets : List String

namespace Mapping

/-- The member of an object by which a mapping is written. -/
def written (m : Mapping) : String × Json :=
  (m.pattern, .strings m.targets)

def HasStem (m : Mapping) (stem : String) : Prop :=
  Unstarred m.pattern stem

variable {m : Mapping} {stem stem' : String}

theorem hasStem_iff : m.HasStem stem ↔ dropStar m.pattern = stem :=
  dropStar_eq_iff.symm

theorem HasStem.eq (h : m.HasStem stem) (h' : m.HasStem stem') : stem = stem' :=
  (hasStem_iff.1 h).symm.trans (hasStem_iff.1 h')

end Mapping

/-! ### One rule more -/

theorem put_cases (rule : Rule) (rules : List Rule) :
    (rule.stem ∉ rules.map Rule.stem ∧ put rule rules = rules ++ [rule]) ∨
      ∃ before old after, rules = before ++ old :: after ∧ old.stem = rule.stem ∧
        put rule rules = before ++ rule :: after := by
  induction rules with
  | nil => exact .inl ⟨List.not_mem_nil, rfl⟩
  | cons r rules ih =>
    rw [put]
    split
    case isTrue hstem => exact .inr ⟨[], r, rules, rfl, hstem, rfl⟩
    case isFalse hstem =>
      obtain ⟨hnew, hput⟩ | ⟨before, old, after, rfl, hold, hput⟩ := ih
      · refine .inl ⟨?_, by rw [hput, List.cons_append]⟩
        rw [List.map_cons, List.mem_cons, not_or]
        exact ⟨Ne.symm hstem, hnew⟩
      · exact .inr ⟨r :: before, old, after, rfl, hold, by rw [hput, List.cons_append]⟩

theorem stems_put (rule : Rule) (rules : List Rule) :
    (put rule rules).map stem =
      if rule.stem ∈ rules.map stem then rules.map stem else rules.map stem ++ [rule.stem] := by
  obtain ⟨hnew, hput⟩ | ⟨before, old, after, rfl, hold, hput⟩ := put_cases rule rules
  · rw [hput, if_neg hnew, List.map_append]
    rfl
  · rw [hput, if_pos (by simp [hold])]
    simp [hold]

theorem nodup_stems_put {rules : List Rule} (h : (rules.map stem).Nodup) (rule : Rule) :
    ((put rule rules).map stem).Nodup := by
  rw [stems_put]
  split
  case isTrue => exact h
  case isFalse hnew =>
    refine List.nodup_append.2 ⟨h, List.pairwise_singleton _ _, ?_⟩
    rintro stem hstem _ hmem rfl
    exact hnew (List.mem_singleton.1 hmem ▸ hstem)

theorem mem_stems_put {stem : String} {rule : Rule} {rules : List Rule} :
    stem ∈ (put rule rules).map Rule.stem ↔ stem ∈ rules.map Rule.stem ∨ stem = rule.stem := by
  rw [stems_put]
  split
  case isTrue hold => exact (or_iff_left_of_imp fun heq => heq ▸ hold).symm
  case isFalse => simp

theorem mem_of_mem_put {r rule : Rule} {rules : List Rule} (h : r ∈ put rule rules) :
    r = rule ∨ r ∈ rules := by
  obtain ⟨-, hput⟩ | ⟨before, old, after, rfl, -, hput⟩ := put_cases rule rules
  · simpa [hput, or_comm] using h
  · rw [hput] at h
    simp only [List.mem_append, List.mem_cons] at h ⊢
    tauto

theorem mem_put_self (rule : Rule) (rules : List Rule) : rule ∈ put rule rules := by
  obtain ⟨-, hput⟩ | ⟨before, old, after, -, -, hput⟩ := put_cases rule rules
  · simp [hput]
  · simp [hput]

/-- The table with what one mapping has to say. -/
def enter (rules : List Rule) (m : Mapping) : List Rule :=
  match ofPattern? m.pattern m.targets with
  | none => rules
  | some rule => put rule rules

theorem putAll_written (rules : List Rule) (ms : List Mapping) (rest : List (String × Json)) :
    putAll rules (ms.map Mapping.written ++ rest) = putAll (ms.foldl enter rules) rest := by
  induction ms generalizing rules with
  | nil => rfl
  | cons m ms ih =>
    have hread := Json.strings?_eq_some_iff.2 (rfl : Json.strings m.targets = .strings m.targets)
    rw [List.foldl_cons, ← ih, List.map_cons, List.cons_append, Mapping.written, putAll]
    simp only [hread, enter]
    cases ofPattern? m.pattern m.targets <;> rfl

/-! ### The table -/

/-- A mapping with the stem `stem` comes before all that have the stem `other`. -/
def ComesBefore (ms : List Mapping) (stem other : String) : Prop :=
  ∃ before m after, ms = before ++ m :: after ∧ m.HasStem stem ∧ ∀ m' ∈ before, ¬m'.HasStem other

/-- The last mapping that has the stem of a rule gives the rule its targets. -/
def HasLastTargets (ms : List Mapping) (rule : Rule) : Prop :=
  ∃ before m after, ms = before ++ m :: after ∧ m.HasStem rule.stem ∧
    (∀ m' ∈ after, ¬m'.HasStem rule.stem) ∧ List.Forall₂ Unstarred m.targets rule.targets

/-- The rules that mappings give in their order. -/
structure IsTable (ms : List Mapping) (rules : List Rule) : Prop where
  nodup : (rules.map stem).Nodup
  mem_iff : ∀ stem, stem ∈ rules.map Rule.stem ↔ stem ≠ "" ∧ ∃ m ∈ ms, m.HasStem stem
  order : (rules.map stem).Pairwise (ComesBefore ms)
  targets : ∀ rule ∈ rules, HasLastTargets ms rule

section Table

variable {ms : List Mapping} {rules : List Rule} {m : Mapping}

theorem ComesBefore.concat {stem other : String} (h : ComesBefore ms stem other) (m : Mapping) :
    ComesBefore (ms ++ [m]) stem other := by
  obtain ⟨before, m', after, rfl, hstem, hbefore⟩ := h
  exact ⟨before, m', after ++ [m], by simp, hstem, hbefore⟩

theorem HasLastTargets.concat {rule : Rule} (h : HasLastTargets ms rule)
    (hm : ¬m.HasStem rule.stem) : HasLastTargets (ms ++ [m]) rule := by
  obtain ⟨before, m', after, rfl, hstem, hafter, htargets⟩ := h
  refine ⟨before, m', after ++ [m], by simp, hstem, ?_, htargets⟩
  exact List.forall_mem_append.2 ⟨hafter, List.forall_mem_singleton.2 hm⟩

/-- A mapping without a stem changes nothing. -/
theorem IsTable.skip (h : IsTable ms rules) (hm : m.HasStem "") : IsTable (ms ++ [m]) rules where
  nodup := h.nodup
  mem_iff stem := by
    rw [h.mem_iff]
    refine and_congr_right fun hne => ?_
    have hno : ¬m.HasStem stem := fun hstem => hne (hstem.eq hm)
    simp [or_and_right, exists_or, hno]
  order := h.order.imp fun hbefore => hbefore.concat m
  targets rule hrule := by
    apply (h.targets rule hrule).concat
    intro hstem
    exact ((h.mem_iff rule.stem).1 (List.mem_map_of_mem hrule)).1 (hstem.eq hm)

/-- A mapping with a stem sets the rule of the stem, or adds one behind all others. -/
theorem IsTable.put (h : IsTable ms rules) {rule : Rule} (hm : m.HasStem rule.stem)
    (hne : rule.stem ≠ "") (htargets : List.Forall₂ Unstarred m.targets rule.targets) :
    IsTable (ms ++ [m]) (put rule rules) where
  nodup := nodup_stems_put h.nodup rule
  mem_iff stem := by
    have hlast : m.HasStem stem ↔ stem = rule.stem := ⟨fun hstem => hstem.eq hm, fun he => he ▸ hm⟩
    rw [mem_stems_put, h.mem_iff]
    simp only [List.mem_append, List.mem_singleton, or_and_right, exists_or, exists_eq_left, hlast]
    constructor
    · rintro (⟨hne', hold⟩ | rfl)
      · exact ⟨hne', .inl hold⟩
      · exact ⟨hne, .inr rfl⟩
    · rintro ⟨hne', hold | heq⟩
      · exact .inl ⟨hne', hold⟩
      · exact .inr heq
  order := by
    have horder := h.order.imp fun hbefore => hbefore.concat m
    rw [stems_put]
    split
    case isTrue => exact horder
    case isFalse hnew =>
      refine List.pairwise_append.2 ⟨horder, List.pairwise_singleton _ _, ?_⟩
      intro stem hstem other hother
      obtain rfl := List.mem_singleton.1 hother
      -- the stem has a mapping already, and the new one has none
      obtain ⟨-, m', hm', hstem'⟩ := (h.mem_iff stem).1 hstem
      obtain ⟨before, after, rfl⟩ := List.append_of_mem hm'
      refine ⟨before, m', after ++ [m], by simp, hstem', fun m'' hm'' hother => ?_⟩
      exact hnew ((h.mem_iff rule.stem).2 ⟨hne, m'', by simp [hm''], hother⟩)
  targets r hr := by
    by_cases hstem : r.stem = rule.stem
    · have hnodup := nodup_stems_put h.nodup rule
      rw [List.inj_on_of_nodup_map hnodup hr (mem_put_self rule rules) hstem]
      exact ⟨ms, m, [], rfl, hm, List.forall_mem_nil _, htargets⟩
    · obtain rfl | hr := mem_of_mem_put hr
      · exact absurd rfl hstem
      · exact (h.targets r hr).concat fun hr' => hstem (hr'.eq hm)

theorem IsTable.enter (h : IsTable ms rules) (m : Mapping) :
    IsTable (ms ++ [m]) (enter rules m) := by
  rw [Rule.enter, ofPattern?]
  by_cases hstem : dropStar m.pattern = ""
  · rw [if_pos hstem]
    exact h.skip (Mapping.hasStem_iff.2 hstem)
  · rw [if_neg hstem]
    apply h.put (Mapping.hasStem_iff.2 rfl) hstem
    rw [List.forall₂_map_right_iff, List.forall₂_same]
    exact fun target _ => dropStar_eq_iff.1 rfl

theorem isTable_foldl (ms : List Mapping) : IsTable ms (ms.foldl Rule.enter []) := by
  induction ms using List.reverseRecOn with
  | nil => exact ⟨List.nodup_nil, by simp, .nil, List.forall_mem_nil _⟩
  | append_singleton ms m ih =>
    rw [List.foldl_append]
    exact ih.enter m

end Table

/-- Mappings as they are written, up to the first member that is none. -/
theorem exists_written (paths : List (String × Json)) :
    ∃ ms : List Mapping, paths = ms.map Mapping.written ∨
      ∃ pattern value rest, paths = ms.map Mapping.written ++ (pattern, value) :: rest ∧
        ∀ targets, value ≠ .strings targets := by
  induction paths with
  | nil => exact ⟨[], .inl rfl⟩
  | cons member paths ih =>
    obtain ⟨pattern, value⟩ := member
    cases hread : value.strings? with
    | none =>
      refine ⟨[], .inr ⟨pattern, value, paths, rfl, ?_⟩⟩
      rintro targets rfl
      rw [Json.strings?_eq_some_iff.2 rfl] at hread
      cases hread
    | some targets =>
      obtain rfl := Json.strings?_eq_some_iff.1 hread
      obtain ⟨ms, rfl | ⟨pattern', value', rest, rfl, hvalue⟩⟩ := ih
      · exact ⟨⟨pattern, targets⟩ :: ms, .inl rfl⟩
      · exact ⟨⟨pattern, targets⟩ :: ms, .inr ⟨pattern', value', rest, rfl, hvalue⟩⟩

theorem ofPaths_written (ms : List Mapping) :
    ofPaths (ms.map Mapping.written) = .ok (ms.foldl enter []) := by
  have h := putAll_written [] ms []
  rwa [List.append_nil] at h

/-- The first member that is no mapping is refused by name, even if its pattern has no stem. -/
theorem ofPaths_refused (ms : List Mapping) (pattern : String) {value : Json}
    (hvalue : ∀ targets, value ≠ .strings targets) (rest : List (String × Json)) :
    ofPaths (ms.map Mapping.written ++ (pattern, value) :: rest) =
      .error (.targetsNotStrings pattern) := by
  have hnone : value.strings? = none := by
    apply Option.eq_none_iff_forall_ne_some.2
    intro targets hread
    exact hvalue targets (Json.strings?_eq_some_iff.1 hread)
  rw [ofPaths, putAll_written, putAll]
  simp only [hnone]

/-- Patterns give their table, unless one has something else than texts for its targets. Then the
first such pattern is named. -/
theorem ofPaths_table (paths : List (String × Json)) :
    ∃ ms : List Mapping,
      (paths = ms.map Mapping.written ∧
          ∃ rules, ofPaths paths = .ok rules ∧ IsTable ms rules) ∨
        ∃ pattern value rest, paths = ms.map Mapping.written ++ (pattern, value) :: rest ∧
          (∀ targets, value ≠ .strings targets) ∧
          ofPaths paths = .error (.targetsNotStrings pattern) := by
  obtain ⟨ms, rfl | ⟨pattern, value, rest, rfl, hvalue⟩⟩ := exists_written paths
  · exact ⟨ms, .inl ⟨rfl, _, ofPaths_written ms, isTable_foldl ms⟩⟩
  · exact ⟨ms, .inr ⟨pattern, value, rest, rfl, hvalue, ofPaths_refused ms pattern hvalue rest⟩⟩

/-- The two patterns of one stem are one rule, in the place of the first. -/
example : ofPaths [("*", .strings ["types/*"]), ("@lib/*", .strings ["a/*"]),
    ("@x", .strings ["x"]), ("@lib/", .strings ["b/"])] =
      .ok [⟨"@lib/", ["b/"]⟩, ⟨"@x", ["x"]⟩] := by
  decide +kernel

end Rule

end Unalias
