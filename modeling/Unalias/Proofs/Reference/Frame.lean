import Unalias.Proofs.Reference.Matching
import Unalias.Proofs.Reference.Positions
import Unalias.Proofs.Run.Sequential

/-!
What a text keeps when its references are replaced. Its quotes stay, each visited segment that is
aliased is accounted for once, and all other segments stay as they are.
-/

namespace Unalias

open Segment

/-- One of the texts between the quotes of a text. -/
def Text.segment (text : String) (i : Nat) : String :=
  String.ofList ((Text.segments text.toList)[i]?.getD [])

theorem Text.eq_of_segment {text text' : String}
    (hquotes : quotes text'.toList = quotes text.toList)
    (hlength : (segments text'.toList).length = (segments text.toList).length)
    (hsegment : ∀ i, segment text' i = segment text i) : text' = text := by
  apply String.toList_inj.1
  apply eq_of_segments hquotes
  apply List.ext_getElem hlength
  intro i hi hi'
  have hsame := String.ofList_injective (hsegment i)
  rwa [List.getElem?_eq_getElem hi, List.getElem?_eq_getElem hi'] at hsame

namespace Resolver

/-- A reference that starts with the stem of a rule. -/
def IsAliased (r : Resolver) (reference : String) : Prop :=
  ∃ rule ∈ r.rules, rule.stem.toList <+: reference.toList

instance (r : Resolver) : DecidablePred r.IsAliased := fun reference =>
  inferInstanceAs (Decidable (∃ rule ∈ r.rules, rule.stem.toList <+: reference.toList))

/-- The text that the search for calls leaves to the search for statements. -/
def afterCalls (r : Resolver) (d : Disk) (file : Path) (text : String) : String :=
  (((Form.call.replaceLiterals (r.answer file) text).run {}).run d).1.1

/-- The numbers of the segments that the two searches visit, one search after the other. -/
def visits (r : Resolver) (d : Disk) (file : Path) (text : String) : List Nat :=
  Form.call.visits text.toList ++ Form.statement.visits (r.afterCalls d file text).toList

/-- A text with some of its segments visited, and what has become of it. -/
structure Framed (r : Resolver) (text : String) (visits : List Nat) (result : Unaliased) :
    Prop where
  quotes_eq : Text.quotes result.text.toList = Text.quotes text.toList
  length_eq : (Text.segments result.text.toList).length = (Text.segments text.toList).length
  inside : ∀ i ∈ visits, i < (Text.segments text.toList).length
  once : visits.Nodup
  accounted : ∃ replaced unresolved : List Nat,
    (replaced ++ unresolved).Perm (visits.filter fun i => r.IsAliased (Text.segment text i)) ∧
    result.outcome.replacements =
      replaced.map (fun i => (Text.segment text i, Text.segment result.text i)) ∧
    result.outcome.unresolved = unresolved.map (Text.segment text) ∧
    ∀ i, i ∉ replaced → Text.segment result.text i = Text.segment text i
  changed_iff :
    result.outcome.changed = true ↔ ∃ pair ∈ result.outcome.replacements, pair.1 ≠ pair.2
  untouched :
    (∀ i ∈ visits, ¬r.IsAliased (Text.segment text i)) → result = ⟨text, {}⟩

variable {r : Resolver} {d : Disk} {file : Path}

/-! ### The two searches -/

theorem getLast?_of_opens {form : Form} {b : List Char} (h : form.opens b = true) :
    b.getLast? = some form.separator := by
  obtain ⟨o, ho, cs, rfl⟩ := Form.opens_iff.1 h
  obtain ⟨keyword, -, rfl⟩ := List.mem_map.1 ho
  rw [← List.append_assoc, List.getLast?_concat]

/-- A call and a statement never open at the same place. -/
theorem not_opens_statement {b : List Char} (h : Form.call.opens b = true) :
    Form.statement.opens b = false := by
  apply Bool.eq_false_iff.2
  intro hstatement
  cases (getLast?_of_opens h).symm.trans (getLast?_of_opens hstatement)

section Searches

variable {before : List Char} {segs : List Segment}

theorem isPlain_settled {form : Form} (hsegs : ∀ s ∈ segs, s.WellCut)
    (hplain : ∀ b ∈ form.visited before segs, ∀ new,
      (r.verdict d file (String.ofList b)).new? = some new → IsPlain new.toList) :
    ∀ b ∈ form.visited before segs, IsPlain (Form.settledLiteral (r.verdict d file) b) := by
  intro b hb
  cases h : (r.verdict d file (String.ofList b)).new? with
  | none =>
    obtain ⟨s, hs, rfl⟩ := Form.exists_segment_of_visited hb
    rw [Form.settledLiteral_of_none h]
    exact (hsegs s hs).body
  | some new =>
    rw [Form.settledLiteral_of_some h]
    exact hplain b hb new h

/-- No segment is visited by both searches: what is before one that the search for calls visits
is left as it is, and opens no statement. -/
theorem disjoint_spots (f : List Char → List Char) :
    (Form.call.spots (before :: segs.map Segment.body)).Disjoint
      (Form.statement.spots (before :: (Form.call.sweep f before segs).map Segment.body)) := by
  intro i hcall hstatement
  obtain ⟨j, b, -, rfl, hb, hopens, -⟩ := Form.exists_of_mem_spots hcall
  obtain ⟨j', b', -, hj, hb', hopens', -⟩ := Form.exists_of_mem_spots hstatement
  obtain rfl : j = j' := Nat.succ.inj hj
  rw [Form.getElem?_sweep, if_neg (Form.not_mem_spots_of_succ hcall), hb] at hb'
  obtain rfl := Option.some.inj hb'
  rw [not_opens_statement hopens] at hopens'
  cases hopens'

/-- A text cut at its quotes, in which the two searches leave no new quote. -/
structure Searched (r : Resolver) (d : Disk) (file : Path) (text : String) (before : List Char)
    (segs : List Segment) : Prop where
  isPlain : IsPlain before
  wellCut : ∀ s ∈ segs, s.WellCut
  wellCut_between :
    ∀ s ∈ Form.call.sweep (Form.settledLiteral (r.verdict d file)) before segs, s.WellCut
  wellCut_result : ∀ s ∈ Form.statement.sweep (Form.settledLiteral (r.verdict d file)) before
    (Form.call.sweep (Form.settledLiteral (r.verdict d file)) before segs), s.WellCut
  text_eq : text.toList = before ++ joined segs

theorem toList_afterCalls (text : String) :
    (r.afterCalls d file text).toList = Form.call.settle (r.verdict d file) text.toList := by
  rw [afterCalls, replaceLiterals_run, String.toList_ofList]

theorem exists_searched {text : String}
    (hplain : ∀ pair ∈ (r.unaliased d file text).outcome.replacements, IsPlain pair.2.toList) :
    ∃ before segs, Searched r d file text before segs := by
  obtain ⟨before, segs, hbefore, hsegs, htext⟩ := exists_cut text.toList
  obtain ⟨hfirst, hcalls⟩ := Form.settle_joined (r.verdict d file) .call hbefore hsegs rfl
  have hreplaced : ∀ b new, String.ofList b ∈ Form.call.literals text.toList ++
      Form.statement.literals (Form.call.settle (r.verdict d file) text.toList) →
      (r.verdict d file (String.ofList b)).new? = some new → IsPlain new.toList := by
    intro b new hb hnew
    apply hplain (String.ofList b, new)
    rw [replacements_unaliased]
    exact List.mem_filterMap.2 ⟨_, hb, by rw [hnew]; rfl⟩
  rw [htext, hfirst, hcalls] at hreplaced
  have hbetween := Form.wellCut_sweep hsegs (isPlain_settled hsegs fun b hb new hnew =>
    hreplaced b new (List.mem_append_left _ (List.mem_map_of_mem hb)) hnew)
  obtain ⟨-, hstatements⟩ := Form.settle_joined (r.verdict d file) .statement hbefore hbetween rfl
  rw [hstatements] at hreplaced
  have hresult := Form.wellCut_sweep hbetween (isPlain_settled hbetween fun b hb new hnew =>
    hreplaced b new (List.mem_append_right _ (List.mem_map_of_mem hb)) hnew)
  exact ⟨before, segs, hbefore, hsegs, hbetween, hresult, htext⟩

namespace Searched

variable {text : String}

theorem afterCalls_eq (h : Searched r d file text before segs) :
    (r.afterCalls d file text).toList =
      before ++ joined (Form.call.sweep (Form.settledLiteral (r.verdict d file)) before segs) := by
  rw [toList_afterCalls, h.text_eq]
  exact (Form.settle_joined _ .call h.isPlain h.wellCut rfl).1

theorem result_eq (h : Searched r d file text before segs) :
    (r.unaliased d file text).text.toList =
      before ++ joined (Form.statement.sweep (Form.settledLiteral (r.verdict d file)) before
        (Form.call.sweep (Form.settledLiteral (r.verdict d file)) before segs)) := by
  rw [text_unaliased, String.toList_ofList, ← toList_afterCalls, h.afterCalls_eq]
  exact (Form.settle_joined _ .statement h.isPlain h.wellCut_between rfl).1

theorem visits_eq (h : Searched r d file text before segs) :
    r.visits d file text = Form.call.spots (before :: segs.map Segment.body) ++
      Form.statement.spots (before ::
        (Form.call.sweep (Form.settledLiteral (r.verdict d file)) before segs).map
          Segment.body) := by
  rw [visits, h.text_eq, h.afterCalls_eq, Form.visits_joined h.isPlain h.wellCut rfl,
    Form.visits_joined h.isPlain h.wellCut_between rfl]

theorem nodup_visits (h : Searched r d file text before segs) : (r.visits d file text).Nodup := by
  rw [h.visits_eq]
  refine List.nodup_append.2 ⟨Form.nodup_spots _ _, Form.nodup_spots _ _, ?_⟩
  rintro i hcall _ hstatement rfl
  exact disjoint_spots _ hcall hstatement

theorem quotes_eq (h : Searched r d file text before segs) :
    Text.quotes (r.unaliased d file text).text.toList = Text.quotes text.toList := by
  rw [h.result_eq, h.text_eq, Text.quotes_cut h.isPlain h.wellCut_result,
    Text.quotes_cut h.isPlain h.wellCut,
    Form.quotes_sweep, Form.quotes_sweep]

/-- The visited segments are settled, and no others are. -/
theorem getElem?_segments (h : Searched r d file text before segs) (i : Nat) :
    (Text.segments (r.unaliased d file text).text.toList)[i]? =
      if i ∈ r.visits d file text then
        ((Text.segments text.toList)[i]?).map (Form.settledLiteral (r.verdict d file))
      else (Text.segments text.toList)[i]? := by
  rw [h.visits_eq, h.result_eq, h.text_eq, Text.segments_cut h.isPlain h.wellCut_result,
    Text.segments_cut h.isPlain h.wellCut, Form.getElem?_sweep, Form.getElem?_sweep]
  by_cases hcall : i ∈ Form.call.spots (before :: segs.map Segment.body)
  · rw [if_neg (disjoint_spots _ hcall), if_pos hcall, if_pos (List.mem_append_left _ hcall)]
  · simp only [hcall, if_false, List.mem_append, false_or]

theorem length_eq (h : Searched r d file text before segs) :
    (Text.segments (r.unaliased d file text).text.toList).length =
      (Text.segments text.toList).length := by
  rw [h.result_eq, h.text_eq, Text.segments_cut h.isPlain h.wellCut_result,
    Text.segments_cut h.isPlain h.wellCut]
  simp only [List.length_cons, List.length_map, Form.length_sweep]

theorem lt_of_mem_visits (h : Searched r d file text before segs) {i : Nat}
    (hi : i ∈ r.visits d file text) : i < (Text.segments text.toList).length := by
  rw [h.text_eq, Text.segments_cut h.isPlain h.wellCut, List.length_cons, List.length_map]
  rw [h.visits_eq] at hi
  obtain hi | hi := List.mem_append.1 hi
  all_goals
    obtain ⟨j, _, _, rfl, -, -, hbody⟩ := Form.exists_of_mem_spots hi
    obtain ⟨hlt, -⟩ := List.getElem?_eq_some_iff.1 hbody
    simpa [Form.length_sweep] using hlt

theorem segment_eq (h : Searched r d file text before segs) (i : Nat) :
    Text.segment (r.unaliased d file text).text i =
      if i ∈ r.visits d file text then
        (r.verdict d file (Text.segment text i)).new?.getD (Text.segment text i)
      else Text.segment text i := by
  rw [Text.segment, h.getElem?_segments]
  split
  case isTrue hi =>
    have hlt := h.lt_of_mem_visits hi
    rw [Text.segment, List.getElem?_eq_getElem hlt, Option.map_some, Option.getD_some,
      Option.getD_some, Form.settledLiteral]
    cases (r.verdict d file (String.ofList (Text.segments text.toList)[i])).new? with
    | none => rfl
    | some new => exact String.ofList_toList
  case isFalse hi => rfl

/-- The literals that the searches ask for are the visited segments. -/
theorem literals_eq (h : Searched r d file text before segs) :
    Form.call.literals text.toList ++
        Form.statement.literals (Form.call.settle (r.verdict d file) text.toList) =
      (r.visits d file text).map (Text.segment text) := by
  obtain ⟨hfirst, hcalls⟩ := Form.settle_joined (r.verdict d file) .call h.isPlain h.wellCut rfl
  obtain ⟨-, hstatements⟩ :=
    Form.settle_joined (r.verdict d file) .statement h.isPlain h.wellCut_between rfl
  have hsegment : ∀ i, Text.segment text i =
      String.ofList ((before :: segs.map Segment.body)[i]?.getD []) := by
    intro i
    rw [Text.segment, h.text_eq, Text.segments_cut h.isPlain h.wellCut]
  rw [h.visits_eq, h.text_eq, hfirst, hcalls, hstatements, Form.map_visited, Form.map_visited,
    List.map_append]
  congr 1
  · exact List.map_congr_left fun i _ => (hsegment i).symm
  · apply List.map_congr_left
    intro i hi
    rw [hsegment, Form.getElem?_sweep, if_neg fun hcall => disjoint_spots _ hcall hi]

end Searched

end Searches

/-! ### Accounts -/

theorem isAliased_iff (r : Resolver) (d : Disk) (file : Path) (reference : String) :
    r.IsAliased reference ↔ r.verdict d file reference ≠ .notAliased := by
  rw [ne_eq, verdict_eq_notAliased_iff, IsAliased]
  simp only [not_forall, not_not, exists_prop]

theorem unresolved_unaliased (text : String) :
    (r.unaliased d file text).outcome.unresolved =
      (Form.call.literals text.toList ++ Form.statement.literals
        (Form.call.settle (r.verdict d file) text.toList)).filter fun old =>
          r.verdict d file old = .unresolved := by
  rw [unaliased, unalias_run_eq, List.filter_append]
  simp [Outcome.noting]

theorem filterMap_eq_map_filter {α β : Type} {l : List α} {g : α → Option β} {h : α → β}
    (hg : ∀ a ∈ l, ∀ b, g a = some b → h a = b) :
    l.filterMap g = (l.filter fun a => (g a).isSome).map h := by
  induction l with
  | nil => rfl
  | cons a l ih =>
    obtain ⟨ha, hl⟩ := List.forall_mem_cons.1 hg
    rw [List.filterMap_cons, List.filter_cons]
    cases hga : g a with
    | none => exact ih hl
    | some b => simp [ih hl, ha b hga]

/-- Each visited segment that is aliased is replaced or stays unresolved. -/
theorem perm_accounts (r : Resolver) (d : Disk) (file : Path) (text : String) :
    ((r.visits d file text).filter (fun i =>
        (r.verdict d file (Text.segment text i)).new?.isSome) ++
      (r.visits d file text).filter fun i =>
        r.verdict d file (Text.segment text i) = .unresolved).Perm
      ((r.visits d file text).filter fun i => r.IsAliased (Text.segment text i)) := by
  have haliased := fun i => isAliased_iff r d file (Text.segment text i)
  have hperm := List.filter_append_perm
    (fun i => (r.verdict d file (Text.segment text i)).new?.isSome)
    ((r.visits d file text).filter fun i => r.IsAliased (Text.segment text i))
  have hreplaced : (r.visits d file text).filter (fun i =>
      (r.verdict d file (Text.segment text i)).new?.isSome &&
        decide (r.IsAliased (Text.segment text i))) =
      (r.visits d file text).filter fun i =>
        (r.verdict d file (Text.segment text i)).new?.isSome := by
    apply List.filter_congr
    intro i _
    simp only [haliased]
    cases r.verdict d file (Text.segment text i) <;> simp [Resolution.new?]
  have hunresolved : (r.visits d file text).filter (fun i =>
      !(r.verdict d file (Text.segment text i)).new?.isSome &&
        decide (r.IsAliased (Text.segment text i))) =
      (r.visits d file text).filter fun i =>
        r.verdict d file (Text.segment text i) = .unresolved := by
    apply List.filter_congr
    intro i _
    simp only [haliased]
    cases r.verdict d file (Text.segment text i) <;> simp [Resolution.new?]
  rwa [List.filter_filter, List.filter_filter, hreplaced, hunresolved] at hperm

section Accounts

variable {text : String} {before : List Char} {segs : List Segment}

namespace Searched

/-- The visited segments whose literals are replaced. -/
theorem replacements_eq (h : Searched r d file text before segs) :
    (r.unaliased d file text).outcome.replacements =
      ((r.visits d file text).filter fun i =>
        (r.verdict d file (Text.segment text i)).new?.isSome).map fun i =>
          (Text.segment text i, Text.segment (r.unaliased d file text).text i) := by
  have hpairs : ∀ i ∈ r.visits d file text, ∀ pair,
      ((r.verdict d file (Text.segment text i)).new?.map fun new =>
        (Text.segment text i, new)) = some pair →
      (Text.segment text i, Text.segment (r.unaliased d file text).text i) = pair := by
    intro i hi pair hpair
    obtain ⟨new, hnew, rfl⟩ := Option.map_eq_some_iff.1 hpair
    rw [h.segment_eq, if_pos hi, hnew]
    rfl
  rw [replacements_unaliased, h.literals_eq, List.filterMap_map]
  refine (filterMap_eq_map_filter hpairs).trans ?_
  simp only [Option.isSome_map]

theorem unresolved_eq (h : Searched r d file text before segs) :
    (r.unaliased d file text).outcome.unresolved =
      ((r.visits d file text).filter fun i =>
        r.verdict d file (Text.segment text i) = .unresolved).map (Text.segment text) := by
  rw [unresolved_unaliased, h.literals_eq, List.filter_map]
  rfl

/-- A segment that is not replaced stays as it is. -/
theorem segment_eq_self (h : Searched r d file text before segs) {i : Nat}
    (hi : i ∉ (r.visits d file text).filter fun i =>
      (r.verdict d file (Text.segment text i)).new?.isSome) :
    Text.segment (r.unaliased d file text).text i = Text.segment text i := by
  rw [h.segment_eq]
  split
  case isTrue hvisit =>
    rw [List.mem_filter, not_and, Option.not_isSome_iff_eq_none] at hi
    rw [hi hvisit, Option.getD_none]
  case isFalse => rfl

theorem text_eq_self (h : Searched r d file text before segs)
    (hsame : ∀ pair ∈ (r.unaliased d file text).outcome.replacements, pair.1 = pair.2) :
    (r.unaliased d file text).text = text := by
  apply Text.eq_of_segment h.quotes_eq h.length_eq
  intro i
  by_cases hi : i ∈ (r.visits d file text).filter fun i =>
      (r.verdict d file (Text.segment text i)).new?.isSome
  · rw [h.replacements_eq] at hsame
    exact (hsame _ (List.mem_map_of_mem hi)).symm
  · exact h.segment_eq_self hi

theorem changed_iff (h : Searched r d file text before segs) :
    (r.unaliased d file text).outcome.changed = true ↔
      ∃ pair ∈ (r.unaliased d file text).outcome.replacements, pair.1 ≠ pair.2 := by
  rw [changed_unaliased, decide_eq_true_iff]
  constructor
  · intro hne
    by_contra hsame
    apply hne
    apply h.text_eq_self
    intro pair hpair
    by_contra hdiffers
    exact hsame ⟨pair, hpair, hdiffers⟩
  · rintro ⟨pair, hpair, hdiffers⟩ htext
    rw [h.replacements_eq, htext] at hpair
    obtain ⟨i, -, rfl⟩ := List.mem_map.1 hpair
    exact hdiffers rfl

theorem eq_self (h : Searched r d file text before segs)
    (hnone : ∀ i ∈ r.visits d file text, ¬r.IsAliased (Text.segment text i)) :
    r.unaliased d file text = ⟨text, {}⟩ := by
  have hfilter : (r.visits d file text).filter (fun i => r.IsAliased (Text.segment text i)) = [] :=
    List.filter_eq_nil_iff.2 fun i hi => by simpa using hnone i hi
  have hperm := perm_accounts r d file text
  rw [hfilter, List.perm_nil, List.append_eq_nil_iff] at hperm
  have hreplacements := h.replacements_eq
  have hunresolved := h.unresolved_eq
  rw [hperm.1, List.map_nil] at hreplacements
  rw [hperm.2, List.map_nil] at hunresolved
  have hsame : ∀ pair ∈ (r.unaliased d file text).outcome.replacements, pair.1 = pair.2 := by
    simp [hreplacements]
  have hchanged : (r.unaliased d file text).outcome.changed = false := by
    rw [changed_unaliased, h.text_eq_self hsame]
    simp
  have htext := h.text_eq_self hsame
  generalize r.unaliased d file text = result at *
  obtain ⟨text', replacements, unresolved, changed⟩ := result
  simp only at htext hreplacements hunresolved hchanged
  rw [htext, hreplacements, hunresolved, hchanged]

theorem framed (h : Searched r d file text before segs) :
    r.Framed text (r.visits d file text) (r.unaliased d file text) where
  quotes_eq := h.quotes_eq
  length_eq := h.length_eq
  inside _ := h.lt_of_mem_visits
  once := h.nodup_visits
  accounted :=
    ⟨_, _, perm_accounts r d file text, h.replacements_eq, h.unresolved_eq,
      fun _ => h.segment_eq_self⟩
  changed_iff := h.changed_iff
  untouched := h.eq_self

end Searched

end Accounts

/-- Replacing the references of a text, when no new reference has a quote. -/
theorem unalias_framed (r : Resolver) (d : Disk) (file : Path) (text : String)
    (hplain : ∀ pair ∈ (r.unaliased d file text).outcome.replacements, IsPlain pair.2.toList) :
    (r.unalias file text).run d = (r.unaliased d file text, d) ∧
      r.Framed text (r.visits d file text) (r.unaliased d file text) := by
  obtain ⟨before, segs, hsearched⟩ := exists_searched hplain
  exact ⟨unalias_run r d file text, hsearched.framed⟩

end Resolver

theorem unalias_framed_oneFile :
    let file : Path := ⟨"/w/dist/a.js"⟩
    let result := printing.job.unaliased oneFile file "require('@/b.ts')"
    (∀ pair ∈ result.outcome.replacements, IsPlain pair.2.toList) ∧
      (printing.job.unalias file "require('@/b.ts')").run oneFile = (result, oneFile) ∧
      printing.job.Framed "require('@/b.ts')"
        (printing.job.visits oneFile file "require('@/b.ts')") result := by
  have hplain : ∀ pair ∈ (printing.job.unaliased oneFile ⟨"/w/dist/a.js"⟩
      "require('@/b.ts')").outcome.replacements, IsPlain pair.2.toList := by
    intro pair hpair
    have hfile : printing.job.unaliased oneFile ⟨"/w/dist/a.js"⟩ "require('@/b.ts')" = _ :=
      Sample.unaliased_file Sample.hasModule_src (by decide)
    rw [hfile, List.mem_singleton] at hpair
    rw [hpair]
    exact Sample.isInert_new.1
  exact ⟨hplain, Resolver.unalias_framed _ oneFile _ _ hplain⟩

end Unalias
