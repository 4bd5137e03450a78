import Mathlib.Data.List.Forall2
import Unalias.Proofs.Reference.Segments

/-!
References that are replaced stay replaced. A search over what a search has settled visits the
same segments; and what the search for statements changes gives the search for calls nothing new
to replace.
-/

namespace Unalias

open Segment

namespace Form

variable {form : Form} {f : List Char → List Char} {before start start' b : List Char}
  {segs segs' : List Segment} {s next : Segment}

/-! ### Two searches of one form -/

theorem exists_sweep_cons (form : Form) (f : List Char → List Char) (before : List Char)
    (s : Segment) (segs : List Segment) :
    ∃ s' segs', form.sweep f before (s :: segs) = s' :: segs' ∧
      (s'.body = s.body ∨ s'.body = f s.body) := by
  cases segs with
  | nil => exact ⟨s, [], by rw [sweep]; simp, .inl rfl⟩
  | cons next segs =>
    rw [sweep]
    split
    · exact ⟨_, _, rfl, .inr rfl⟩
    · exact ⟨_, _, rfl, .inl rfl⟩

theorem visited_sweep (hcloses : ∀ b, form.closes (f b) = form.closes b) :
    form.visited before (form.sweep f before segs) = (form.visited before segs).map f := by
  induction before, segs using visited.induct form with
  | case1 before s next segs hvisit ih =>
    rw [sweep, if_pos hvisit, visited, if_pos hvisit, visited, if_pos hvisit, ih]
    rfl
  | case2 before s next segs hvisit ih =>
    rw [sweep, if_neg hvisit, visited, if_neg hvisit, ← ih]
    obtain ⟨next', segs', hsweep, hbody⟩ := exists_sweep_cons form f s.body next segs
    have hsame : form.closes next'.body = form.closes next.body := by
      obtain hbody | hbody := hbody
      · rw [hbody]
      · rw [hbody, hcloses]
    rw [hsweep, visited, hsame, if_neg hvisit]
  | case3 segs before hshort =>
    rcases segs with - | ⟨s, - | ⟨next, segs⟩⟩
    · simp [sweep, visited]
    · simp [sweep, visited]
    · exact (hshort s next segs rfl).elim

theorem sweep_eq_self (h : ∀ b ∈ form.visited before segs, f b = b) :
    form.sweep f before segs = segs := by
  induction before, segs using visited.induct form with
  | case1 before s next segs hvisit ih =>
    rw [visited, if_pos hvisit] at h
    obtain ⟨hs, hsegs⟩ := List.forall_mem_cons.1 h
    rw [sweep, if_pos hvisit, ih hsegs, hs]
  | case2 before s next segs hvisit ih =>
    rw [visited, if_neg hvisit] at h
    rw [sweep, if_neg hvisit, ih h]
  | case3 segs before hshort =>
    rw [sweep]
    exact hshort

theorem forall₂_sweep :
    List.Forall₂ (fun s s' : Segment => s' = s ∨
      s.body ∈ form.visited before segs ∧ s' = { s with body := f s.body })
      segs (form.sweep f before segs) := by
  induction before, segs using visited.induct form with
  | case1 before s next segs hvisit ih =>
    rw [sweep, if_pos hvisit, visited, if_pos hvisit]
    refine .cons (.inr ⟨by simp, rfl⟩) (.cons (.inl rfl) (ih.imp ?_))
    rintro t t' (ht | ⟨ht, ht'⟩)
    · exact .inl ht
    · exact .inr ⟨List.mem_cons_of_mem _ ht, ht'⟩
  | case2 before s next segs hvisit ih =>
    rw [sweep, if_neg hvisit, visited, if_neg hvisit]
    exact .cons (.inl rfl) ih
  | case3 segs before hshort =>
    rw [sweep]
    · exact List.forall₂_same.2 fun s _ => .inl rfl
    · exact hshort

theorem mem_sweep {t : Segment} (h : t ∈ form.sweep f before segs) :
    t ∈ segs ∨ ∃ s ∈ segs, s.body ∈ form.visited before segs ∧ t = { s with body := f s.body } := by
  induction before, segs using visited.induct form with
  | case1 before s next segs hvisit ih =>
    rw [sweep, if_pos hvisit] at h
    rw [visited, if_pos hvisit]
    obtain rfl | rfl | h := by simpa using h
    · exact .inr ⟨s, by simp, by simp, rfl⟩
    · exact .inl (by simp)
    · obtain h | ⟨t', ht', hvisited, rfl⟩ := ih h
      · exact .inl (by simp [h])
      · exact .inr ⟨t', by simp [ht'], by simp [hvisited], rfl⟩
  | case2 before s next segs hvisit ih =>
    rw [sweep, if_neg hvisit] at h
    rw [visited, if_neg hvisit]
    obtain rfl | h := List.mem_cons.1 h
    · exact .inl List.mem_cons_self
    · obtain h | ⟨t', ht', hvisited, rfl⟩ := ih h
      · exact .inl (List.mem_cons_of_mem _ h)
      · exact .inr ⟨t', List.mem_cons_of_mem _ ht', hvisited, rfl⟩
  | case3 segs before hshort =>
    rw [sweep] at h
    · exact .inl h
    · exact hshort

theorem wellCut_sweep (hsegs : ∀ s ∈ segs, s.WellCut)
    (hplain : ∀ b ∈ form.visited before segs, IsPlain (f b)) :
    ∀ s ∈ form.sweep f before segs, s.WellCut := by
  intro t ht
  obtain ht | ⟨s, hs, hvisited, rfl⟩ := mem_sweep ht
  · exact hsegs t ht
  · exact ⟨(hsegs s hs).quote, hplain _ hvisited⟩

/-! ### A search between two others -/

/-- The literals of all references, also of those that end others. -/
def candidates (form : Form) : List Char → List Segment → List (List Char)
  | before, s :: next :: segs =>
    if form.opens before && form.closes next.body then
      s.body :: form.candidates s.body (next :: segs)
    else form.candidates s.body (next :: segs)
  | _, _ => []

theorem mem_candidates_cons : b ∈ form.candidates before (s :: next :: segs) ↔
    (form.opens before = true ∧ form.closes next.body = true ∧ b = s.body) ∨
      b ∈ form.candidates s.body (next :: segs) := by
  rw [candidates]
  split
  · rename_i h
    simp [Bool.and_eq_true_iff.1 h]
  · rename_i h
    simp only [Bool.and_eq_true] at h
    simp [← and_assoc, h]

theorem mem_candidates_of_tail (h : b ∈ form.candidates s.body segs) :
    b ∈ form.candidates before (s :: segs) := by
  cases segs with
  | nil => simp [candidates] at h
  | cons next segs => exact mem_candidates_cons.2 (.inr h)

theorem mem_candidates_of_visited (h : b ∈ form.visited before segs) :
    b ∈ form.candidates before segs := by
  induction before, segs using visited.induct form with
  | case1 before s next segs hvisit ih =>
    rw [visited, if_pos hvisit] at h
    obtain ⟨hopens, hcloses⟩ := Bool.and_eq_true_iff.1 hvisit
    cases List.mem_cons.1 h with
    | inl h => exact mem_candidates_cons.2 (.inl ⟨hopens, hcloses, h⟩)
    | inr h => exact mem_candidates_cons.2 (.inr (mem_candidates_of_tail (ih h)))
  | case2 before s next segs hvisit ih =>
    rw [visited, if_neg hvisit] at h
    exact mem_candidates_of_tail (ih h)
  | case3 segs before hshort =>
    rw [visited] at h
    · cases h
    · exact hshort

/-- A reference that is not visited ends another. -/
theorem visited_or_closes (h : b ∈ form.candidates before segs) :
    b ∈ form.visited before segs ∨ form.closes b = true := by
  induction before, segs using visited.induct form with
  | case1 before s next segs hvisit ih =>
    rw [visited, if_pos hvisit]
    obtain ⟨hopens, hcloses⟩ := Bool.and_eq_true_iff.1 hvisit
    obtain ⟨-, -, rfl⟩ | h := mem_candidates_cons.1 h
    · exact .inl List.mem_cons_self
    · cases segs with
      | nil => simp [candidates] at h
      | cons last segs =>
        obtain ⟨-, -, rfl⟩ | h := mem_candidates_cons.1 h
        · exact .inr hcloses
        · obtain h | h := ih h
          · exact .inl (List.mem_cons_of_mem _ h)
          · exact .inr h
  | case2 before s next segs hvisit ih =>
    rw [visited, if_neg hvisit]
    obtain ⟨hopens, hcloses, -⟩ | h := mem_candidates_cons.1 h
    · apply absurd _ hvisit
      apply Bool.and_eq_true_iff.2
      exact ⟨hopens, hcloses⟩
    · exact ih h
  | case3 segs before hshort =>
    rcases segs with - | ⟨s, - | ⟨next, segs⟩⟩
    · simp [candidates] at h
    · simp [candidates] at h
    · exact (hshort s next segs rfl).elim

/-- Segments with new bodies that open nothing hold no new candidate among those of interest. -/
theorem mem_candidates_of_forall₂ (live : List Char → Prop)
    (h : List.Forall₂ (fun s s' : Segment =>
      (form.opens s'.body = true → form.opens s.body = true) ∧
      (form.closes s'.body = true → form.closes s.body = true) ∧ (live s'.body → s'.body = s.body))
      segs segs')
    (hstart : form.opens start' = true → form.opens start = true)
    (hb : b ∈ form.candidates start' segs') (hlive : live b) : b ∈ form.candidates start segs := by
  induction h generalizing start start' with
  | nil => simp [candidates] at hb
  | @cons s s' segs segs' hs hsegs ih =>
    cases hsegs with
    | nil => simp [candidates] at hb
    | @cons next next' segs segs' hnext hsegs =>
      obtain ⟨hopens, hcloses, rfl⟩ | hb := mem_candidates_cons.1 hb
      · exact mem_candidates_cons.2 (.inl ⟨hstart hopens, hnext.2.1 hcloses, hs.2.2 hlive⟩)
      · exact mem_candidates_of_tail (ih hs.1 hb)

end Form

/-! ### Settled segments -/

namespace Form

variable {form : Form} {verdict : String → Resolution} {before b : List Char} {segs : List Segment}

theorem settledLiteral_of_none (h : (verdict (String.ofList b)).new? = none) :
    settledLiteral verdict b = b := by
  rw [settledLiteral, h]

theorem settledLiteral_of_some {new : String} (h : (verdict (String.ofList b)).new? = some new) :
    settledLiteral verdict b = new.toList := by
  rw [settledLiteral, h]

theorem exists_segment_of_visited (h : b ∈ form.visited before segs) :
    ∃ s ∈ segs, s.body = b := by
  induction before, segs using visited.induct form with
  | case1 before s next segs hvisit ih =>
    rw [visited, if_pos hvisit] at h
    obtain rfl | h := List.mem_cons.1 h
    · exact ⟨s, by simp, rfl⟩
    · obtain ⟨t, ht, rfl⟩ := ih h
      exact ⟨t, by simp [ht], rfl⟩
  | case2 before s next segs hvisit ih =>
    rw [visited, if_neg hvisit] at h
    obtain ⟨t, ht, rfl⟩ := ih h
    exact ⟨t, List.mem_cons_of_mem _ ht, rfl⟩
  | case3 segs before hshort =>
    rw [visited] at h
    · cases h
    · exact hshort

theorem settle_of_quiet (form : Form) (hbefore : IsPlain before)
    (hsegs : ∀ s ∈ segs, s.WellCut)
    (hquiet : ∀ b ∈ form.visited before segs, (verdict (String.ofList b)).new? = none) :
    form.settle verdict (before ++ joined segs) = before ++ joined segs ∧
      ∀ old ∈ form.literals (before ++ joined segs), (verdict old).new? = none := by
  obtain ⟨hsettle, hliterals⟩ := settle_joined verdict form hbefore hsegs rfl
  rw [hsettle, hliterals]
  constructor
  · rw [sweep_eq_self fun b hb => settledLiteral_of_none (hquiet b hb)]
  · intro old hold
    obtain ⟨b, hb, rfl⟩ := List.mem_map.1 hold
    exact hquiet b hb

end Form

/-! ### Settling a text twice -/

/-- A new reference that cannot pass for a part of others: no quote stands in it, and it does not
end as what stands before a reference. -/
def IsInert (new : String) : Prop :=
  IsPlain new.toList ∧ ∀ form : Form, form.opens new.toList = false

namespace Resolver

open Form

/-- Every stem has a first character, which is neither a dot nor a closing parenthesis. -/
def HasPlainStems (r : Resolver) : Prop :=
  ∀ rule ∈ r.rules, ∃ c cs, rule.stem.toList = c :: cs ∧ c ≠ '.' ∧ c ≠ ')'

variable {r : Resolver} {d : Disk} {file : Path}

theorem text_unaliased (text : String) :
    (r.unaliased d file text).text = String.ofList (statement.settle (r.verdict d file)
      (call.settle (r.verdict d file) text.toList)) := by
  rw [unaliased, unalias_run_eq]

theorem replacements_unaliased (text : String) :
    (r.unaliased d file text).outcome.replacements =
      (call.literals text.toList ++ statement.literals
        (call.settle (r.verdict d file) text.toList)).filterMap fun old =>
          (r.verdict d file old).new?.map fun new => (old, new) := by
  rw [unaliased, unalias_run_eq, List.filterMap_append]
  simp [Outcome.noting]

/-- Only what starts like a stem is replaced. -/
theorem head_of_new? (hstems : r.HasPlainStems) {b : List Char} {new : String}
    (h : (r.verdict d file (String.ofList b)).new? = some new) :
    ∃ c cs, b = c :: cs ∧ c ≠ '.' ∧ c ≠ ')' := by
  obtain ⟨rule, hrule, rest, hb⟩ := exists_rule_of_verdict h
  obtain ⟨c, cs, hstem, hdot, hparen⟩ := hstems rule hrule
  rw [String.toList_ofList, hstem] at hb
  exact ⟨c, cs ++ rest, hb, hdot, hparen⟩

theorem new?_settled (hstems : r.HasPlainStems) (b : List Char) :
    (r.verdict d file (String.ofList (settledLiteral (r.verdict d file) b))).new? = none := by
  cases h : (r.verdict d file (String.ofList b)).new? with
  | none => rw [settledLiteral_of_none h, h]
  | some new =>
    rw [settledLiteral_of_some h]
    apply Option.eq_none_iff_forall_ne_some.2
    intro new' hnew'
    obtain ⟨c, cs, hnew, hdot, -⟩ := head_of_new? hstems hnew'
    have hhead := head?_of_verdict h
    rw [hnew] at hhead
    exact hdot (Option.some.inj hhead)

theorem closes_call_of_ne {c : Char} {cs : List Char} (h : c ≠ ')') :
    call.closes (c :: cs) = false := by
  apply Bool.eq_false_iff.2
  intro hcloses
  obtain ⟨rest, hrest⟩ := closes_iff.1 hcloses
  exact h (List.cons.inj hrest).1

theorem closes_settled (hstems : r.HasPlainStems) (form : Form) (b : List Char) :
    form.closes (settledLiteral (r.verdict d file) b) = form.closes b := by
  cases h : (r.verdict d file (String.ofList b)).new? with
  | none => rw [settledLiteral_of_none h]
  | some new =>
    rw [settledLiteral_of_some h]
    cases form with
    | statement => rfl
    | call =>
      obtain ⟨c, cs, rfl, -, hparen⟩ := head_of_new? hstems h
      have hhead := head?_of_verdict h
      cases hnew : new.toList with
      | nil => simp [hnew] at hhead
      | cons c' cs' =>
        obtain rfl : c' = '.' := by simpa [hnew] using hhead
        rw [closes_call_of_ne hparen, closes_call_of_ne (by decide)]

section Twice

variable {before : List Char} {segs : List Segment}

theorem new?_visited_sweep (hstems : r.HasPlainStems) (form : Form) :
    ∀ b ∈ form.visited before (form.sweep (settledLiteral (r.verdict d file)) before segs),
      (r.verdict d file (String.ofList b)).new? = none := by
  intro b hb
  rw [visited_sweep (closes_settled hstems form)] at hb
  obtain ⟨b, -, rfl⟩ := List.mem_map.1 hb
  exact new?_settled hstems b

theorem settledLiteral_inert (hsegs : ∀ s ∈ segs, s.WellCut) {form : Form} {b : List Char}
    (hinert : ∀ b ∈ form.visited before segs, ∀ new,
      (r.verdict d file (String.ofList b)).new? = some new → IsInert new)
    (hb : b ∈ form.visited before segs) :
    IsPlain (settledLiteral (r.verdict d file) b) ∧
      (settledLiteral (r.verdict d file) b = b ∨
        ∀ form : Form, form.opens (settledLiteral (r.verdict d file) b) = false) := by
  cases h : (r.verdict d file (String.ofList b)).new? with
  | none =>
    obtain ⟨s, hs, rfl⟩ := exists_segment_of_visited hb
    rw [settledLiteral_of_none h]
    exact ⟨(hsegs s hs).body, .inl rfl⟩
  | some new =>
    rw [settledLiteral_of_some h]
    obtain ⟨hplain, hopens⟩ := hinert b hb new h
    exact ⟨hplain, .inr hopens⟩

/-- The search for calls stays quiet when the search for statements was made after it. -/
theorem quiet_call (hstems : r.HasPlainStems) (hsegs : ∀ s ∈ segs, s.WellCut)
    (hquiet : ∀ b ∈ call.visited before segs, (r.verdict d file (String.ofList b)).new? = none)
    (hinert : ∀ b ∈ statement.visited before segs, ∀ new,
      (r.verdict d file (String.ofList b)).new? = some new → IsInert new) :
    ∀ b ∈ call.visited before (statement.sweep (settledLiteral (r.verdict d file)) before segs),
      (r.verdict d file (String.ofList b)).new? = none := by
  intro b hb
  apply Option.eq_none_iff_forall_ne_some.2
  intro new hnew
  -- what the search for statements has put in place is no longer replaced and opens no call
  have hrel : List.Forall₂ (fun s s' : Segment =>
      (call.opens s'.body = true → call.opens s.body = true) ∧
      (call.closes s'.body = true → call.closes s.body = true) ∧
      ((r.verdict d file (String.ofList s'.body)).new? = some new → s'.body = s.body))
      segs (statement.sweep (settledLiteral (r.verdict d file)) before segs) := by
    apply forall₂_sweep.imp
    rintro s s' (rfl | ⟨hs, rfl⟩)
    · exact ⟨id, id, fun _ => rfl⟩
    · refine ⟨?_, ?_, ?_⟩
      · obtain ⟨-, hsame | hopens⟩ := settledLiteral_inert hsegs hinert hs
        · simp [hsame]
        · simp [hopens call]
      · simp [closes_settled hstems]
      · simp [new?_settled hstems]
  have hcandidate : b ∈ call.candidates before segs :=
    mem_candidates_of_forall₂ (fun b => (r.verdict d file (String.ofList b)).new? = some new) hrel
      id (mem_candidates_of_visited hb) hnew
  obtain hvisited | hcloses := visited_or_closes hcandidate
  · rw [hquiet b hvisited] at hnew
    cases hnew
  · obtain ⟨c, cs, rfl, -, hparen⟩ := head_of_new? hstems hnew
    rw [closes_call_of_ne hparen] at hcloses
    cases hcloses

/-- A text whose references are all kept is left as it is. -/
theorem unaliased_of_quiet (hbefore : IsPlain before) (hsegs : ∀ s ∈ segs, s.WellCut)
    (hquiet : ∀ form : Form, ∀ b ∈ form.visited before segs,
      (r.verdict d file (String.ofList b)).new? = none) :
    (r.unaliased d file (String.ofList (before ++ joined segs))).text =
        String.ofList (before ++ joined segs) ∧
      (r.unaliased d file (String.ofList (before ++ joined segs))).outcome.replacements = [] := by
  obtain ⟨hcall, hcalls⟩ := settle_of_quiet call hbefore hsegs (hquiet call)
  obtain ⟨hstatement, hstatements⟩ := settle_of_quiet statement hbefore hsegs (hquiet statement)
  constructor
  · rw [text_unaliased, String.toList_ofList, hcall, hstatement]
  · rw [replacements_unaliased, String.toList_ofList, hcall]
    apply List.filterMap_eq_nil_iff.2
    intro old hold
    have hnone : (r.verdict d file old).new? = none := by
      cases List.mem_append.1 hold with
      | inl hold => exact hcalls old hold
      | inr hold => exact hstatements old hold
    rw [hnone]
    rfl

end Twice

/-- After both searches neither finds a reference to replace. -/
theorem exists_quiet_cut (hstems : r.HasPlainStems) (text : String)
    (hinert : ∀ pair ∈ (r.unaliased d file text).outcome.replacements, IsInert pair.2) :
    ∃ before segs, IsPlain before ∧ (∀ s ∈ segs, s.WellCut) ∧
      (r.unaliased d file text).text = String.ofList (before ++ joined segs) ∧
      ∀ form : Form, ∀ b ∈ form.visited before segs,
        (r.verdict d file (String.ofList b)).new? = none := by
  let verdict := r.verdict d file
  obtain ⟨before, segs, hbefore, hsegs, htext⟩ := exists_cut text.toList
  obtain ⟨hfirst, hcalls⟩ := settle_joined verdict call hbefore hsegs rfl
  have hreplaced : ∀ b new, String.ofList b ∈ call.literals text.toList ++ statement.literals
      (call.settle verdict text.toList) → (verdict (String.ofList b)).new? = some new →
      IsInert new := by
    intro b new hb hnew
    apply hinert (String.ofList b, new)
    rw [replacements_unaliased]
    exact List.mem_filterMap.2 ⟨_, hb, by rw [hnew]; rfl⟩
  rw [htext, hfirst, hcalls] at hreplaced
  -- after the search for calls
  let segs₁ := call.sweep (settledLiteral verdict) before segs
  have hinert₁ : ∀ b ∈ call.visited before segs, ∀ new,
      (verdict (String.ofList b)).new? = some new → IsInert new := by
    intro b hb new hnew
    apply hreplaced b new _ hnew
    apply List.mem_append_left
    exact List.mem_map_of_mem hb
  have hsegs₁ : ∀ s ∈ segs₁, s.WellCut :=
    wellCut_sweep hsegs fun b hb => (settledLiteral_inert hsegs hinert₁ hb).1
  have hquiet₁ : ∀ b ∈ call.visited before segs₁, (verdict (String.ofList b)).new? = none :=
    new?_visited_sweep hstems call
  obtain ⟨hsecond, hstatements⟩ := settle_joined verdict statement hbefore hsegs₁ rfl
  -- after the search for statements
  let segs₂ := statement.sweep (settledLiteral verdict) before segs₁
  have hinert₂ : ∀ b ∈ statement.visited before segs₁, ∀ new,
      (verdict (String.ofList b)).new? = some new → IsInert new := by
    intro b hb new hnew
    apply hreplaced b new (List.mem_append_right _ _) hnew
    rw [hstatements]
    exact List.mem_map_of_mem hb
  have hsegs₂ : ∀ s ∈ segs₂, s.WellCut :=
    wellCut_sweep hsegs₁ fun b hb => (settledLiteral_inert hsegs₁ hinert₂ hb).1
  refine ⟨before, segs₂, hbefore, hsegs₂, ?_, ?_⟩
  · rw [text_unaliased, htext, hfirst, hsecond]
  · intro form
    cases form with
    | call => exact quiet_call hstems hsegs₁ hquiet₁ hinert₂
    | statement => exact new?_visited_sweep hstems statement

/-- A text in which the references were replaced is left as it is. -/
theorem unaliased_unaliased (hstems : r.HasPlainStems) (text : String)
    (hinert : ∀ pair ∈ (r.unaliased d file text).outcome.replacements, IsInert pair.2) :
    (r.unaliased d file (r.unaliased d file text).text).text = (r.unaliased d file text).text ∧
      (r.unaliased d file (r.unaliased d file text).text).outcome.replacements = [] := by
  obtain ⟨before, segs, hbefore, hsegs, htext, hquiet⟩ := exists_quiet_cut hstems text hinert
  rw [htext]
  exact unaliased_of_quiet hbefore hsegs hquiet

end Resolver

end Unalias
