import Unalias.Proofs.Reference.Verdict

/-!
A text cut at its quotes. A reference is what stands between two quotes, with a keyword and a
separator right before the first and the closing of its form right behind the second, so that the
references of a text can be read off the segments between its quotes.
-/

namespace Unalias

def IsPlain (cs : List Char) : Prop :=
  ∀ c ∈ cs, isQuote c = false

instance : DecidablePred IsPlain := fun cs =>
  decidable_of_iff (cs.all fun c => !isQuote c) (by simp [IsPlain])

/-- A quote and what follows it up to the next. -/
structure Segment where
  quote : Char
  body : List Char

namespace Segment

structure WellCut (s : Segment) : Prop where
  quote : isQuote s.quote = true
  body : IsPlain s.body

def text (s : Segment) : List Char :=
  s.quote :: s.body

def joined (segs : List Segment) : List Char :=
  segs.flatMap text

theorem joined_cons (s : Segment) (segs : List Segment) :
    joined (s :: segs) = s.quote :: (s.body ++ joined segs) :=
  List.flatMap_cons

theorem isQuote_of_joined {segs : List Segment} (hsegs : ∀ s ∈ segs, s.WellCut) {c : Char}
    {cs : List Char} (h : joined segs = c :: cs) : isQuote c = true := by
  cases segs with
  | nil => cases h
  | cons s segs =>
    rw [joined_cons] at h
    obtain ⟨rfl, -⟩ := List.cons.inj h
    exact (hsegs s List.mem_cons_self).quote

theorem exists_cut (text : List Char) :
    ∃ before segs, IsPlain before ∧ (∀ s ∈ segs, s.WellCut) ∧ text = before ++ joined segs := by
  induction text with
  | nil => exact ⟨[], [], by simp [IsPlain], by simp, rfl⟩
  | cons c text ih =>
    obtain ⟨before, segs, hbefore, hsegs, rfl⟩ := ih
    by_cases hc : isQuote c = true
    · refine ⟨[], ⟨c, before⟩ :: segs, by simp [IsPlain], ?_, ?_⟩
      · exact List.forall_mem_cons.2 ⟨⟨hc, hbefore⟩, hsegs⟩
      · rw [joined_cons]
        rfl
    · refine ⟨c :: before, segs, ?_, hsegs, rfl⟩
      exact List.forall_mem_cons.2 ⟨Bool.eq_false_iff.2 hc, hbefore⟩

end Segment

open Segment

namespace Form

/-- What stands before the first quote of a reference. -/
def openings (form : Form) : List (List Char) :=
  form.keywords.map (· ++ [form.separator])

def opens (form : Form) (before : List Char) : Bool :=
  form.openings.any (·.isSuffixOf before)

def closes (form : Form) (body : List Char) : Bool :=
  form.closing.isPrefixOf body

/-- The literals of the references that the search takes. A segment that ends a reference does not
start the next. -/
def visited (form : Form) : List Char → List Segment → List (List Char)
  | before, s :: next :: segs =>
    if form.opens before && form.closes next.body then s.body :: form.visited next.body segs
    else form.visited s.body (next :: segs)
  | _, _ => []

/-- The segments with `f` of those literals in their place. -/
def sweep (form : Form) (f : List Char → List Char) : List Char → List Segment → List Segment
  | before, s :: next :: segs =>
    if form.opens before && form.closes next.body then
      { s with body := f s.body } :: next :: form.sweep f next.body segs
    else s :: form.sweep f s.body (next :: segs)
  | _, segs => segs

variable {form : Form} {before body cs : List Char} {segs : List Segment}

/-! ### Keywords -/

theorem isPlain_of_mem_openings {o : List Char} (h : o ∈ form.openings) : IsPlain o := by
  cases form <;> revert o <;> decide

theorem opens_iff : form.opens before = true ↔ ∃ o ∈ form.openings, o <:+ before := by
  simp [opens]

theorem eq_of_suffix_openings {o o' : List Char} (h : o ∈ form.openings)
    (h' : o' ∈ form.openings) (hs : o <:+ o') : o = o' := by
  have hall : ∀ p ∈ form.openings, ∀ p' ∈ form.openings, p.isSuffixOf p' → p = p' := by
    cases form <;> decide
  exact hall o h o' h' (List.isSuffixOf_iff_suffix.2 hs)

theorem eq_nil_of_openings {o : List Char} (h : o ∈ form.openings)
    (h' : cs ++ o ∈ form.openings) : cs = [] := by
  have ho := eq_of_suffix_openings h h' (List.suffix_append cs o)
  simpa using ho

/-- Behind a closing the search starts anew. -/
theorem opens_closing (rest : List Char) : form.opens (form.closing ++ rest) = form.opens rest := by
  cases form with
  | statement => rfl
  | call =>
    have hhead : ∀ o ∈ call.openings, o.head? ≠ some ')' := by decide
    apply Bool.eq_iff_iff.2
    rw [opens_iff, opens_iff]
    constructor
    · rintro ⟨o, ho, hs⟩
      cases List.suffix_cons_iff.1 hs with
      | inl he =>
        apply absurd _ (hhead o ho)
        simp [he]
      | inr hs => exact ⟨o, ho, hs⟩
    · rintro ⟨o, ho, hs⟩
      exact ⟨o, ho, List.suffix_cons_iff.2 (.inr hs)⟩

/-! ### Matches -/

theorem closing_isPrefixOf? (hsegs : ∀ s ∈ segs, s.WellCut) :
    form.closing.isPrefixOf? (body ++ joined segs) =
      (form.closing.isPrefixOf? body).map (· ++ joined segs) := by
  cases form with
  | statement => rfl
  | call =>
    simp only [closing]
    cases body with
    | nil =>
      cases h : joined segs with
      | nil => rfl
      | cons c cs =>
        have hc : ')' ≠ c := by
          rintro rfl
          have hquote := isQuote_of_joined hsegs h
          revert hquote
          decide
        rw [List.nil_append, Text.isPrefixOf?_cons, if_neg (by simpa using hc)]
        rfl
    | cons c cs =>
      rw [List.cons_append, Text.isPrefixOf?_cons, Text.isPrefixOf?_cons]
      split <;> rfl

/-- Whether the first of some segments is closed by the next. -/
def isClosed (form : Form) : List Segment → Bool
  | _ :: next :: _ => form.closes next.body
  | _ => false

theorem closes_iff : form.closes body = true ↔ ∃ rest, body = form.closing ++ rest := by
  rw [closes, List.isPrefixOf_iff_prefix]
  constructor
  · rintro ⟨rest, rfl⟩
    exact ⟨rest, rfl⟩
  · rintro ⟨rest, rfl⟩
    exact List.prefix_append _ _

theorem quoted?_eq (s next : Segment) (rest : List Char) (hs : s.WellCut)
    (hnext : isQuote next.quote = true) (hbody : next.body = form.closing ++ rest) :
    form.quoted? before (joined (s :: next :: segs)) =
      some (⟨before ++ [s.quote], s.body, next.quote :: form.closing⟩, rest ++ joined segs) := by
  have hplain : ∀ c ∈ s.body, (!isQuote c) = true := fun c hc => by simp [hs.body c hc]
  rw [joined_cons, joined_cons, quoted?, if_pos hs.quote, List.dropWhile_append_of_pos hplain,
    List.takeWhile_append_of_pos hplain]
  simp [hnext, hbody, Text.isPrefixOf?_append]

theorem quoted?_eq_none (hsegs : ∀ s ∈ segs, s.WellCut) (hclosed : form.isClosed segs = false) :
    form.quoted? before (joined segs) = none := by
  cases segs with
  | nil => rfl
  | cons s segs =>
    obtain ⟨hs, hsegs⟩ := List.forall_mem_cons.1 hsegs
    have hplain : ∀ c ∈ s.body, (!isQuote c) = true := fun c hc => by simp [hs.body c hc]
    rw [joined_cons, quoted?, if_pos hs.quote, List.dropWhile_append_of_pos hplain]
    cases segs with
    | nil => rfl
    | cons next segs =>
      obtain ⟨hnext, hsegs⟩ := List.forall_mem_cons.1 hsegs
      have hnone : form.closing.isPrefixOf? next.body = none := by
        apply Option.eq_none_iff_forall_ne_some.2
        intro rest hrest
        have hcloses := closes_iff.2 ⟨rest, Text.append_of_isPrefixOf? hrest⟩
        exact absurd (hcloses.symm.trans hclosed) (by simp)
      simp [joined_cons, hnext.quote, closing_isPrefixOf? hsegs, hnone]

/-- A plain text ends right before the first quote. -/
theorem eq_of_append_quote {o rest : List Char} {q : Char} (ho : IsPlain o)
    (hbefore : IsPlain before) (hsegs : ∀ s ∈ segs, s.WellCut) (hq : isQuote q = true)
    (h : before ++ joined segs = o ++ q :: rest) : before = o := by
  obtain ⟨cs, rfl, hcs⟩ | ⟨cs, rfl, hcs⟩ := List.append_eq_append_iff.1 h
  · cases cs with
    | nil => simp
    | cons c cs =>
      have hquote := isQuote_of_joined hsegs hcs
      have hplain := ho c (by simp)
      rw [hquote] at hplain
      cases hplain
  · cases cs with
    | nil => simp
    | cons c cs =>
      obtain ⟨rfl, -⟩ := List.cons.inj hcs
      have hplain := hbefore q (by simp)
      rw [hq] at hplain
      cases hplain

theorem after?_self (keyword rest : List Char) :
    form.after? keyword (keyword ++ [form.separator] ++ rest) =
      form.quoted? (keyword ++ [form.separator]) rest := by
  rw [after?, Text.isPrefixOf?_append]

theorem after?_eq_none {keyword : List Char} (ho : IsPlain (keyword ++ [form.separator]))
    (hbefore : IsPlain before) (hsegs : ∀ s ∈ segs, s.WellCut)
    (hne : before ≠ keyword ++ [form.separator]) :
    form.after? keyword (before ++ joined segs) = none := by
  rw [after?]
  split
  · rfl
  · rename_i rest hrest
    have htext := Text.append_of_isPrefixOf? hrest
    cases rest with
    | nil => rfl
    | cons q rest =>
      rw [quoted?]
      apply if_neg
      intro hq
      exact hne (eq_of_append_quote ho hbefore hsegs hq htext)

theorem match?_eq_quoted? (hbefore : IsPlain before) (hsegs : ∀ s ∈ segs, s.WellCut)
    (ho : before ∈ form.openings) :
    form.match? (before ++ joined segs) = form.quoted? before (joined segs) := by
  obtain ⟨keyword, hkeyword, rfl⟩ := List.mem_map.1 ho
  cases h : form.match? (keyword ++ [form.separator] ++ joined segs) with
  | none =>
    have hnone := List.findSome?_eq_none_iff.1 h keyword hkeyword
    rw [← hnone, after?_self]
  | some found =>
    obtain ⟨keyword', hkeyword', hfound⟩ := List.exists_of_findSome?_eq_some h
    by_cases he : keyword ++ [form.separator] = keyword' ++ [form.separator]
    · rw [he, after?_self] at hfound
      rw [he, hfound]
    · have hplain := isPlain_of_mem_openings (List.mem_map_of_mem hkeyword')
      rw [after?_eq_none hplain hbefore hsegs he] at hfound
      cases hfound

theorem match?_eq_none (hbefore : IsPlain before) (hsegs : ∀ s ∈ segs, s.WellCut)
    (h : before ∈ form.openings → form.isClosed segs = false) :
    form.match? (before ++ joined segs) = none := by
  by_cases ho : before ∈ form.openings
  · rw [match?_eq_quoted? hbefore hsegs ho, quoted?_eq_none hsegs (h ho)]
  · apply List.findSome?_eq_none_iff.2
    intro keyword hkeyword
    have hmem : keyword ++ [form.separator] ∈ form.openings := List.mem_map_of_mem hkeyword
    apply after?_eq_none (isPlain_of_mem_openings hmem) hbefore hsegs
    rintro rfl
    exact ho hmem

/-! ### The search -/

theorem pieces_of_match? {c : Char} {rest : List Char} {o : Occurrence}
    (h : form.match? (c :: cs) = some (o, rest)) :
    form.pieces (c :: cs) = .reference o :: form.pieces rest := by
  rw [pieces]
  split
  · rename_i o' rest' h'
    cases h.symm.trans h'
    rfl
  · rename_i h'
    cases h.symm.trans h'

theorem pieces_of_none {c : Char} (h : form.match? (c :: cs) = none) :
    form.pieces (c :: cs) = .plain c :: form.pieces cs := by
  rw [pieces]
  split
  · rename_i h'
    cases h.symm.trans h'
  · rfl

theorem pieces_append (h : ∀ x y, x ++ y = before → y ≠ [] → form.match? (y ++ cs) = none) :
    form.pieces (before ++ cs) = before.map .plain ++ form.pieces cs := by
  induction before with
  | nil => rfl
  | cons c before ih =>
    have hc : form.match? (c :: (before ++ cs)) = none := h [] (c :: before) rfl (by simp)
    rw [List.cons_append, pieces_of_none hc, ih]
    · rfl
    · intro x y hxy hy
      exact h (c :: x) y (by rw [List.cons_append, hxy]) hy

theorem pieces_of_closed (hbefore : IsPlain before) (hsegs : ∀ s ∈ segs, s.WellCut)
    (h : form.opens before = true → form.isClosed segs = false) :
    form.pieces (before ++ joined segs) = before.map .plain ++ form.pieces (joined segs) := by
  apply pieces_append
  rintro x y rfl -
  apply match?_eq_none (fun c hc => hbefore c (List.mem_append_right _ hc)) hsegs
  intro ho
  apply h
  apply opens_iff.2
  exact ⟨y, ho, List.suffix_append x y⟩

/-- A quote starts no reference. -/
theorem pieces_joined_cons (s : Segment) (hsegs : ∀ t ∈ s :: segs, t.WellCut) :
    form.pieces (joined (s :: segs)) = .plain s.quote :: form.pieces (s.body ++ joined segs) := by
  have hnil : [] ∉ form.openings := by cases form <;> decide
  have hnone : form.match? ([] ++ joined (s :: segs)) = none :=
    match?_eq_none (by simp [IsPlain]) hsegs fun ho => absurd ho hnil
  rw [joined_cons]
  rw [List.nil_append, joined_cons] at hnone
  exact pieces_of_none hnone

theorem pieces_of_opens (s next : Segment) {o rest : List Char}
    (hplain : IsPlain (before ++ o)) (hsegs : ∀ t ∈ s :: next :: segs, t.WellCut)
    (ho : o ∈ form.openings) (hbody : next.body = form.closing ++ rest) :
    form.pieces (before ++ o ++ joined (s :: next :: segs)) =
      before.map .plain ++
        .reference ⟨o ++ [s.quote], s.body, next.quote :: form.closing⟩ ::
          form.pieces (rest ++ joined segs) := by
  obtain ⟨hs, hrest⟩ := List.forall_mem_cons.1 hsegs
  obtain ⟨hnext, _⟩ := List.forall_mem_cons.1 hrest
  have ho' : IsPlain o := fun c hc => hplain c (List.mem_append_right _ hc)
  rw [List.append_assoc, pieces_append]
  · congr 1
    have hmatch := match?_eq_quoted? ho' hsegs ho
    rw [quoted?_eq s next rest hs hnext.quote hbody] at hmatch
    cases o with
    | nil => exact absurd ho (by cases form <;> decide)
    | cons c o => exact pieces_of_match? hmatch
  · rintro x y rfl hy
    rw [← List.append_assoc]
    apply match?_eq_none _ hsegs
    · intro hmem
      exact absurd (eq_nil_of_openings ho hmem) hy
    · intro c hc
      apply hplain c
      rw [List.append_assoc]
      exact List.mem_append_right _ hc

/-! ### Settled texts -/

/-- What a literal becomes once verdicts are passed. -/
def settledLiteral (verdict : String → Resolution) (literal : List Char) : List Char :=
  match (verdict (String.ofList literal)).new? with
  | none => literal
  | some new => new.toList

theorem settled_reference (verdict : String → Resolution) (o : Occurrence) :
    (Piece.reference o).settled verdict =
      o.opening ++ settledLiteral verdict o.literal ++ o.closing := by
  simp only [Piece.settled, settledLiteral]
  cases (verdict (String.ofList o.literal)).new? <;> rfl

theorem flatMap_plain (verdict : String → Resolution) (cs : List Char) :
    (cs.map Piece.plain).flatMap (Piece.settled verdict) = cs := by
  rw [List.flatMap_map]
  exact List.flatMap_singleton' cs

theorem filterMap_plain (cs : List Char) : (cs.map Piece.plain).filterMap Piece.literal? = [] := by
  simp [List.filterMap_map, Piece.literal?]

variable (verdict : String → Resolution)

theorem settle_of_pieces {x : List Char} {o : Occurrence} (hpieces : form.pieces cs =
    before.map .plain ++ .reference o :: form.pieces x) :
    form.settle verdict cs = before ++ (o.opening ++ settledLiteral verdict o.literal ++
        o.closing) ++ form.settle verdict x ∧
      form.literals cs = String.ofList o.literal :: form.literals x := by
  rw [settle, literals, hpieces]
  simp only [List.flatMap_append, List.flatMap_cons, flatMap_plain, settled_reference,
    List.filterMap_append, filterMap_plain]
  simp [settle, literals, Piece.literal?]

theorem settle_of_plain {x : List Char} (hpieces : form.pieces cs =
    before.map .plain ++ form.pieces x) :
    form.settle verdict cs = before ++ form.settle verdict x ∧
      form.literals cs = form.literals x := by
  rw [settle, literals, hpieces]
  simp only [List.flatMap_append, flatMap_plain, List.filterMap_append, filterMap_plain]
  exact ⟨rfl, rfl⟩

theorem settle_nil (hbefore : IsPlain before) :
    form.settle verdict before = before ∧ form.literals before = [] := by
  have hpieces : form.pieces (before ++ joined []) = before.map .plain ++ form.pieces (joined []) :=
    pieces_of_closed hbefore (by simp) fun _ => rfl
  have h := settle_of_plain verdict hpieces
  have hnil : form.pieces [] = [] := by rw [pieces]
  simpa [joined, settle, literals, hnil] using h

/-- The search passes over a segment that it does not visit. -/
theorem settle_pass (s : Segment) (hbefore : IsPlain before)
    (hsegs : ∀ t ∈ s :: segs, t.WellCut)
    (hclosed : form.opens before = true → form.isClosed (s :: segs) = false) :
    form.settle verdict (before ++ joined (s :: segs)) =
        before ++ s.quote :: form.settle verdict (s.body ++ joined segs) ∧
      form.literals (before ++ joined (s :: segs)) = form.literals (s.body ++ joined segs) := by
  have hpieces : form.pieces (before ++ joined (s :: segs)) =
      (before ++ [s.quote]).map .plain ++ form.pieces (s.body ++ joined segs) := by
    rw [pieces_of_closed hbefore hsegs hclosed, pieces_joined_cons s hsegs]
    simp
  obtain ⟨hsettle, hliterals⟩ := settle_of_plain verdict hpieces
  rw [hsettle, hliterals]
  simp

theorem settle_joined (form : Form) (hbefore : IsPlain before)
    (hsegs : ∀ s ∈ segs, s.WellCut) {start : List Char}
    (hstart : form.opens start = form.opens before) :
    form.settle verdict (before ++ joined segs) =
        before ++ joined (form.sweep (settledLiteral verdict) start segs) ∧
      form.literals (before ++ joined segs) = (form.visited start segs).map String.ofList := by
  induction start, segs using visited.induct form generalizing before with
  | case1 start s next segs hvisit ih =>
    rw [visited, sweep, if_pos hvisit, if_pos hvisit]
    obtain ⟨hopens, hcloses⟩ := Bool.and_eq_true_iff.1 hvisit
    obtain ⟨rest, hbody⟩ := closes_iff.1 hcloses
    rw [hstart] at hopens
    obtain ⟨o, ho, x, rfl⟩ := opens_iff.1 hopens
    have hnext := hsegs next (by simp)
    have hrest : IsPlain rest := fun c hc => hnext.body c (hbody ▸ List.mem_append_right _ hc)
    have hrestart : form.opens next.body = form.opens rest := by rw [hbody, opens_closing]
    obtain ⟨hsettle, hliterals⟩ := ih hrest (fun t ht => hsegs t (by simp [ht])) hrestart
    have hpieces := pieces_of_opens s next hbefore hsegs ho hbody
    obtain ⟨hsettle', hliterals'⟩ := settle_of_pieces verdict hpieces
    rw [hsettle', hliterals', hsettle, hliterals]
    simp [joined_cons, hbody]
  | case2 start s next segs hvisit ih =>
    rw [visited, sweep, if_neg hvisit, if_neg hvisit]
    have hclosed : form.opens before = true → form.isClosed (s :: next :: segs) = false := by
      intro hopens
      rw [hstart, hopens, Bool.true_and] at hvisit
      exact Bool.eq_false_iff.2 hvisit
    obtain ⟨hsettle, hliterals⟩ := settle_pass verdict s hbefore hsegs hclosed
    obtain ⟨hsettle', hliterals'⟩ :=
      ih (hsegs s (by simp)).body (fun t ht => hsegs t (by simp [ht])) rfl
    rw [hsettle, hliterals, hsettle', hliterals']
    simp [joined_cons]
  | case3 segs start hshort =>
    have hbare : ∀ {cs : List Char}, IsPlain cs →
        form.settle verdict cs = cs ∧ form.literals cs = [] := settle_nil verdict
    rcases segs with - | ⟨s, - | ⟨next, segs⟩⟩
    · have h := hbare hbefore
      simpa [joined, sweep, visited] using h
    · have hclosed : form.opens before = true → form.isClosed [s] = false := fun _ => rfl
      obtain ⟨hsettle, hliterals⟩ := settle_pass verdict s hbefore hsegs hclosed
      obtain ⟨hsettle', hliterals'⟩ := hbare (hsegs s (by simp)).body
      have hnil : s.body ++ joined [] = s.body := List.append_nil _
      rw [hsettle, hliterals, hnil, hsettle', hliterals']
      simp [joined, sweep, visited, text]
    · exact (hshort s next segs rfl).elim

end Form

end Unalias
