import Unalias.Proofs.Reference.Stability

/-!
Where the references of a text stand. The quotes of a text cut it into segments, and a reference is
told by the number of its segment, which is the number of quotes before its literal. What the
search visits are segments apart from each other, so that the text before a visited segment is
never itself visited.
-/

namespace Unalias

open Segment

/-- The texts before, between and behind the quotes. -/
def Text.segments (text : List Char) : List (List Char) :=
  text.splitOnP isQuote

def Text.quotes (text : List Char) : List Char :=
  text.filter isQuote

/-- For each reference, the number of its segment. -/
def Piece.numbers : List Piece → List Nat
  | [] => []
  | .plain c :: ps => (numbers ps).map ((Text.quotes [c]).length + ·)
  | .reference o :: ps =>
    (Text.quotes o.opening).length :: (numbers ps).map ((Text.quotes o.text).length + ·)

namespace Form

/-- The numbers of the segments that the search for a form visits. -/
def visits (form : Form) (text : List Char) : List Nat :=
  Piece.numbers (form.pieces text)

/-- The same, told from the segments. -/
def spots (form : Form) : List (List Char) → List Nat
  | before :: body :: next :: bodies =>
    if form.opens before && form.closes next then
      1 :: (form.spots (next :: bodies)).map (· + 2)
    else (form.spots (body :: next :: bodies)).map (· + 1)
  | _ => []

end Form

/-! ### Texts and their segments -/

namespace Text

variable {before before' cs cs' : List Char} {segs segs' : List Segment}

theorem quotes_of_isPlain (h : IsPlain cs) : quotes cs = [] :=
  List.filter_eq_nil_iff.2 fun c hc => by simp [h c hc]

theorem quotes_append (cs cs' : List Char) : quotes (cs ++ cs') = quotes cs ++ quotes cs' :=
  List.filter_append cs cs'

theorem quotes_cons {q : Char} (h : isQuote q = true) (cs : List Char) :
    quotes (q :: cs) = q :: quotes cs :=
  List.filter_cons_of_pos h

theorem quotes_joined (hsegs : ∀ s ∈ segs, s.WellCut) :
    quotes (joined segs) = segs.map Segment.quote := by
  induction segs with
  | nil => rfl
  | cons s segs ih =>
    obtain ⟨hs, hrest⟩ := List.forall_mem_cons.1 hsegs
    rw [joined_cons, quotes_cons hs.quote, quotes_append, quotes_of_isPlain hs.body, ih hrest]
    rfl

theorem quotes_cut (hbefore : IsPlain before) (hsegs : ∀ s ∈ segs, s.WellCut) :
    quotes (before ++ joined segs) = segs.map Segment.quote := by
  rw [quotes_append, quotes_of_isPlain hbefore, quotes_joined hsegs, List.nil_append]

theorem segments_cut (hbefore : IsPlain before) (hsegs : ∀ s ∈ segs, s.WellCut) :
    segments (before ++ joined segs) = before :: segs.map Segment.body := by
  induction segs generalizing before with
  | nil =>
    rw [joined, List.flatMap_nil, List.append_nil]
    exact List.splitOnP_eq_singleton fun c hc => by simp [hbefore c hc]
  | cons s segs ih =>
    obtain ⟨hs, hrest⟩ := List.forall_mem_cons.1 hsegs
    rw [joined_cons, segments, List.splitOnP_append_cons_of_forall_mem]
    · exact congrArg (before :: ·) (ih hs.body hrest)
    · exact fun c hc => by simp [hbefore c hc]
    · exact hs.quote

/-- A text is known from its quotes and its segments. -/
theorem eq_of_segments (hquotes : quotes cs = quotes cs') (hsegments : segments cs = segments cs') :
    cs = cs' := by
  obtain ⟨before, segs, hbefore, hsegs, rfl⟩ := exists_cut cs
  obtain ⟨before', segs', hbefore', hsegs', rfl⟩ := exists_cut cs'
  rw [quotes_cut hbefore hsegs, quotes_cut hbefore' hsegs'] at hquotes
  rw [segments_cut hbefore hsegs, segments_cut hbefore' hsegs'] at hsegments
  obtain ⟨rfl, hbodies⟩ := List.cons.inj hsegments
  have hzip : ∀ segs : List Segment,
      (segs.map Segment.quote).zipWith Segment.mk (segs.map Segment.body) = segs := by
    intro segs
    rw [List.zipWith_map, List.zipWith_self, List.map_id']
  rw [← hzip segs, ← hzip segs', hquotes, hbodies]

end Text

/-! ### Numbers of references -/

namespace Piece

theorem numbers_append_plain (cs : List Char) (ps : List Piece) :
    numbers (cs.map .plain ++ ps) = (numbers ps).map ((Text.quotes cs).length + ·) := by
  induction cs with
  | nil => simp [Text.quotes]
  | cons c cs ih =>
    rw [List.map_cons, List.cons_append, numbers, ih, List.map_map]
    apply List.map_congr_left
    intro n _
    have hcons := Text.quotes_append [c] cs
    rw [List.singleton_append] at hcons
    simp only [Function.comp_apply, hcons, List.length_append, Nat.add_assoc]

end Piece

namespace Form

variable {form : Form} {before start : List Char} {segs : List Segment}

theorem spots_of_visit {body next : List Char} {bodies : List (List Char)}
    (h : (form.opens before && form.closes next) = true) :
    form.spots (before :: body :: next :: bodies) =
      1 :: (form.spots (next :: bodies)).map (· + 2) := by
  rw [spots, if_pos h]

theorem spots_of_pass {body next : List Char} {bodies : List (List Char)}
    (h : ¬(form.opens before && form.closes next) = true) :
    form.spots (before :: body :: next :: bodies) =
      (form.spots (body :: next :: bodies)).map (· + 1) := by
  rw [spots, if_neg h]

theorem visits_nil (hbefore : IsPlain before) : form.visits before = [] := by
  have hpieces : form.pieces (before ++ joined []) = before.map .plain ++ form.pieces (joined []) :=
    pieces_of_closed hbefore (by simp) fun _ => rfl
  have hnil : form.pieces [] = [] := by rw [pieces]
  have hcut : before = before ++ joined [] := (List.append_nil before).symm
  rw [visits, hcut, hpieces, Piece.numbers_append_plain]
  simp [joined, hnil, Piece.numbers]

theorem visits_pass (s : Segment) (hbefore : IsPlain before) (hsegs : ∀ t ∈ s :: segs, t.WellCut)
    (hclosed : form.opens before = true → form.isClosed (s :: segs) = false) :
    form.visits (before ++ joined (s :: segs)) =
      (form.visits (s.body ++ joined segs)).map (· + 1) := by
  have hquotes : Text.quotes (before ++ [s.quote]) = [s.quote] := by
    rw [Text.quotes_append, Text.quotes_of_isPlain hbefore,
      Text.quotes_cons (hsegs s (by simp)).quote]
    rfl
  have hpieces : form.pieces (before ++ joined (s :: segs)) =
      (before ++ [s.quote]).map .plain ++ form.pieces (s.body ++ joined segs) := by
    rw [pieces_of_closed hbefore hsegs hclosed, pieces_joined_cons s hsegs]
    simp
  rw [visits, hpieces, Piece.numbers_append_plain, hquotes]
  exact List.map_congr_left fun n _ => Nat.add_comm 1 n

theorem visits_of_opens (s next : Segment) {o rest : List Char} (hplain : IsPlain (before ++ o))
    (hsegs : ∀ t ∈ s :: next :: segs, t.WellCut) (ho : o ∈ form.openings)
    (hbody : next.body = form.closing ++ rest) :
    form.visits (before ++ o ++ joined (s :: next :: segs)) =
      1 :: (form.visits (rest ++ joined segs)).map (· + 2) := by
  obtain ⟨hbefore, hopening⟩ := List.forall_mem_append.1 hplain
  obtain ⟨hs, hrest⟩ := List.forall_mem_cons.1 hsegs
  obtain ⟨hnext, -⟩ := List.forall_mem_cons.1 hrest
  have hnextBody := hnext.body
  rw [hbody] at hnextBody
  obtain ⟨hclosing, -⟩ := List.forall_mem_append.1 hnextBody
  have hfirst : Text.quotes (o ++ [s.quote]) = [s.quote] := by
    rw [Text.quotes_append, Text.quotes_of_isPlain hopening, Text.quotes_cons hs.quote]
    rfl
  have hboth : Text.quotes (o ++ [s.quote] ++ s.body ++ next.quote :: form.closing) =
      [s.quote, next.quote] := by
    rw [Text.quotes_append, Text.quotes_append, hfirst, Text.quotes_of_isPlain hs.body,
      Text.quotes_cons hnext.quote, Text.quotes_of_isPlain hclosing]
    rfl
  rw [visits, pieces_of_opens s next hplain hsegs ho hbody, Piece.numbers_append_plain,
    Text.quotes_of_isPlain hbefore, Piece.numbers, Occurrence.text, hfirst, hboth]
  simp [visits, Nat.add_comm]

theorem visits_joined (hbefore : IsPlain before) (hsegs : ∀ s ∈ segs, s.WellCut)
    (hstart : form.opens start = form.opens before) :
    form.visits (before ++ joined segs) = form.spots (start :: segs.map Segment.body) := by
  induction start, segs using visited.induct form generalizing before with
  | case1 start s next segs hvisit ih =>
    obtain ⟨hopens, hcloses⟩ := Bool.and_eq_true_iff.1 hvisit
    obtain ⟨rest, hbody⟩ := closes_iff.1 hcloses
    rw [hstart] at hopens
    obtain ⟨o, ho, x, rfl⟩ := opens_iff.1 hopens
    have hnext := hsegs next (by simp)
    have hrest : IsPlain rest := fun c hc => hnext.body c (hbody ▸ List.mem_append_right _ hc)
    have hrestart : form.opens next.body = form.opens rest := by rw [hbody, opens_closing]
    rw [visits_of_opens s next hbefore hsegs ho hbody,
      ih hrest (fun t ht => hsegs t (by simp [ht])) hrestart]
    exact (spots_of_visit hvisit).symm
  | case2 start s next segs hvisit ih =>
    have hclosed : form.opens before = true → form.isClosed (s :: next :: segs) = false := by
      intro hopens
      rw [hstart, hopens, Bool.true_and] at hvisit
      exact Bool.eq_false_iff.2 hvisit
    rw [visits_pass s hbefore hsegs hclosed,
      ih (hsegs s (by simp)).body (fun t ht => hsegs t (by simp [ht])) rfl]
    exact (spots_of_pass hvisit).symm
  | case3 segs start hshort =>
    rcases segs with - | ⟨s, - | ⟨next, segs⟩⟩
    · simpa [joined, spots] using visits_nil hbefore
    · have hnil : form.visits (s.body ++ joined []) = [] := by
        simpa [joined] using visits_nil (hsegs s (by simp)).body
      rw [visits_pass s hbefore hsegs fun _ => rfl, hnil]
      simp [spots]
    · exact (hshort s next segs rfl).elim

/-! ### Visited segments -/

section Spots

variable {bodies : List (List Char)} {i : Nat}

/-- A visited segment stands behind an opening. -/
theorem exists_of_mem_spots (h : i ∈ form.spots bodies) :
    ∃ j b body, i = j + 1 ∧ bodies[j]? = some b ∧ form.opens b = true ∧
      bodies[j + 1]? = some body := by
  induction bodies using spots.induct form generalizing i with
  | case1 before body next bodies hvisit ih =>
    rw [spots_of_visit hvisit] at h
    obtain rfl | h := List.mem_cons.1 h
    · exact ⟨0, before, body, rfl, rfl, (Bool.and_eq_true_iff.1 hvisit).1, rfl⟩
    · obtain ⟨i, hi, rfl⟩ := List.mem_map.1 h
      obtain ⟨j, b, body', rfl, hb, hopens, hbody⟩ := ih hi
      exact ⟨j + 2, b, body', rfl, hb, hopens, hbody⟩
  | case2 before body next bodies hvisit ih =>
    rw [spots_of_pass hvisit] at h
    obtain ⟨i, hi, rfl⟩ := List.mem_map.1 h
    obtain ⟨j, b, body', rfl, hb, hopens, hbody⟩ := ih hi
    exact ⟨j + 1, b, body', rfl, hb, hopens, hbody⟩
  | case3 bodies hshort =>
    rw [spots] at h
    · cases h
    · exact hshort

/-- No two visited segments are next to each other. -/
theorem spots_apart (form : Form) (bodies : List (List Char)) :
    (form.spots bodies).Pairwise fun i j => i + 1 < j := by
  induction bodies using spots.induct form with
  | case1 before body next bodies hvisit ih =>
    rw [spots_of_visit hvisit, List.pairwise_cons, List.pairwise_map]
    refine ⟨fun j hj => ?_, ih.imp fun h => by omega⟩
    obtain ⟨k, hk, rfl⟩ := List.mem_map.1 hj
    obtain ⟨l, -, -, rfl, -⟩ := exists_of_mem_spots hk
    omega
  | case2 before body next bodies hvisit ih =>
    rw [spots_of_pass hvisit, List.pairwise_map]
    exact ih.imp fun h => by omega
  | case3 bodies hshort =>
    rw [spots]
    · exact .nil
    · exact hshort

theorem nodup_spots (form : Form) (bodies : List (List Char)) : (form.spots bodies).Nodup :=
  (spots_apart form bodies).imp fun h => by omega

theorem not_mem_spots_of_succ (h : i + 1 ∈ form.spots bodies) : i ∉ form.spots bodies := by
  intro hi
  have hapart : (form.spots bodies).Pairwise fun i j => j ≠ i + 1 :=
    (spots_apart form bodies).imp fun h => by omega
  have hflip : (form.spots bodies).Pairwise (flip fun i j => j ≠ i + 1) :=
    (spots_apart form bodies).imp fun {i j} h => by
      change i ≠ j + 1
      omega
  exact hapart.forall_of_forall_of_flip (fun i _ => by omega) hflip hi h rfl

end Spots

section Sweep

variable (f : List Char → List Char) {i : Nat}

/-- A search replaces the segments that it visits, and no others. -/
theorem getElem?_sweep :
    (start :: (form.sweep f start segs).map Segment.body)[i]? =
      if i ∈ form.spots (start :: segs.map Segment.body) then
        ((start :: segs.map Segment.body)[i]?).map f
      else (start :: segs.map Segment.body)[i]? := by
  induction start, segs using visited.induct form generalizing i with
  | case1 start s next segs hvisit ih =>
    rw [sweep, if_pos hvisit]
    have hspots : form.spots (start :: (s :: next :: segs).map Segment.body) = _ :=
      spots_of_visit hvisit
    rw [hspots]
    rcases i with - | - | i
    · simp
    · simp
    · simpa using ih
  | case2 start s next segs hvisit ih =>
    rw [sweep, if_neg hvisit]
    have hspots : form.spots (start :: (s :: next :: segs).map Segment.body) = _ :=
      spots_of_pass hvisit
    rw [hspots]
    cases i with
    | zero => simp
    | succ i => simpa using ih
  | case3 segs start hshort =>
    rw [sweep]
    · rcases segs with - | ⟨s, - | ⟨next, segs⟩⟩
      · simp [spots]
      · simp [spots]
      · exact (hshort s next segs rfl).elim
    · exact hshort

theorem quotes_sweep (form : Form) (start : List Char) (segs : List Segment) :
    (form.sweep f start segs).map Segment.quote = segs.map Segment.quote := by
  induction start, segs using visited.induct form with
  | case1 start s next segs hvisit ih =>
    rw [sweep, if_pos hvisit]
    simp [ih]
  | case2 start s next segs hvisit ih =>
    rw [sweep, if_neg hvisit]
    simpa using ih
  | case3 segs start hshort =>
    rw [sweep]
    exact hshort

theorem length_sweep (form : Form) (start : List Char) (segs : List Segment) :
    (form.sweep f start segs).length = segs.length := by
  have hlength := congrArg List.length (quotes_sweep f form start segs)
  simpa using hlength

end Sweep

/-- The literals that the search visits are the segments at the visited numbers. -/
theorem visited_eq (form : Form) (start : List Char) (segs : List Segment) :
    (form.visited start segs).map some =
      (form.spots (start :: segs.map Segment.body)).map
        fun i => (start :: segs.map Segment.body)[i]? := by
  induction start, segs using visited.induct form with
  | case1 start s next segs hvisit ih =>
    have hspots : form.spots (start :: (s :: next :: segs).map Segment.body) = _ :=
      spots_of_visit hvisit
    rw [visited, if_pos hvisit, hspots, List.map_cons, ih]
    simp
  | case2 start s next segs hvisit ih =>
    have hspots : form.spots (start :: (s :: next :: segs).map Segment.body) = _ :=
      spots_of_pass hvisit
    rw [visited, if_neg hvisit, hspots, ih]
    simp
  | case3 segs start hshort =>
    rcases segs with - | ⟨s, - | ⟨next, segs⟩⟩
    · simp [visited, spots]
    · simp [visited, spots]
    · exact (hshort s next segs rfl).elim

theorem map_visited (form : Form) (start : List Char) (segs : List Segment) :
    (form.visited start segs).map String.ofList =
      (form.spots (start :: segs.map Segment.body)).map fun i =>
        String.ofList ((start :: segs.map Segment.body)[i]?.getD []) := by
  have hmap := congrArg (List.map fun o : Option (List Char) => String.ofList (o.getD []))
    (visited_eq form start segs)
  simpa only [List.map_map, Function.comp_def, Option.getD_some] using hmap

end Form

end Unalias
