import Unalias.Proofs.Reference.Containment
import Unalias.Proofs.Reference.Frame
import Unalias.Proofs.Reference.Search

/-!
The literals that the two searches ask for, with their places. Each search goes from left to right,
and what the search for calls finds is reported before all that the search for statements finds. So
a report follows the file as long as no statement in it stands in front of a call in it.
-/

namespace Unalias

theorem Piece.places_append (ps ps' : List Piece) :
    places (ps ++ ps') =
      places ps ++ (places ps').map (Place.behind (ps.flatMap Piece.text).length) := by
  have hbehind : ∀ m n, Place.behind m ∘ Place.behind n = Place.behind (m + n) := fun m n =>
    funext fun p => by simp [Place.behind, Nat.add_assoc]
  induction ps with
  | nil =>
    have hid : Place.behind 0 = id := funext fun p => by simp [Place.behind]
    simp [places, hid]
  | cons p ps ih =>
    cases p with
    | plain c => simp [places, ih, hbehind, Piece.text, Nat.add_comm]
    | reference o => simp [places, ih, hbehind, Piece.text]

theorem Piece.map_places (ps : List Piece) :
    (places ps).map Place.literal = ps.filterMap literal? := by
  have hbehind : ∀ n, Place.literal ∘ Place.behind n = Place.literal := fun n => rfl
  induction ps with
  | nil => rfl
  | cons p ps ih =>
    cases p with
    | plain c => rw [places, List.map_map, hbehind, ih, List.filterMap_cons_none rfl]
    | reference o =>
      rw [places, List.map_cons, List.map_map, hbehind, ih]
      rfl

namespace Form

/-- No reference that the search takes stands across a place. -/
def CutsAt (form : Form) (text : List Char) (n : Nat) : Prop :=
  ∀ p ∈ form.places text, p.start < n → p.stop ≤ n

/-- Where a place of a text is once the text before it is settled. -/
def carried (form : Form) (verdict : String → Resolution) (text : List Char) (n : Nat) : Nat :=
  (form.settle verdict (text.take n)).length

variable {form : Form} {text x y z : List Char} {p p' : Place} {o : Occurrence}
  {verdict : String → Resolution}

theorem map_places (form : Form) (text : List Char) :
    (form.places text).map Place.literal = form.literals text :=
  Piece.map_places _

/-- A text none of whose literals is replaced. -/
theorem settle_eq_self (h : ∀ literal ∈ form.literals text, (verdict literal).new? = none) :
    form.settle verdict text = text := by
  have hsettled : ∀ piece ∈ form.pieces text, piece.settled verdict = piece.text := by
    intro piece hpiece
    cases piece with
    | plain c => rfl
    | reference o =>
      have hnone := h _ (List.mem_filterMap.2 ⟨_, hpiece, rfl⟩)
      rw [settled_reference, settledLiteral, hnone]
      rfl
  rw [settle, List.flatMap_congr hsettled, pieces_text]

/-! ### Cut texts -/

theorem match?_append (h : form.match? x = some (o, z)) (y : List Char) :
    form.match? (x ++ y) = some (o, z ++ y) := by
  obtain ⟨ho, rfl⟩ := match?_eq_some_iff.1 h
  exact match?_eq_some_iff.2 ⟨ho, List.append_assoc ..⟩

theorem match?_eq_none_of_append (h : form.match? (x ++ y) = none) : form.match? x = none := by
  apply Option.eq_none_iff_forall_ne_some.2
  rintro ⟨o, rest⟩ hsome
  rw [match?_append hsome] at h
  cases h

theorem CutsAt.behind {before cs : List Char} {n : Nat} (h : form.CutsAt text (before.length + n))
    (hplaces : ∀ p ∈ form.places cs, p.behind before.length ∈ form.places text) :
    form.CutsAt cs n := by
  intro p hp hlt
  have hstop := h _ (hplaces p hp) (Nat.add_lt_add_left hlt _)
  simp only [Place.stop, Place.behind] at hstop ⊢
  omega

/-- What begins in front of a cut does not need what is behind it. -/
theorem CutsAt.match?_eq_none {c : Char} {cs : List Char}
    (h : form.CutsAt (c :: cs ++ y) (c :: cs).length) (hnone : form.match? (c :: cs) = none) :
    form.match? (c :: (cs ++ y)) = none := by
  apply Option.eq_none_iff_forall_ne_some.2
  rintro ⟨o, rest⟩ hsome
  obtain ⟨ho, htext⟩ := match?_eq_some_iff.1 hsome
  have hmem : ⟨0, o⟩ ∈ form.places (c :: (cs ++ y)) := by
    rw [places_of_match? hsome]
    exact List.mem_cons_self
  have hstop := h ⟨0, o⟩ hmem (Nat.succ_pos _)
  rw [Place.stop, Nat.zero_add] at hstop
  have hshort : o.text <+: c :: cs := by
    apply List.prefix_of_prefix_length_le _ (List.prefix_append (c :: cs) y) hstop
    rw [List.cons_append, htext]
    exact List.prefix_append o.text rest
  obtain ⟨rest', hrest'⟩ := hshort
  rw [match?_eq_some_iff.2 ⟨ho, hrest'.symm⟩] at hnone
  cases hnone

/-- Behind a cut the search goes on as if nothing stood in front. -/
theorem CutsAt.pieces_append (h : form.CutsAt (x ++ z) x.length) (hy : y <+: z) :
    form.pieces (x ++ y) = form.pieces x ++ form.pieces y := by
  fun_induction pieces form x with
  | case1 => rfl
  | case2 c cs o rest hmatch ih =>
    have hlonger : ∀ y, form.match? (c :: (cs ++ y)) = some (o, rest ++ y) := match?_append hmatch
    have hcut : form.CutsAt (rest ++ z) rest.length := by
      have hlength : (c :: cs).length = o.text.length + rest.length := by
        rw [match?_text hmatch, List.length_append]
      rw [hlength] at h
      refine h.behind fun p hp => ?_
      rw [List.cons_append, places_of_match? (hlonger z)]
      exact List.mem_cons_of_mem _ (List.mem_map_of_mem hp)
    rw [List.cons_append, pieces_of_match? (hlonger y), ih hcut]
    rfl
  | case3 c cs hnone ih =>
    have hlonger : form.match? (c :: (cs ++ z)) = none := h.match?_eq_none hnone
    have hcut : form.CutsAt (cs ++ z) cs.length := by
      have hlength : (c :: cs).length = [c].length + cs.length := Nat.add_comm ..
      rw [hlength] at h
      refine h.behind fun p hp => ?_
      rw [List.cons_append, places_of_none hlonger]
      exact List.mem_map_of_mem hp
    have hshorter : form.match? (c :: (cs ++ y)) = none := by
      obtain ⟨rest, rfl⟩ := hy
      rw [← List.append_assoc, ← List.cons_append] at hlonger
      exact match?_eq_none_of_append hlonger
    rw [List.cons_append, pieces_of_none hshorter, ih hcut]
    rfl

theorem CutsAt.settle_append (h : form.CutsAt (x ++ z) x.length) (hy : y <+: z) :
    form.settle verdict (x ++ y) = form.settle verdict x ++ form.settle verdict y := by
  rw [settle, h.pieces_append hy, List.flatMap_append]
  rfl

theorem CutsAt.places_append (h : form.CutsAt (x ++ y) x.length) :
    form.places (x ++ y) = form.places x ++ (form.places y).map (Place.behind x.length) := by
  rw [places, h.pieces_append (List.prefix_refl y), Piece.places_append, pieces_text]
  rfl

/-! ### Around a reference -/

theorem isReference_of_mem (hp : p ∈ form.places text) : form.IsReference p.reference :=
  ((leftmost_places form text).occurs p hp).1

/-- A text cut around a reference that the search takes. -/
structure Around (form : Form) (text : List Char) (p : Place) (before rest : List Char) : Prop where
  mem : p ∈ form.places text
  text_eq : text = before ++ (p.reference.text ++ rest)
  length_eq : before.length = p.start

theorem OccursAt.exists_eq (h : form.OccursAt text p) :
    ∃ before rest, text = before ++ (p.reference.text ++ rest) ∧ before.length = p.start := by
  obtain ⟨hreference, rest, hrest⟩ := h
  have hle : p.start ≤ text.length := by
    by_contra hlt
    rw [List.drop_of_length_le (by omega), List.append_eq_nil_iff] at hrest
    exact hreference.text_ne_nil hrest.1
  refine ⟨text.take p.start, rest, ?_, List.length_take_of_le hle⟩
  rw [hrest, List.take_append_drop]

theorem exists_around (hp : p ∈ form.places text) :
    ∃ before rest, form.Around text p before rest := by
  obtain ⟨before, rest, htext, hlength⟩ := ((leftmost_places form text).occurs p hp).exists_eq
  exact ⟨before, rest, hp, htext, hlength⟩

theorem stop_le_length (hp : p ∈ form.places text) : p.stop ≤ text.length := by
  obtain ⟨before, rest, h⟩ := exists_around hp
  rw [Place.stop, ← h.length_eq, h.text_eq]
  simp only [List.length_append]
  omega

/-- What a text has on the two sides of a cut stays on its side. -/
theorem CutsAt.settle_eq {n : Nat} (h : form.CutsAt text n) :
    form.settle verdict text = form.settle verdict (text.take n) ++
      form.settle verdict (text.drop n) := by
  have hcut : form.CutsAt (text.take n ++ text.drop n) (text.take n).length := by
    rw [List.take_append_drop, List.length_take]
    intro p hp hlt
    exact Nat.le_min.2 ⟨h p hp (Nat.lt_of_lt_of_le hlt (Nat.min_le_left _ _)), stop_le_length hp⟩
  rw [← hcut.settle_append (List.prefix_refl _), List.take_append_drop]

theorem settle_quote {q : Char} (hx : IsPlain x) (hq : isQuote q = true) :
    form.settle verdict (x ++ [q]) = x ++ [q] := by
  have hsegs : ∀ s ∈ [(⟨q, []⟩ : Segment)], s.WellCut :=
    List.forall_mem_singleton.2 ⟨hq, by simp [IsPlain]⟩
  obtain ⟨hpass, -⟩ := settle_pass verdict ⟨q, []⟩ hx hsegs fun (_ : form.opens x = true) => rfl
  have hnil : form.settle verdict [] = [] := (settle_nil verdict (by simp [IsPlain])).1
  simpa [Segment.joined, Segment.text, hnil] using hpass

theorem IsReference.exists_opening (h : form.IsReference o) : ∃ keyword ∈ form.keywords, ∃ q,
    isQuote q = true ∧ o.opening = keyword ++ [form.separator] ++ [q] := by
  obtain ⟨keyword, hkeyword, q, q', hq, -, -, ho⟩ := isReference_iff.1 h
  exact ⟨keyword, hkeyword, q, hq, by rw [ho]⟩

theorem IsReference.opening_pos (h : form.IsReference o) : 0 < o.opening.length := by
  obtain ⟨keyword, -, q, -, ho⟩ := h.exists_opening
  simp [ho]

theorem IsReference.settle_opening (h : form.IsReference o) :
    form.settle verdict o.opening = o.opening := by
  obtain ⟨keyword, hkeyword, q, hq, ho⟩ := h.exists_opening
  rw [ho]
  exact settle_quote (isPlain_of_mem_openings (List.mem_map_of_mem hkeyword)) hq

theorem IsReference.settle_text (h : form.IsReference o) (rest : List Char) :
    form.settle verdict (o.text ++ rest) = o.opening ++ settledLiteral verdict o.literal ++
      o.closing ++ form.settle verdict rest := by
  have hmatch : form.match? (o.text ++ rest) = some (o, rest) := match?_eq_some_iff.2 ⟨h, rfl⟩
  obtain ⟨c, cs, hcs⟩ := List.exists_cons_of_ne_nil h.text_ne_nil
  rw [hcs, List.cons_append] at hmatch ⊢
  rw [settle, pieces_of_match? hmatch, List.flatMap_cons, settled_reference]
  rfl

namespace Around

variable {before rest : List Char}

theorem isReference (h : form.Around text p before rest) : form.IsReference p.reference :=
  isReference_of_mem h.mem

theorem cutsAt (h : form.Around text p before rest) :
    form.CutsAt (before ++ (p.reference.text ++ rest)) before.length := by
  rw [← h.text_eq, h.length_eq]
  exact fun _ hp' hlt => (leftmost_places form text).stop_le hp' h.mem hlt

theorem settle_eq (h : form.Around text p before rest) :
    form.settle verdict text = form.settle verdict before ++ (p.reference.opening ++
      settledLiteral verdict p.reference.literal ++ p.reference.closing ++
        form.settle verdict rest) := by
  rw [h.text_eq, h.cutsAt.settle_append (List.prefix_refl _), h.isReference.settle_text]

theorem take_inner (h : form.Around text p before rest) :
    text.take p.inner = before ++ p.reference.opening := by
  rw [Place.inner, h.text_eq, ← h.length_eq, List.take_length_add_append, Occurrence.text]
  simp

theorem drop_inner (h : form.Around text p before rest) :
    text.drop p.inner = p.reference.literal ++ (p.reference.closing ++ rest) := by
  rw [Place.inner, h.text_eq, ← h.length_eq, List.drop_length_add_append, Occurrence.text]
  simp

/-- What is in front of a literal is settled as if the text ended there. -/
theorem settle_take_inner (h : form.Around text p before rest) :
    form.settle verdict (text.take p.inner) =
      form.settle verdict before ++ p.reference.opening := by
  have hopening : p.reference.opening <+: p.reference.text ++ rest := by
    simp [Occurrence.text, List.prefix_append]
  rw [h.take_inner, h.cutsAt.settle_append hopening, h.isReference.settle_opening]

theorem carried_eq (h : form.Around text p before rest) :
    form.carried verdict text p.inner =
      (form.settle verdict before).length + p.reference.opening.length := by
  rw [carried, h.settle_take_inner, List.length_append]

/-- What is taken in front of a reference is taken in the text in front of it. -/
theorem mem_before (h : form.Around text p' before rest) (hp : p ∈ form.places text)
    (hlt : p.start < p'.start) : p ∈ form.places before := by
  rw [h.text_eq, h.cutsAt.places_append] at hp
  obtain hp | hp := List.mem_append.1 hp
  · exact hp
  · obtain ⟨p, -, rfl⟩ := List.mem_map.1 hp
    rw [← h.length_eq] at hlt
    exact absurd hlt (Nat.not_lt.2 (Nat.le_add_right _ _))

end Around

/-- The literals stay in their order. -/
theorem carried_lt_carried (hp : p ∈ form.places text) (hp' : p' ∈ form.places text)
    (hlt : p.start < p'.start) :
    form.carried verdict text p.inner < form.carried verdict text p'.inner := by
  obtain ⟨before', rest', h'⟩ := exists_around hp'
  obtain ⟨before, rest, hbefore⟩ := exists_around (h'.mem_before hp hlt)
  -- the first reference is settled within what stands in front of the second
  have h : form.Around text p before (rest ++ (p'.reference.text ++ rest')) :=
    ⟨hp, by rw [h'.text_eq, hbefore.text_eq]; simp, hbefore.length_eq⟩
  have hopening := h'.isReference.opening_pos
  rw [h.carried_eq, h'.carried_eq, hbefore.settle_eq]
  simp only [List.length_append]
  omega

theorem inner_lt_inner (hp : p ∈ form.places text) (hp' : p' ∈ form.places text)
    (hlt : p.start < p'.start) : p.inner < p'.inner := by
  have hstop := (leftmost_places form text).stop_le hp hp' hlt
  have hopening := (isReference_of_mem hp').opening_pos
  simp only [Place.inner, Place.stop, Occurrence.text, List.length_append] at hstop ⊢
  omega

end Form

/-! ### What is reported -/

/-- A literal that a search asks for, and its place in the text between the two searches. -/
structure Mention where
  form : Form
  place : Nat
  literal : String
  deriving DecidableEq

namespace Resolver

variable (r : Resolver) (d : Disk) (file : Path) (text : String)

def calls : List Mention :=
  (Form.call.places text.toList).map fun p =>
    ⟨.call, Form.call.carried (r.verdict d file) text.toList p.inner, p.literal⟩

def statements : List Mention :=
  (Form.statement.places (r.afterCalls d file text).toList).map fun p =>
    ⟨.statement, p.inner, p.literal⟩

/-- The literals that are asked for, one search after the other. -/
def mentions : List Mention :=
  r.calls d file text ++ r.statements d file text

/-- How the report of a file follows the file. -/
structure Listed (o : Outcome) : Prop where
  replacements_eq : o.replacements = (r.mentions d file text).filterMap fun m =>
    (r.verdict d file m.literal).new?.map fun new => (m.literal, new)
  unresolved_eq : o.unresolved = ((r.mentions d file text).filter fun m =>
    r.verdict d file m.literal = .unresolved).map Mention.literal
  /-- What is in front of a place outside all calls stays in front of what is behind it, so that the
  places are in the order of the file. -/
  sides : ∀ n, Form.call.CutsAt text.toList n → (r.afterCalls d file text).toList =
    Form.call.settle (r.verdict d file) (text.toList.take n) ++
      Form.call.settle (r.verdict d file) (text.toList.drop n)
  calls_stand : ∀ p ∈ Form.call.places text.toList,
    Form.call.settle (r.verdict d file) (text.toList.take p.inner) ++
      Form.settledLiteral (r.verdict d file) p.reference.literal <+:
        (r.afterCalls d file text).toList
  statements_stand : ∀ m ∈ r.statements d file text,
    m.literal.toList <+: (r.afterCalls d file text).toList.drop m.place
  calls_sorted : (r.calls d file text).Pairwise fun m m' => m.place < m'.place
  statements_sorted : (r.statements d file text).Pairwise fun m m' => m.place < m'.place
  sorted_iff : ∀ kept : Mention → Bool,
    ((r.mentions d file text).filter kept).Pairwise (fun m m' => m.place < m'.place) ↔
      ∀ m ∈ r.calls d file text, ∀ m' ∈ r.statements d file text, kept m → kept m' →
        m.place < m'.place

theorem calls_sorted : (r.calls d file text).Pairwise fun m m' => m.place < m'.place := by
  rw [calls, List.pairwise_map]
  exact (Form.leftmost_places _ _).sorted.imp_of_mem Form.carried_lt_carried

theorem statements_sorted :
    (r.statements d file text).Pairwise fun m m' => m.place < m'.place := by
  rw [statements, List.pairwise_map]
  exact (Form.leftmost_places _ _).sorted.imp_of_mem Form.inner_lt_inner

variable {text}

theorem mem_mentions_of_call {p : Place} (hp : p ∈ Form.call.places text.toList) :
    ⟨.call, Form.call.carried (r.verdict d file) text.toList p.inner, p.literal⟩ ∈
      r.mentions d file text :=
  List.mem_append_left _ (List.mem_map_of_mem hp)

variable {r d file}

theorem map_mentions : (r.mentions d file text).map Mention.literal =
    Form.call.literals text.toList ++
      Form.statement.literals (Form.call.settle (r.verdict d file) text.toList) := by
  rw [mentions, calls, statements, List.map_append, List.map_map, List.map_map,
    ← Form.map_places, ← Form.map_places, ← toList_afterCalls]
  rfl

theorem listed (r : Resolver) (d : Disk) (file : Path) (text : String) :
    r.Listed d file text (r.unaliased d file text).outcome where
  replacements_eq := by
    rw [replacements_unaliased, ← map_mentions, List.filterMap_map]
    rfl
  unresolved_eq := by
    rw [unresolved_unaliased, ← map_mentions, List.filter_map]
    rfl
  sides := by
    intro n h
    rw [toList_afterCalls, h.settle_eq]
  calls_stand := by
    intro p hp
    obtain ⟨before, rest, h⟩ := Form.exists_around hp
    rw [toList_afterCalls, h.settle_take_inner, h.settle_eq]
    simp [List.prefix_append]
  statements_stand := by
    rw [statements, List.forall_mem_map]
    intro p hp
    obtain ⟨before, rest, h⟩ := Form.exists_around hp
    rw [h.drop_inner, Place.literal, String.toList_ofList]
    exact List.prefix_append _ _
  calls_sorted := calls_sorted r d file text
  statements_sorted := statements_sorted r d file text
  sorted_iff := by
    intro kept
    have hcalls := (calls_sorted r d file text).filter kept
    have hstatements := (statements_sorted r d file text).filter kept
    simp only [mentions, List.filter_append, List.pairwise_append, hcalls, hstatements, true_and,
      List.mem_filter, and_imp]
    exact ⟨fun h m hm m' hm' hkept hkept' => h m hm hkept m' hm' hkept',
      fun h m hm hkept m' hm' hkept' => h m hm m' hm' hkept hkept'⟩

/-- The report of a file has all calls in their order, and then all statements in theirs. -/
theorem unalias_listed (r : Resolver) (d : Disk) (file : Path) (text : String) :
    ∃ result, (r.unalias file text).run d = (result, d) ∧ r.Listed d file text result.outcome :=
  ⟨_, unalias_run r d file text, listed r d file text⟩

/-- A rule without targets resolves nothing. -/
theorem verdict_of_targets_nil {rule : Rule} {rest reference : String}
    (h : r.matching? reference = some (rule, rest)) (htargets : rule.targets = []) :
    r.verdict d file reference = .unresolved := by
  rw [verdict, h]
  dsimp only
  rw [candidates, htargets]
  rfl

/-- A statement in front of a call is reported behind it. -/
theorem not_unresolved_sorted :
    ¬∀ (paths : List (String × Json)) (r : Resolver) (d : Disk) (file : Path) (text : String),
      Rule.ofPaths paths = .ok r.rules →
        ∃ places : List Nat, places.Pairwise (· < ·) ∧ List.Forall₂
          (fun n literal => literal.toList <+: text.toList.drop n) places
            (r.unaliased d file text).outcome.unresolved := by
  intro h
  have hrules : Rule.ofPaths [("@/*", .array [])] = .ok [⟨"@/", []⟩] := by decide +kernel
  have hverdict : ∀ literal ∈ ["@/b", "@/a"],
      (amongSources [⟨"@/", []⟩]).verdict oneFile ⟨"/p/dist/a.js"⟩ literal = .unresolved := by
    intro literal hliteral
    obtain rfl | rfl : literal = "@/b" ∨ literal = "@/a" := by simpa using hliteral
    · have hmatching : (amongSources [⟨"@/", []⟩]).matching? "@/b" = some (⟨"@/", []⟩, "b") := by
        decide +kernel
      exact verdict_of_targets_nil hmatching rfl
    · have hmatching : (amongSources [⟨"@/", []⟩]).matching? "@/a" = some (⟨"@/", []⟩, "a") := by
        decide +kernel
      exact verdict_of_targets_nil hmatching rfl
  have hunresolved : ((amongSources [⟨"@/", []⟩]).unaliased oneFile ⟨"/p/dist/a.js"⟩
      "import '@/a';require('@/b')").outcome.unresolved = ["@/b", "@/a"] := by
    have hcalls : Form.call.literals "import '@/a';require('@/b')".toList = ["@/b"] := by
      decide +kernel
    have hstatements : Form.statement.literals "import '@/a';require('@/b')".toList = ["@/a"] := by
      decide +kernel
    rw [unresolved_unaliased, Form.settle_eq_self, hcalls, hstatements]
    · exact List.filter_eq_self.2 fun literal hliteral => by simpa using hverdict literal hliteral
    · rw [hcalls, List.forall_mem_singleton, hverdict _ List.mem_cons_self]
      rfl
  obtain ⟨places, hsorted, hplaces⟩ := h _ (amongSources [⟨"@/", []⟩]) oneFile ⟨"/p/dist/a.js"⟩
    "import '@/a';require('@/b')" hrules
  rw [hunresolved] at hplaces
  obtain ⟨n, _, hb, htail, rfl⟩ := List.forall₂_cons_right_iff.1 hplaces
  obtain ⟨n', _, ha, -, rfl⟩ := List.forall₂_cons_right_iff.1 htail
  have hlt : n < n' := List.rel_of_pairwise_cons hsorted List.mem_cons_self
  -- the statement takes the first 13 characters, and the call the rest
  have hfront : ∀ n < 13, ¬"@/b".toList <+: "import '@/a';require('@/b')".toList.drop n := by
    decide +kernel
  have hback : ¬"@/a".toList <:+: "import '@/a';require('@/b')".toList.drop 13 := by
    decide +kernel
  have hle : 13 ≤ n := Nat.le_of_not_lt fun hn => hfront n hn hb
  exact hback (ha.isInfix.trans (List.drop_suffix_drop_left _ (by omega)).isInfix)

end Resolver

end Unalias
