import Unalias.Proofs.Reference.Segments

/-!
The search for references against what is to be found. The references of a form that count are the
leftmost ones that do not overlap, and a text has no two lists of these. The search asks for the
literals on that list, each once and from left to right, and puts the answers in their places.
-/

namespace Unalias

/-! ### What is to be found -/

/-- Where a reference stands in a text, and the reference. -/
structure Place where
  start : Nat
  reference : Occurrence
  deriving DecidableEq

namespace Place

/-- The place in a text with `n` more characters in front. -/
def behind (n : Nat) (p : Place) : Place :=
  ⟨n + p.start, p.reference⟩

def stop (p : Place) : Nat :=
  p.start + p.reference.text.length

/-- Where the literal stands. -/
def inner (p : Place) : Nat :=
  p.start + p.reference.opening.length

def literal (p : Place) : String :=
  String.ofList p.reference.literal

end Place

namespace Form

/-- How a reference of a form is spelled. -/
inductive IsReference : Form → Occurrence → Prop
  | call {keyword literal : List Char} {q q' : Char}
    (hkeyword : keyword ∈ ["import".toList, "require".toList]) (hq : isQuote q = true)
    (hliteral : IsPlain literal) (hq' : isQuote q' = true) :
    IsReference .call ⟨keyword ++ ['(', q], literal, [q', ')']⟩
  | statement {keyword literal : List Char} {q q' : Char}
    (hkeyword : keyword ∈ ["import".toList, "from".toList]) (hq : isQuote q = true)
    (hliteral : IsPlain literal) (hq' : isQuote q' = true) :
    IsReference .statement ⟨keyword ++ [' ', q], literal, [q']⟩

/-- The text has the reference at that place. -/
def OccursAt (form : Form) (text : List Char) (p : Place) : Prop :=
  form.IsReference p.reference ∧ p.reference.text <+: text.drop p.start

/-- The leftmost references of a form that do not overlap, from left to right. One that is left out
begins inside one that is taken. -/
structure Leftmost (form : Form) (text : List Char) (found : List Place) : Prop where
  occurs : ∀ p ∈ found, form.OccursAt text p
  apart : found.Pairwise fun p p' => p.stop ≤ p'.start
  leftmost : ∀ p, form.OccursAt text p →
    p ∈ found ∨ ∃ p' ∈ found, p'.start < p.start ∧ p.start < p'.stop

end Form

/-- A text, without its first `done` characters, with the literals of some references replaced where
there is an answer for them. -/
def Text.splice (text : List Char) : Nat → List (Place × Option String) → List Char
  | done, [] => text.drop done
  | done, (p, answer) :: taken =>
    (text.take p.inner).drop done ++ answer.elim p.reference.literal String.toList ++
      splice text (p.inner + p.reference.literal.length) taken

namespace Form

variable {form : Form} {text cs rest : List Char} {o : Occurrence}

/-! ### References -/

theorem isReference_iff : form.IsReference o ↔ ∃ keyword ∈ form.keywords, ∃ q q', isQuote q = true ∧
    isQuote q' = true ∧ IsPlain o.literal ∧
      o = ⟨keyword ++ [form.separator] ++ [q], o.literal, q' :: form.closing⟩ := by
  constructor
  · rintro (⟨hkeyword, hq, hliteral, hq'⟩ | ⟨hkeyword, hq, hliteral, hq'⟩)
    · exact ⟨_, hkeyword, _, _, hq, hq', hliteral, by simp [separator, closing]⟩
    · exact ⟨_, hkeyword, _, _, hq, hq', hliteral, by simp [separator, closing]⟩
  · rintro ⟨keyword, hkeyword, q, q', hq, hq', hliteral, ho⟩
    rw [ho, List.append_assoc]
    cases form with
    | call => exact .call hkeyword hq hliteral hq'
    | statement => exact .statement hkeyword hq hliteral hq'

theorem quoted?_eq_some_iff {before : List Char} :
    form.quoted? before cs = some (o, rest) ↔ ∃ q q', isQuote q = true ∧ isQuote q' = true ∧
      IsPlain o.literal ∧ o = ⟨before ++ [q], o.literal, q' :: form.closing⟩ ∧
        before ++ cs = o.text ++ rest := by
  constructor
  · intro h
    have htext := quoted?_text h
    cases cs with
    | nil => cases h
    | cons q cs =>
      rw [quoted?] at h
      split at h
      · rename_i hq
        split at h
        · cases h
        · rename_i q' tail hd
          split at h
          · cases h
          · cases h
            have hq' := List.head?_dropWhile_not (!isQuote ·) cs
            rw [hd] at hq'
            refine ⟨q, q', hq, by simpa using hq', fun c hc => ?_, rfl, htext⟩
            simpa using List.all_eq_true.1 List.all_takeWhile c hc
      · cases h
  · rintro ⟨q, q', hq, hq', hliteral, ho, htext⟩
    have hplain : ∀ c ∈ o.literal, (!isQuote c) = true := fun c hc => by simp [hliteral c hc]
    have hcs : cs = q :: (o.literal ++ q' :: (form.closing ++ rest)) := by
      rw [ho, Occurrence.text] at htext
      simpa using htext
    rw [hcs, quoted?, if_pos hq, List.dropWhile_append_of_pos hplain,
      List.takeWhile_append_of_pos hplain]
    simp [hq', Text.isPrefixOf?_append, ← ho]

theorem after?_eq_some_iff {keyword : List Char} :
    form.after? keyword text = some (o, rest) ↔ ∃ q q', isQuote q = true ∧ isQuote q' = true ∧
      IsPlain o.literal ∧
        o = ⟨keyword ++ [form.separator] ++ [q], o.literal, q' :: form.closing⟩ ∧
          text = o.text ++ rest := by
  constructor
  · intro h
    rw [after?] at h
    split at h
    · cases h
    · rename_i tail htail
      rw [Text.append_of_isPrefixOf? htail]
      exact quoted?_eq_some_iff.1 h
  · rintro ⟨q, q', hq, hq', hliteral, ho, rfl⟩
    have htext : o.text ++ rest = keyword ++ [form.separator] ++
        (q :: (o.literal ++ q' :: (form.closing ++ rest))) := by
      rw [ho, Occurrence.text]
      simp
    rw [htext, after?_self, quoted?_eq_some_iff]
    exact ⟨q, q', hq, hq', hliteral, ho, htext.symm⟩

/-- Two keywords of a form do not begin alike. -/
theorem eq_of_keywords {keyword keyword' : List Char} (h : keyword ∈ form.keywords)
    (h' : keyword' ∈ form.keywords) (hhead : keyword.head? = keyword'.head?) :
    keyword = keyword' := by
  have hall : ∀ k ∈ form.keywords, ∀ k' ∈ form.keywords, k.head? = k'.head? → k = k' := by
    cases form <;> decide
  exact hall keyword h keyword' h' hhead

theorem head?_of_after? {keyword : List Char} (h : keyword ∈ form.keywords)
    (hafter : form.after? keyword text = some (o, rest)) : text.head? = keyword.head? := by
  obtain ⟨q, q', -, -, -, ho, rfl⟩ := after?_eq_some_iff.1 hafter
  have hne : ∀ k ∈ form.keywords, k ≠ [] := by cases form <;> decide
  obtain ⟨c, cs, rfl⟩ := List.exists_cons_of_ne_nil (hne keyword h)
  rw [ho]
  rfl

/-- What begins a text is found there, and nothing else is. -/
theorem match?_eq_some_iff :
    form.match? text = some (o, rest) ↔ form.IsReference o ∧ text = o.text ++ rest := by
  rw [isReference_iff]
  constructor
  · intro h
    obtain ⟨keyword, hkeyword, hafter⟩ := List.exists_of_findSome?_eq_some h
    obtain ⟨q, q', hq, hq', hliteral, ho, htext⟩ := after?_eq_some_iff.1 hafter
    exact ⟨⟨keyword, hkeyword, q, q', hq, hq', hliteral, ho⟩, htext⟩
  · rintro ⟨⟨keyword, hkeyword, q, q', hq, hq', hliteral, ho⟩, htext⟩
    have hafter : form.after? keyword text = some (o, rest) :=
      after?_eq_some_iff.2 ⟨q, q', hq, hq', hliteral, ho, htext⟩
    cases h : form.match? text with
    | none =>
      have hnone := List.findSome?_eq_none_iff.1 h keyword hkeyword
      rw [hafter] at hnone
      cases hnone
    | some found =>
      obtain ⟨keyword', hkeyword', hfound⟩ := List.exists_of_findSome?_eq_some h
      have hhead := (head?_of_after? hkeyword hafter).symm.trans (head?_of_after? hkeyword' hfound)
      rw [← hfound, ← hafter, eq_of_keywords hkeyword hkeyword' hhead]

/-! ### Places -/

section Places

variable {before : List Char} {p : Place}

theorem IsReference.text_ne_nil (h : form.IsReference o) : o.text ≠ [] := by
  obtain ⟨keyword, -, q, q', -, -, -, ho⟩ := isReference_iff.1 h
  rw [ho, Occurrence.text]
  simp

theorem IsReference.start_lt_stop (h : form.IsReference p.reference) : p.start < p.stop :=
  Nat.lt_add_of_pos_right (List.length_pos_iff.2 h.text_ne_nil)

theorem occursAt_zero_iff :
    form.OccursAt text ⟨0, o⟩ ↔ ∃ rest, form.match? text = some (o, rest) := by
  simp only [OccursAt, List.drop_zero, match?_eq_some_iff, exists_and_left]
  exact and_congr_right fun _ => exists_congr fun rest => eq_comm

theorem occursAt_behind_iff :
    form.OccursAt (before ++ cs) (p.behind before.length) ↔ form.OccursAt cs p := by
  rw [OccursAt, OccursAt, Place.behind, List.drop_length_add_append]

theorem not_occursAt_nil : ¬form.OccursAt [] p := by
  rintro ⟨hreference, hprefix⟩
  rw [List.drop_nil, List.prefix_nil] at hprefix
  exact hreference.text_ne_nil hprefix

end Places

end Form

/-- The references of a cut text. -/
def Piece.places : List Piece → List Place
  | [] => []
  | .plain _ :: ps => (places ps).map (Place.behind 1)
  | .reference o :: ps => ⟨0, o⟩ :: (places ps).map (Place.behind o.text.length)

namespace Form

/-- The references that the search takes. -/
def places (form : Form) (text : List Char) : List Place :=
  Piece.places (form.pieces text)

theorem places_of_match? {form : Form} {c : Char} {cs rest : List Char} {o : Occurrence}
    (h : form.match? (c :: cs) = some (o, rest)) :
    form.places (c :: cs) = ⟨0, o⟩ :: (form.places rest).map (Place.behind o.text.length) := by
  rw [places, pieces_of_match? h]
  rfl

theorem places_of_none {form : Form} {c : Char} {cs : List Char}
    (h : form.match? (c :: cs) = none) :
    form.places (c :: cs) = (form.places cs).map (Place.behind 1) := by
  rw [places, pieces_of_none h]
  rfl

section Leftmost

variable {form : Form} {text cs rest before : List Char} {o : Occurrence} {p p' : Place}
  {found found' : List Place}

theorem leftmost_nil (form : Form) : form.Leftmost [] [] where
  occurs _ hp := absurd hp List.not_mem_nil
  apart := .nil
  leftmost _ h := absurd h not_occursAt_nil

/-! What is found in a text is found behind any other text as well. -/

theorem Leftmost.occurs_behind (h : form.Leftmost cs found) (before : List Char) :
    ∀ p ∈ found.map (Place.behind before.length), form.OccursAt (before ++ cs) p := by
  rw [List.forall_mem_map]
  exact fun p hp => occursAt_behind_iff.2 (h.occurs p hp)

theorem Leftmost.apart_behind (h : form.Leftmost cs found) (n : Nat) :
    (found.map (Place.behind n)).Pairwise fun p p' => p.stop ≤ p'.start := by
  rw [List.pairwise_map]
  refine h.apart.imp fun {p p'} hle => ?_
  rw [Place.stop] at hle
  simp only [Place.behind, Place.stop]
  omega

theorem Leftmost.leftmost_behind (h : form.Leftmost cs found)
    (hoccurs : form.OccursAt (before ++ cs) p) (hle : before.length ≤ p.start) :
    p ∈ found.map (Place.behind before.length) ∨
      ∃ p' ∈ found.map (Place.behind before.length), p'.start < p.start ∧ p.start < p'.stop := by
  obtain ⟨start, o⟩ := p
  obtain ⟨i, rfl⟩ := Nat.exists_eq_add_of_le hle
  obtain hmem | ⟨p', hp', hlt, hinside⟩ := h.leftmost ⟨i, o⟩ (occursAt_behind_iff.1 hoccurs)
  · exact .inl (List.mem_map_of_mem (f := Place.behind before.length) hmem)
  · refine .inr ⟨_, List.mem_map_of_mem hp', ?_⟩
    simp only [Place.behind, Place.stop] at hlt hinside ⊢
    omega

theorem Leftmost.plain {c : Char} (h : form.Leftmost cs found)
    (hnone : form.match? (c :: cs) = none) :
    form.Leftmost (c :: cs) (found.map (Place.behind 1)) where
  occurs := h.occurs_behind [c]
  apart := h.apart_behind 1
  leftmost := by
    rintro ⟨start, o⟩ hoccurs
    cases start with
    | zero =>
      obtain ⟨rest, hrest⟩ := occursAt_zero_iff.1 hoccurs
      rw [hnone] at hrest
      cases hrest
    | succ i =>
      have hbehind : form.OccursAt ([c] ++ cs) ⟨i + 1, o⟩ := hoccurs
      exact h.leftmost_behind hbehind (Nat.succ_pos i)

theorem Leftmost.reference (h : form.Leftmost rest found) (ho : form.IsReference o) :
    form.Leftmost (o.text ++ rest) (⟨0, o⟩ :: found.map (Place.behind o.text.length)) where
  occurs := List.forall_mem_cons.2 ⟨⟨ho, List.prefix_append _ _⟩, h.occurs_behind o.text⟩
  apart := by
    refine .cons ?_ (h.apart_behind o.text.length)
    rw [List.forall_mem_map]
    intro p _
    simp only [Place.stop, Place.behind]
    omega
  leftmost := by
    rintro ⟨start, o'⟩ hoccurs
    by_cases hinside : start < o.text.length
    · cases start with
      | zero =>
        obtain ⟨rest', hrest'⟩ := occursAt_zero_iff.1 hoccurs
        have hfirst : form.match? (o.text ++ rest) = some (o, rest) :=
          match?_eq_some_iff.2 ⟨ho, rfl⟩
        cases hfirst.symm.trans hrest'
        exact .inl List.mem_cons_self
      | succ i =>
        refine .inr ⟨⟨0, o⟩, List.mem_cons_self, Nat.succ_pos i, ?_⟩
        simpa [Place.stop] using hinside
    · obtain hmem | ⟨p, hp, hplace⟩ := h.leftmost_behind hoccurs (Nat.le_of_not_lt hinside)
      · exact .inl (List.mem_cons_of_mem _ hmem)
      · exact .inr ⟨p, List.mem_cons_of_mem _ hp, hplace⟩

theorem leftmost_places (form : Form) (text : List Char) :
    form.Leftmost text (form.places text) := by
  fun_induction pieces form text with
  | case1 =>
    rw [places, pieces]
    exact leftmost_nil form
  | case2 c cs o rest h ih =>
    obtain ⟨ho, htext⟩ := match?_eq_some_iff.1 h
    rw [places_of_match? h, htext]
    exact ih.reference ho
  | case3 c cs h ih =>
    rw [places_of_none h]
    exact ih.plain h

/-! There is only one such list. -/

theorem Leftmost.sorted (h : form.Leftmost text found) :
    found.Pairwise fun p p' => p.start < p'.start := by
  refine h.apart.imp_of_mem fun {p p'} hp _ hle => ?_
  exact Nat.lt_of_lt_of_le (h.occurs p hp).1.start_lt_stop hle

theorem Leftmost.stop_le (h : form.Leftmost text found) (hp : p ∈ found) (hp' : p' ∈ found)
    (hlt : p.start < p'.start) : p.stop ≤ p'.start := by
  have hforth : found.Pairwise fun p p' => p.start < p'.start → p.stop ≤ p'.start :=
    h.apart.imp fun {p p'} hle (_ : p.start < p'.start) => hle
  have hback : found.Pairwise (flip fun p p' => p.start < p'.start → p.stop ≤ p'.start) :=
    h.sorted.imp fun hlt hgt => absurd hgt (Nat.lt_asymm hlt)
  have hsame : ∀ p ∈ found, p.start < p.start → p.stop ≤ p.start :=
    fun p _ hlt => absurd hlt (Nat.lt_irrefl p.start)
  exact hforth.forall_of_forall_of_flip hsame hback hp hp' hlt

theorem Leftmost.mem_of_mem (h : form.Leftmost text found) (h' : form.Leftmost text found')
    (hp : p ∈ found) : p ∈ found' := by
  induction hstart : p.start using Nat.strongRecOn generalizing p found found' with
  | ind i ih =>
    subst hstart
    obtain hmem | ⟨p', hp', hlt, hinside⟩ := h'.leftmost p (h.occurs p hp)
    · exact hmem
    · -- what it would begin inside of is taken as well, and the two would overlap
      have hle := h.stop_le (ih p'.start hlt h' h hp' rfl) hp hlt
      exact absurd hinside (Nat.not_lt.2 hle)

theorem Leftmost.nodup (h : form.Leftmost text found) : found.Nodup := by
  refine h.sorted.imp fun {p p'} hlt heq => ?_
  rw [heq] at hlt
  exact Nat.lt_irrefl _ hlt

theorem Leftmost.eq (h : form.Leftmost text found) (h' : form.Leftmost text found') :
    found = found' := by
  have hperm : found.Perm found' := by
    rw [List.perm_ext_iff_of_nodup h.nodup h'.nodup]
    exact fun p => ⟨h.mem_of_mem h', h'.mem_of_mem h⟩
  exact hperm.eq_of_pairwise (fun p p' _ _ hlt hgt => absurd hgt (Nat.lt_asymm hlt)) h.sorted
    h'.sorted

end Leftmost

end Form

/-! ### What the search puts in place -/

namespace Text

theorem drop_take_behind (before text : List Char) (done n : Nat) :
    ((before ++ text).take (before.length + n)).drop (before.length + done) =
      (text.take n).drop done := by
  rw [List.take_length_add_append, List.drop_length_add_append]

variable (before text : List Char) (taken : List (Place × Option String))

/-- Nothing is looked at in front of what is done. -/
theorem splice_behind (done : Nat) :
    splice (before ++ text) (before.length + done)
        (taken.map (Prod.map (Place.behind before.length) id)) = splice text done taken := by
  induction taken generalizing done with
  | nil => rw [List.map_nil, splice, splice, List.drop_length_add_append]
  | cons p taken ih =>
    obtain ⟨p, answer⟩ := p
    simp only [List.map_cons, Prod.map, id, splice, Place.inner, Place.behind, Nat.add_assoc,
      drop_take_behind, ih]

theorem splice_over :
    splice (before ++ text) 0 (taken.map (Prod.map (Place.behind before.length) id)) =
      before ++ splice text 0 taken := by
  cases taken with
  | nil => rfl
  | cons p taken =>
    obtain ⟨p, answer⟩ := p
    simp only [List.map_cons, Prod.map, id, splice, Place.inner, Place.behind, Nat.add_assoc,
      splice_behind, List.take_length_add_append, List.drop_zero, List.append_assoc]

theorem splice_reference (o : Occurrence) (answer : Option String) :
    splice (o.text ++ text) 0
        ((⟨0, o⟩, answer) :: taken.map (Prod.map (Place.behind o.text.length) id)) =
      o.opening ++ answer.elim o.literal String.toList ++ o.closing ++ splice text 0 taken := by
  have htext : o.text ++ text = (o.opening ++ o.literal) ++ (o.closing ++ text) := by
    simp [Occurrence.text]
  have htaken : taken.map (Prod.map (Place.behind o.text.length) id) =
      (taken.map (Prod.map (Place.behind o.closing.length) id)).map
        (Prod.map (Place.behind (o.opening ++ o.literal).length) id) := by
    simp [Function.comp_def, Place.behind, Occurrence.text, Nat.add_assoc]
  have hrest := splice_behind (o.opening ++ o.literal) (o.closing ++ text)
    (taken.map (Prod.map (Place.behind o.closing.length) id)) 0
  rw [splice_over, Nat.add_zero, List.length_append] at hrest
  rw [htext, htaken, splice, Place.inner, Nat.zero_add, List.length_append, hrest]
  simp

end Text

namespace Form

variable {form : Form} {m : Type → Type} [Monad m]

theorem replace_reference [LawfulMonad m] (answer : String → m (Option String)) (o : Occurrence) :
    (Piece.reference o).replace answer =
      (fun new => o.opening ++ new.elim o.literal String.toList ++ o.closing) <$>
        answer (String.ofList o.literal) := by
  rw [Piece.replace, map_eq_pure_bind]
  congr 1
  funext new
  cases new <;> rfl

theorem mapM_behind [LawfulMonad m] (answer : String → m (Option String)) (n : Nat)
    (places : List Place) :
    ((places.map (Place.behind n)).mapM fun p => answer p.literal) =
      places.mapM fun p => answer p.literal :=
  List.mapM_map

/-- The search asks for the literals on the list and puts the answers in their places. -/
theorem flatten_mapM_replace [LawfulMonad m] (form : Form) (answer : String → m (Option String))
    (text : List Char) :
    List.flatten <$> (form.pieces text).mapM (Piece.replace answer) =
      (fun answers => Text.splice text 0 ((form.places text).zip answers)) <$>
        (form.places text).mapM fun p => answer p.literal := by
  fun_induction pieces form text with
  | case1 =>
    rw [places, pieces]
    simp [Piece.places, Text.splice]
  | case2 c cs o rest h ih =>
    have hsplice : ∀ new answers, Text.splice (c :: cs) 0
        ((⟨0, o⟩ :: (form.places rest).map (Place.behind o.text.length)).zip (new :: answers)) =
          o.opening ++ new.elim o.literal String.toList ++ o.closing ++
            Text.splice rest 0 ((form.places rest).zip answers) := by
      intro new answers
      rw [match?_text h, List.zip_cons_cons, List.zip_map_left]
      exact Text.splice_reference rest _ o new
    rw [places_of_match? h, List.mapM_cons, List.mapM_cons, mapM_behind, replace_reference]
    simp only [bind_map_left, map_bind, map_pure, List.flatten_cons, hsplice]
    congr 1
    funext new
    have hrest := congrArg
      ((o.opening ++ new.elim o.literal String.toList ++ o.closing ++ ·) <$> ·) ih
    simpa only [Functor.map_map, bind_pure_comp] using hrest
  | case3 c cs h ih =>
    have hsplice : ∀ answers : List (Option String), Text.splice (c :: cs) 0
        (((form.places cs).map (Place.behind 1)).zip answers) =
          [c] ++ Text.splice cs 0 ((form.places cs).zip answers) := by
      intro answers
      rw [List.zip_map_left]
      exact Text.splice_over [c] cs _
    rw [places_of_none h, mapM_behind, List.mapM_cons]
    simp only [Piece.replace, pure_bind, hsplice, map_bind, map_pure, List.flatten_cons]
    have hrest := congrArg (([c] ++ ·) <$> ·) ih
    simpa only [Functor.map_map, bind_pure_comp] using hrest

theorem splice_kept (form : Form) (text : List Char) :
    Text.splice text 0 ((form.places text).map fun p => (p, none)) = text := by
  fun_induction pieces form text with
  | case1 =>
    rw [places, pieces]
    rfl
  | case2 c cs o rest h ih =>
    have hsplice := Text.splice_reference rest ((form.places rest).map fun p => (p, none)) o none
    rw [ih, List.map_map] at hsplice
    rw [places_of_match? h, match?_text h, List.map_cons, List.map_map]
    exact hsplice
  | case3 c cs h ih =>
    have hsplice := Text.splice_over [c] cs ((form.places cs).map fun p => (p, none))
    rw [ih, List.map_map] at hsplice
    rw [places_of_none h, List.map_map]
    exact hsplice

/-- The search for references asks once for each literal that is to be found, from left to right,
whatever is answered. The result is the text with the answers in place of these literals, and it is
the text itself where none is answered. -/
theorem replaceLiterals_eq (form : Form) (text : String) :
    ∃ found, form.Leftmost text.toList found ∧
      (∀ found', form.Leftmost text.toList found' → found' = found) ∧
      Text.splice text.toList 0 (found.map fun p => (p, none)) = text.toList ∧
      ∀ {m : Type → Type} [Monad m] [LawfulMonad m] (answer : String → m (Option String)),
        form.replaceLiterals answer text = do
          let answers ← found.mapM fun p => answer p.literal
          return String.ofList (Text.splice text.toList 0 (found.zip answers)) := by
  refine ⟨form.places text.toList, leftmost_places form _, fun found' h =>
    h.eq (leftmost_places form _), splice_kept form _, fun answer => ?_⟩
  have hflatten := congrArg (String.ofList <$> ·)
    (flatten_mapM_replace form answer text.toList)
  simpa only [replaceLiterals, Functor.map_map, bind_pure_comp] using hflatten

/-- Answers every literal, and keeps a list of those it was asked for. -/
def answering (new literal : String) : StateM (List String) (Option String) := do
  modify (· ++ [literal])
  return some new

theorem replaceLiterals_eq_nested :
    (Form.statement.replaceLiterals (answering "./x") "from 'import 'a' from 'b'").run [] =
      ("from './x'a' from './x'", ["import ", "b"]) := by
  obtain ⟨found, -, hunique, -, hsearch⟩ :=
    replaceLiterals_eq .statement "from 'import 'a' from 'b'"
  have hplaces : Form.statement.places "from 'import 'a' from 'b'".toList =
      [⟨0, ⟨"from '".toList, "import ".toList, ['\'']⟩⟩,
        ⟨17, ⟨"from '".toList, "b".toList, ['\'']⟩⟩] := by decide +kernel
  rw [hsearch (answering "./x"), ← hunique _ (leftmost_places .statement _), hplaces]
  rfl

end Form

end Unalias
