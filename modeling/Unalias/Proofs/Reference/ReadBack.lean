import Unalias.Proofs.Reference.Mentions
import Unalias.Proofs.Reference.Resolution

/-!
Whether the new literals are read where they were put. One with a quote is not. One without is read
if it is in a statement; in a call it is read unless the search for statements takes what is right
in front of the call, or what is right behind the literal, for a literal of its own.
-/

namespace Unalias

theorem IsPlain.not_mem {cs : List Char} {q : Char} (h : IsPlain cs) (hq : isQuote q = true) :
    q ∉ cs := by
  intro hmem
  rw [h q hmem] at hq
  cases hq

namespace Form

/-- The text has a reference of the form with its literal at that place. -/
def ReadsAt (form : Form) (text : List Char) (n : Nat) (literal : String) : Prop :=
  ∃ p, form.OccursAt text p ∧ p.inner = n ∧ p.literal = literal

/-- A literal that stays, or gives way to one that ends as what opens a call. -/
def LeavesOpen (verdict : String → Resolution) (literal : String) : Prop :=
  ∀ new, verdict literal = .resolved new → call.opens new.toList = true

def Keeps (verdict : String → Resolution) (literal : String) : Prop :=
  ∀ new, verdict literal ≠ .resolved new

variable {form : Form} {text x y before after : List Char} {p : Place} {o : Occurrence}
  {literal : String} {q : Char}

theorem ReadsAt.isPlain {n : Nat} (h : form.ReadsAt text n literal) : IsPlain literal.toList := by
  obtain ⟨p, ⟨hreference, -⟩, -, rfl⟩ := h
  obtain ⟨keyword, -, q, q', -, -, hliteral, -⟩ := isReference_iff.1 hreference
  rwa [Place.literal, String.toList_ofList]

/-- A literal between two quotes is read if it has none, and what is around the quotes opens and
closes a reference. -/
theorem readsAt_iff {front back : List Char} {q q' : Char} (hq : isQuote q = true)
    (hq' : isQuote q' = true) :
    form.ReadsAt (front ++ [q] ++ (literal.toList ++ q' :: back)) (front ++ [q]).length literal ↔
      IsPlain literal.toList ∧ form.opens front = true ∧ form.closes back = true := by
  constructor
  · intro hreads
    refine ⟨hreads.isPlain, ?_⟩
    obtain ⟨p, hoccurs, hinner, rfl⟩ := hreads
    obtain ⟨keyword, hkeyword, c, c', -, -, -, ho⟩ := isReference_iff.1 hoccurs.1
    obtain ⟨start, rest, htext, hlength⟩ := hoccurs.exists_eq
    have hparts : front ++ [q] ++ (p.literal.toList ++ q' :: back) =
        start ++ (keyword ++ [form.separator]) ++ [c] ++
          (p.literal.toList ++ c' :: (form.closing ++ rest)) := by
      rw [htext, Place.literal, String.toList_ofList, ho]
      simp [Occurrence.text]
    have hbefore : (front ++ [q]).length =
        (start ++ (keyword ++ [form.separator]) ++ [c]).length := by
      rw [← hinner, Place.inner, ← hlength, ho]
      simp
    obtain ⟨hfront, hback⟩ := List.append_inj hparts hbefore
    obtain ⟨rfl, -⟩ := List.append_inj' hfront rfl
    obtain ⟨-, rfl⟩ := List.cons.inj (List.append_cancel_left hback)
    exact ⟨opens_iff.2 ⟨_, List.mem_map_of_mem hkeyword, List.suffix_append _ _⟩,
      closes_iff.2 ⟨rest, rfl⟩⟩
  · rintro ⟨hliteral, hopens, hcloses⟩
    obtain ⟨_, hopening, start, rfl⟩ := opens_iff.1 hopens
    obtain ⟨keyword, hkeyword, rfl⟩ := List.mem_map.1 hopening
    obtain ⟨rest, rfl⟩ := closes_iff.1 hcloses
    let o : Occurrence := ⟨keyword ++ [form.separator] ++ [q], literal.toList, q' :: form.closing⟩
    have hreference : form.IsReference o :=
      isReference_iff.2 ⟨keyword, hkeyword, q, q', hq, hq', hliteral, rfl⟩
    refine ⟨⟨start.length, o⟩, ⟨hreference, rest, ?_⟩, ?_, String.ofList_toList⟩
    · simp [o, Occurrence.text]
    · simp [o, Place.inner]

/-- What stands in front of a quote opens nothing behind it. -/
theorem opens_append_quote (hq : isQuote q = true) (x y : List Char) :
    form.opens (x ++ q :: y) = form.opens y := by
  apply Bool.eq_iff_iff.2
  rw [opens_iff, opens_iff]
  constructor
  · rintro ⟨o, ho, hsuffix⟩
    refine ⟨o, ho, ?_⟩
    have hplain : q ∉ o := (isPlain_of_mem_openings ho).not_mem hq
    obtain hs | hs := List.suffix_or_suffix_of_suffix hsuffix (List.suffix_append x (q :: y))
    · obtain rfl | hs := List.suffix_cons_iff.1 hs
      · exact absurd List.mem_cons_self hplain
      · exact hs
    · exact absurd (hs.subset List.mem_cons_self) hplain
  · rintro ⟨o, ho, hsuffix⟩
    exact ⟨o, ho, hsuffix.trans ((List.suffix_cons q y).trans (List.suffix_append x (q :: y)))⟩

/-! ### Around a quote -/

/-- Only one quote stands between two plain texts. -/
theorem eq_of_quote {a b c z : List Char} {q q' : Char} (ha : IsPlain a) (hb : IsPlain b)
    (hq : isQuote q = true) (h : a ++ q' :: b = c ++ q :: z) : a = c := by
  obtain ⟨w, rfl, hw⟩ | ⟨w, rfl, hw⟩ := List.append_eq_append_iff.1 h
  · cases w with
    | nil => simp
    | cons e w =>
      obtain ⟨-, rfl⟩ := List.cons.inj hw
      exact absurd (List.mem_append_right _ List.mem_cons_self) (hb.not_mem hq)
  · cases w with
    | nil => simp
    | cons e w =>
      obtain ⟨rfl, -⟩ := List.cons.inj hw
      exact absurd (List.mem_append_right _ List.mem_cons_self) (ha.not_mem hq)

theorem exists_of_statement (h : statement.IsReference o) : ∃ keyword ∈ statement.keywords,
    ∃ q q', isQuote q = true ∧ isQuote q' = true ∧ IsPlain o.literal ∧
      o.opening = (keyword ++ [' ']) ++ [q] ∧ o.closing = [q'] := by
  obtain ⟨keyword, hkeyword, q, q', hq, hq', hliteral, ho⟩ := isReference_iff.1 h
  exact ⟨keyword, hkeyword, q, q', hq, hq', hliteral, by rw [ho]; rfl, by rw [ho]; rfl⟩

/-- A quote inside a statement, other than the last, is the one that opens the literal. -/
theorem opening_eq_of_quote {c y rest : List Char} (h : statement.IsReference o)
    (hq : isQuote q = true) (htext : o.text ++ rest = c ++ q :: y)
    (hlt : c.length + 1 < o.text.length) : o.opening = c ++ [q] := by
  obtain ⟨keyword, hkeyword, q', q'', hq', -, hliteral, hopening, hclosing⟩ :=
    exists_of_statement h
  have hfirst : c ++ [q] <+: o.text ++ rest := ⟨y, by rw [htext]; simp⟩
  have hsecond : o.opening ++ o.literal <+: o.text ++ rest :=
    ⟨o.closing ++ rest, by rw [Occurrence.text]; simp⟩
  have hle : (c ++ [q]).length ≤ (o.opening ++ o.literal).length := by
    rw [Occurrence.text, hclosing, List.length_append, List.length_singleton] at hlt
    rw [List.length_append, List.length_singleton]
    exact Nat.le_of_lt_succ hlt
  -- so the quote is among what opens the literal and the literal, where there is only one
  obtain ⟨z, hz⟩ := List.prefix_of_prefix_length_le hfirst hsecond hle
  have hplain : IsPlain (keyword ++ [' ']) :=
    isPlain_of_mem_openings (List.mem_map_of_mem hkeyword)
  rw [hopening, List.append_assoc _ [q'], List.append_assoc c] at hz
  obtain rfl := eq_of_quote hplain hliteral hq hz.symm
  obtain ⟨rfl, -⟩ := List.cons.inj (List.append_cancel_left hz)
  exact hopening

/-- A statement that goes on behind a quote opens its literal with it. -/
theorem opens_of_across (hq : isQuote q = true) (hp : p ∈ statement.places (x ++ q :: y))
    (hstart : p.start ≤ x.length) (hstop : x.length + 1 < p.stop) :
    statement.opens x = true ∧ p.inner = x.length + 1 := by
  obtain ⟨before, rest, h⟩ := exists_around hp
  rw [← h.length_eq] at hstart
  obtain ⟨c, rfl⟩ := List.prefix_of_prefix_length_le ⟨_, h.text_eq.symm⟩
    (List.prefix_append x (q :: y)) hstart
  have htext := h.text_eq
  rw [List.append_assoc] at htext
  rw [Place.stop, ← h.length_eq, List.length_append] at hstop
  have hopening := opening_eq_of_quote h.isReference hq (List.append_cancel_left htext).symm
    (by omega)
  obtain ⟨keyword, hkeyword, q', -, -, -, -, hopening', -⟩ := exists_of_statement h.isReference
  obtain ⟨rfl, -⟩ := List.append_inj' (hopening.symm.trans hopening') rfl
  refine ⟨opens_iff.2 ⟨_, List.mem_map_of_mem hkeyword, List.suffix_append _ _⟩, ?_⟩
  rw [Place.inner, ← h.length_eq, hopening']
  simp only [List.length_append, List.length_singleton]
  omega

/-- No statement goes on behind a quote that opens the literal of a call. -/
theorem cutsAt_of_opens (hopens : call.opens x = true) (hq : isQuote q = true) (y : List Char) :
    statement.CutsAt (x ++ q :: y) (x.length + 1) := by
  intro p hp hlt
  by_contra hstop
  have hacross := (opens_of_across hq hp (Nat.le_of_lt_succ hlt) (Nat.lt_of_not_le hstop)).1
  rw [Resolver.not_opens_statement hopens] at hacross
  cases hacross

/-! ### In front of a call -/

theorem statement_stop (h : statement.IsReference p.reference) :
    p.stop = p.inner + p.reference.literal.length + 1 := by
  obtain ⟨keyword, -, q, q', -, -, -, -, hclosing⟩ := exists_of_statement h
  rw [Place.stop, Place.inner, Occurrence.text, hclosing]
  simp
  omega

variable {verdict : String → Resolution}

/-- A plain text at the end of another belongs to no statement. -/
theorem cutsAt_of_isPlain (x : List Char) (hy : IsPlain y) :
    statement.CutsAt (x ++ y) x.length := by
  intro p hp _
  obtain ⟨before, rest, h⟩ := exists_around hp
  obtain ⟨keyword, -, q, q', -, hq', -, -, hclosing⟩ := exists_of_statement h.isReference
  have htext : x ++ y = (before ++ (p.reference.opening ++ p.reference.literal)) ++ q' :: rest := by
    rw [h.text_eq, Occurrence.text, hclosing]
    simp
  by_contra hstop
  -- its last quote would stand in `y`
  have hle : x.length ≤ (before ++ (p.reference.opening ++ p.reference.literal)).length := by
    rw [statement_stop h.isReference, Place.inner, ← h.length_eq] at hstop
    simp only [List.length_append]
    omega
  obtain ⟨w, hw⟩ := List.prefix_of_prefix_length_le (List.prefix_append x y) ⟨_, htext.symm⟩ hle
  rw [← hw, List.append_assoc] at htext
  rw [List.append_cancel_left htext] at hy
  exact hy.not_mem hq' (List.mem_append_right _ List.mem_cons_self)

theorem settle_append_plain (hy : IsPlain y) :
    statement.settle verdict (x ++ y) = statement.settle verdict x ++ y := by
  rw [(cutsAt_of_isPlain x hy).settle_append (List.prefix_refl y), (settle_nil verdict hy).1]

/-- A statement whose last quote is the one in front of the literal of a call. -/
theorem exists_settle_of_stop (verdict : String → Resolution) (hp : p ∈ statement.places (x ++ [q]))
    (hstop : p.stop = (x ++ [q]).length) :
    ∃ start start' q', isQuote q' = true ∧ x = start ++ q' :: p.reference.literal ∧
      statement.settle verdict (x ++ [q]) =
        start' ++ q' :: settledLiteral verdict p.reference.literal ++ [q] := by
  obtain ⟨before, rest, h⟩ := exists_around hp
  obtain ⟨keyword, -, q', q'', hq', -, -, hopening, hclosing⟩ := exists_of_statement h.isReference
  have hrest : rest = [] := by
    have hlength := congrArg List.length h.text_eq
    rw [← hstop, Place.stop, ← h.length_eq, List.length_append, List.length_append] at hlength
    exact List.eq_nil_of_length_eq_zero (by omega)
  have htext : x ++ [q] =
      (before ++ (keyword ++ [' ']) ++ q' :: p.reference.literal) ++ [q''] := by
    rw [h.text_eq, hrest, Occurrence.text, hopening, hclosing]
    simp
  obtain ⟨rfl, hq⟩ := List.append_inj' htext rfl
  obtain rfl := List.singleton_inj.1 hq
  refine ⟨_, statement.settle verdict before ++ (keyword ++ [' ']), q', hq', rfl, ?_⟩
  have hnil : statement.settle verdict [] = [] := (settle_nil verdict (by simp [IsPlain])).1
  rw [h.settle_eq, hrest, hopening, hclosing, hnil]
  simp

theorem settledLiteral_iff {P : List Char → Prop} {literal : List Char} (h : P literal) :
    P (settledLiteral verdict literal) ↔
      ∀ new, verdict (String.ofList literal) = .resolved new → P new.toList := by
  rw [settledLiteral]
  cases verdict (String.ofList literal) <;> simp [Resolution.new?, h]

/-- Whether a call is still opened when the search for statements has gone over what is in front of
its literal. -/
theorem exists_settle_front (verdict : String → Resolution) (hopens : call.opens x = true)
    (hq : isQuote q = true) :
    ∃ front, statement.settle verdict (x ++ [q]) = front ++ [q] ∧
      (call.opens front = true ↔ ∀ p ∈ statement.places (x ++ [q]), p.stop = (x ++ [q]).length →
        LeavesOpen verdict p.literal) := by
  by_cases hexists : ∃ p ∈ statement.places (x ++ [q]), p.stop = (x ++ [q]).length
  -- the quote is the last of a statement, whose literal ends as `x` does
  · have hfront : ∀ front, statement.settle verdict (x ++ [q]) = front ++ [q] →
        ∀ p ∈ statement.places (x ++ [q]), p.stop = (x ++ [q]).length →
          (call.opens front = true ↔ LeavesOpen verdict p.literal) := by
      intro front hfront p hp hstop
      obtain ⟨start, start', q', hq', rfl, hsettle⟩ := exists_settle_of_stop verdict hp hstop
      obtain rfl := List.append_cancel_right (hfront.symm.trans hsettle)
      rw [opens_append_quote hq'] at hopens ⊢
      exact settledLiteral_iff (P := fun cs => call.opens cs = true) hopens
    obtain ⟨p, hp, hstop⟩ := hexists
    obtain ⟨start, start', q', -, -, hsettle⟩ := exists_settle_of_stop verdict hp hstop
    refine ⟨_, hsettle, fun h p hp hstop => (hfront _ hsettle p hp hstop).1 h, fun h => ?_⟩
    exact (hfront _ hsettle p hp hstop).2 (h p hp hstop)
  · have hnone : ∀ p ∈ statement.places (x ++ [q]), p.stop ≠ (x ++ [q]).length :=
      fun p hp hstop => hexists ⟨p, hp, hstop⟩
    have hcut : statement.CutsAt (x ++ [q]) x.length := by
      intro p hp _
      obtain ⟨before, rest, h⟩ := exists_around hp
      have hlength := congrArg List.length h.text_eq
      have hne := hnone p hp
      rw [Place.stop, ← h.length_eq] at hne ⊢
      simp only [List.length_append, List.length_singleton] at hlength hne
      omega
    obtain ⟨o, ho, start, rfl⟩ := opens_iff.1 hopens
    refine ⟨statement.settle verdict start ++ o, ?_, ?_⟩
    · have hlast : statement.settle verdict [q] = [q] :=
        settle_quote (x := []) (by simp [IsPlain]) hq
      rw [hcut.settle_append (List.prefix_refl [q]), hlast,
        settle_append_plain (isPlain_of_mem_openings ho)]
    · have hopens' : call.opens (statement.settle verdict start ++ o) = true :=
        opens_iff.2 ⟨o, ho, List.suffix_append _ _⟩
      exact iff_of_true hopens' fun p hp hstop => absurd hstop (hnone p hp)

/-! ### Behind the literal of a call -/

/-- A statement whose literal is right behind the last quote of a call. -/
theorem exists_settle_of_inner {new rest : List Char} (verdict : String → Resolution)
    (hnew : IsPlain new) (hp : p ∈ statement.places (new ++ q :: ')' :: rest))
    (hinner : p.inner = new.length + 1) :
    ∃ literal after, p.reference.literal = ')' :: literal ∧
      statement.settle verdict (new ++ q :: ')' :: rest) =
        new ++ q :: (settledLiteral verdict p.reference.literal ++ after) := by
  obtain ⟨before, rest', h⟩ := exists_around hp
  obtain ⟨keyword, -, q', q'', -, hq'', -, hopening, hclosing⟩ := exists_of_statement h.isReference
  have htext : (new ++ [q]) ++ ')' :: rest = (before ++ (keyword ++ [' ']) ++ [q']) ++
      (p.reference.literal ++ q'' :: rest') := by
    rw [List.append_assoc, List.singleton_append, h.text_eq, Occurrence.text, hopening, hclosing]
    simp
  have hlength : (new ++ [q]).length = (before ++ (keyword ++ [' ']) ++ [q']).length := by
    rw [Place.inner, ← h.length_eq, hopening] at hinner
    simpa [Nat.add_assoc] using hinner.symm
  obtain ⟨hfront, hback⟩ := List.append_inj htext hlength
  obtain ⟨rfl, hquote⟩ := List.append_inj' hfront rfl
  obtain rfl := List.singleton_inj.1 hquote
  have hbefore : IsPlain before := fun c hc => hnew c (List.mem_append_left _ hc)
  refine ⟨p.reference.literal.tail, q'' :: statement.settle verdict rest', ?_, ?_⟩
  · cases hliteral : p.reference.literal with
    | nil =>
      rw [hliteral, List.nil_append] at hback
      obtain ⟨rfl, -⟩ := List.cons.inj hback
      cases hq''
    | cons c literal =>
      rw [hliteral, List.cons_append] at hback
      obtain ⟨rfl, -⟩ := List.cons.inj hback
      rfl
  · rw [h.settle_eq, (settle_nil verdict hbefore).1, hopening, hclosing]
    simp

/-- Whether a call is still closed when the search for statements has gone over its literal and
what is behind it. -/
theorem exists_settle_back {new : List Char} (rest : List Char) {verdict : String → Resolution}
    (hnew : IsPlain new) (hq : isQuote q = true)
    (hdot : ∀ literal new, verdict literal = .resolved new → new.toList.head? = some '.') :
    ∃ back, statement.settle verdict (new ++ q :: ')' :: rest) = new ++ q :: back ∧
      (call.closes back = true ↔ ∀ p ∈ statement.places (new ++ q :: ')' :: rest),
        p.inner = new.length + 1 → Keeps verdict p.literal) := by
  by_cases hexists : ∃ p ∈ statement.places (new ++ q :: ')' :: rest), p.inner = new.length + 1
  · have hback : ∀ back, statement.settle verdict (new ++ q :: ')' :: rest) = new ++ q :: back →
        ∀ p ∈ statement.places (new ++ q :: ')' :: rest), p.inner = new.length + 1 →
          (call.closes back = true ↔ Keeps verdict p.literal) := by
      intro back hback p hp hinner
      obtain ⟨literal, after, hliteral, hsettle⟩ := exists_settle_of_inner verdict hnew hp hinner
      obtain ⟨-, rfl⟩ := List.cons.inj (List.append_cancel_left (hback.symm.trans hsettle))
      have hkept : call.closes (p.reference.literal ++ after) = true := by
        rw [hliteral]
        rfl
      rw [settledLiteral_iff (P := fun cs => call.closes (cs ++ after) = true) hkept]
      -- a new literal begins with a dot, and no longer with a parenthesis
      refine forall_congr' fun new' => forall_congr' fun hnew' => iff_false_intro ?_
      obtain ⟨cs, hcs⟩ := List.head?_eq_some_iff.1 (hdot _ _ hnew')
      rw [hcs]
      simp [closes, closing]
    obtain ⟨p, hp, hinner⟩ := hexists
    obtain ⟨literal, after, -, hsettle⟩ := exists_settle_of_inner verdict hnew hp hinner
    refine ⟨_, hsettle, fun h p hp hinner => (hback _ hsettle p hp hinner).1 h, fun h => ?_⟩
    exact (hback _ hsettle p hp hinner).2 (h p hp hinner)
  · have hnone : ∀ p ∈ statement.places (new ++ q :: ')' :: rest), p.inner ≠ new.length + 1 :=
      fun p hp hinner => hexists ⟨p, hp, hinner⟩
    have hcut : statement.CutsAt ((new ++ [q]) ++ ')' :: rest) (new ++ [q]).length := by
      intro p hp hlt
      rw [List.append_assoc, List.singleton_append] at hp
      rw [List.length_append, List.length_singleton] at hlt ⊢
      by_contra hstop
      exact hnone p hp (opens_of_across hq hp (Nat.le_of_lt_succ hlt) (Nat.lt_of_not_le hstop)).2
    have hmatch : statement.match? (')' :: rest) = none := rfl
    have hrest : statement.settle verdict (')' :: rest) =
        ')' :: statement.settle verdict rest := by
      rw [settle, pieces_of_none hmatch]
      rfl
    refine ⟨')' :: statement.settle verdict rest, ?_, iff_of_true rfl fun p hp hinner =>
      absurd hinner (hnone p hp)⟩
    calc statement.settle verdict (new ++ q :: ')' :: rest)
        = statement.settle verdict ((new ++ [q]) ++ ')' :: rest) := by simp
      _ = new ++ [q] ++ ')' :: statement.settle verdict rest := by
        rw [hcut.settle_append (List.prefix_refl _), settle_quote hnew hq, hrest]
      _ = new ++ q :: ')' :: statement.settle verdict rest := by simp

/-! ### Both sides of a cut -/

theorem CutsAt.forall_places {P : Place → Prop} (h : form.CutsAt (x ++ y) x.length) :
    (∀ p ∈ form.places (x ++ y), P p) ↔
      (∀ p ∈ form.places x, P p) ∧ ∀ p ∈ form.places y, P (p.behind x.length) := by
  rw [h.places_append, List.forall_mem_append, List.forall_mem_map]

/-- What ends at a cut stands in front of it. -/
theorem CutsAt.forall_stop_iff {P : String → Prop} (h : form.CutsAt (x ++ y) x.length) :
    (∀ p ∈ form.places (x ++ y), p.stop = x.length → P p.literal) ↔
      ∀ p ∈ form.places x, p.stop = x.length → P p.literal := by
  rw [h.forall_places]
  refine and_iff_left fun p hp hstop => ?_
  have hlt := (isReference_of_mem hp).start_lt_stop
  simp only [Place.stop, Place.behind] at hlt hstop
  omega

/-- What has its literal behind a cut stands behind it. -/
theorem CutsAt.forall_inner_iff {P : String → Prop} (h : form.CutsAt (x ++ y) x.length) (n : Nat) :
    (∀ p ∈ form.places (x ++ y), p.inner = x.length + (n + 1) → P p.literal) ↔
      ∀ p ∈ form.places y, p.inner = n + 1 → P p.literal := by
  have hbehind : ∀ p : Place, (p.behind x.length).inner = x.length + (n + 1) ↔ p.inner = n + 1 := by
    intro p
    simp only [Place.inner, Place.behind]
    omega
  rw [h.forall_places]
  simp only [hbehind]
  refine and_iff_right fun p hp hinner => ?_
  have hle := stop_le_length hp
  simp only [Place.inner, Place.stop, Occurrence.text, List.length_append] at hinner hle
  omega

end Form

namespace Resolver

variable (r : Resolver) (d : Disk) (file : Path) (text : String)

/-- The place of a literal in the new text. -/
def landing (m : Mention) : Nat :=
  Form.statement.carried (r.verdict d file) (r.afterCalls d file text).toList m.place

/-- The search for statements leaves a call with its new literal: if it replaces what is right in
front of the call, then by what opens a call as well, and it replaces nothing right behind the
literal. -/
structure Spared (m : Mention) (new : String) : Prop where
  front : ∀ s ∈ r.statements d file text, s.place + s.literal.length + 1 = m.place →
    Form.LeavesOpen (r.verdict d file) s.literal
  back : ∀ s ∈ r.statements d file text, s.place = m.place + new.length + 1 →
    Form.Keeps (r.verdict d file) s.literal

variable {r d file text}

theorem forall_statements_stop {P : String → Prop} (n : Nat) :
    (∀ s ∈ r.statements d file text, s.place + s.literal.length + 1 = n → P s.literal) ↔
      ∀ p ∈ Form.statement.places (r.afterCalls d file text).toList, p.stop = n → P p.literal := by
  rw [statements, List.forall_mem_map]
  refine forall_congr' fun p => forall_congr' fun hp => ?_
  rw [Form.statement_stop (Form.isReference_of_mem hp)]
  simp only [Place.literal, String.length_ofList]

theorem forall_statements_inner {P : String → Prop} (n : Nat) :
    (∀ s ∈ r.statements d file text, s.place = n → P s.literal) ↔
      ∀ p ∈ Form.statement.places (r.afterCalls d file text).toList, p.inner = n → P p.literal := by
  rw [statements, List.forall_mem_map]

theorem dot_of_verdict {reference new : String} (h : r.verdict d file reference = .resolved new) :
    new.toList.head? = some '.' :=
  head?_of_verdict (by rw [h]; rfl)

/-- A call in the text between the two searches. -/
theorem exists_call_between {m : Mention} {new : String} (hm : m ∈ r.calls d file text)
    (hnew : r.verdict d file m.literal = .resolved new) :
    ∃ x q q' rest, Form.call.opens x = true ∧ isQuote q = true ∧ isQuote q' = true ∧
      (r.afterCalls d file text).toList = x ++ [q] ++ (new.toList ++ q' :: ')' :: rest) ∧
      m.place = (x ++ [q]).length := by
  obtain ⟨p, hp, rfl⟩ := List.mem_map.1 hm
  obtain ⟨before, rest, h⟩ := Form.exists_around hp
  obtain ⟨keyword, hkeyword, q, q', hq, hq', -, ho⟩ := Form.isReference_iff.1 h.isReference
  have hliteral : Form.settledLiteral (r.verdict d file) p.reference.literal = new.toList :=
    Form.settledLiteral_of_some (by rw [← Place.literal, hnew]; rfl)
  refine ⟨Form.call.settle (r.verdict d file) before ++ (keyword ++ ['(']), q, q',
    Form.call.settle (r.verdict d file) rest, ?_, hq, hq', ?_, ?_⟩
  · exact Form.opens_iff.2 ⟨_, List.mem_map_of_mem hkeyword, List.suffix_append _ _⟩
  · rw [toList_afterCalls, h.settle_eq, hliteral, ho]
    simp [Form.separator, Form.closing]
  · rw [h.carried_eq, ho]
    simp [Form.separator]

theorem readsAt_call {m : Mention} {new : String} (hm : m ∈ r.calls d file text)
    (hnew : r.verdict d file m.literal = .resolved new) :
    Form.call.ReadsAt (r.unaliased d file text).text.toList (r.landing d file text m) new ↔
      IsPlain new.toList ∧ r.Spared d file text m new := by
  by_cases hplain : IsPlain new.toList
  swap
  · exact iff_of_false (fun hreads => hplain hreads.isPlain) fun h => hplain h.1
  obtain ⟨x, q, q', rest, hopens, hq, hq', hbetween, hplace⟩ := exists_call_between hm hnew
  have hcut : Form.statement.CutsAt (x ++ [q] ++ (new.toList ++ q' :: ')' :: rest))
      (x ++ [q]).length := by
    simpa using Form.cutsAt_of_opens hopens hq (new.toList ++ q' :: ')' :: rest)
  obtain ⟨front, hfront, hopened⟩ := Form.exists_settle_front (r.verdict d file) hopens hq
  obtain ⟨back, hback, hclosed⟩ :=
    Form.exists_settle_back rest hplain hq' fun _ _ => dot_of_verdict (r := r)
  have hresult : (r.unaliased d file text).text.toList =
      front ++ [q] ++ (new.toList ++ q' :: back) := by
    rw [text_unaliased, String.toList_ofList, ← toList_afterCalls, hbetween,
      hcut.settle_append (List.prefix_refl _), hfront, hback]
  have hlanding : r.landing d file text m = (front ++ [q]).length := by
    rw [landing, Form.carried, hbetween, hplace, List.take_left, hfront]
  have hspared : (Form.call.opens front = true ∧ Form.call.closes back = true) ↔
      r.Spared d file text m new := by
    rw [← hcut.forall_stop_iff, ← hbetween, ← forall_statements_stop, ← hplace] at hopened
    rw [← hcut.forall_inner_iff, ← hbetween, ← forall_statements_inner, ← hplace,
      String.length_toList] at hclosed
    rw [hopened, hclosed]
    exact ⟨fun h => ⟨h.1, h.2⟩, fun hspared => ⟨hspared.front, hspared.back⟩⟩
  rw [hlanding, hresult, Form.readsAt_iff hq hq', hspared]

theorem readsAt_statement {m : Mention} {new : String} (hm : m ∈ r.statements d file text)
    (hnew : r.verdict d file m.literal = .resolved new) :
    Form.statement.ReadsAt (r.unaliased d file text).text.toList (r.landing d file text m) new ↔
      IsPlain new.toList := by
  obtain ⟨p, hp, rfl⟩ := List.mem_map.1 hm
  obtain ⟨before, rest, h⟩ := Form.exists_around hp
  obtain ⟨keyword, hkeyword, q, q', hq, hq', -, hopening, hclosing⟩ :=
    Form.exists_of_statement h.isReference
  let front := Form.statement.settle (r.verdict d file) before ++ (keyword ++ [' '])
  have hliteral : Form.settledLiteral (r.verdict d file) p.reference.literal = new.toList :=
    Form.settledLiteral_of_some (by rw [← Place.literal, hnew]; rfl)
  have hresult : (r.unaliased d file text).text.toList =
      front ++ [q] ++ (new.toList ++ q' :: Form.statement.settle (r.verdict d file) rest) := by
    rw [text_unaliased, String.toList_ofList, ← toList_afterCalls, h.settle_eq, hliteral,
      hopening, hclosing]
    simp [front]
  have hlanding : r.landing d file text ⟨.statement, p.inner, p.literal⟩ =
      (front ++ [q]).length := by
    rw [landing, Form.carried, h.settle_take_inner, hopening, ← List.append_assoc]
  have hopens : Form.statement.opens front = true :=
    Form.opens_iff.2 ⟨_, List.mem_map_of_mem hkeyword, List.suffix_append _ _⟩
  rw [hlanding, hresult, Form.readsAt_iff hq hq']
  exact and_iff_left ⟨hopens, rfl⟩

/-- When the new literals of a file are read where they were put. -/
theorem unalias_reads_back (r : Resolver) (d : Disk) (file : Path) (text : String) :
    (r.unalias file text).run d = (r.unaliased d file text, d) ∧
      (r.unaliased d file text).outcome.replacements = (r.mentions d file text).filterMap (fun m =>
        (r.verdict d file m.literal).new?.map fun new => (m.literal, new)) ∧
      ∀ m ∈ r.mentions d file text, ∀ new, r.verdict d file m.literal = .resolved new →
        (m.form.ReadsAt (r.unaliased d file text).text.toList (r.landing d file text m) new ↔
          IsPlain new.toList ∧ (m.form = .call → r.Spared d file text m new)) := by
  refine ⟨unalias_run r d file text, (listed r d file text).replacements_eq, ?_⟩
  intro m hm new hnew
  obtain hcall | hstatement := List.mem_append.1 hm
  · have hform : m.form = .call := by
      obtain ⟨p, -, rfl⟩ := List.mem_map.1 hcall
      rfl
    simpa [hform] using readsAt_call hcall hnew
  · have hform : m.form = .statement := by
      obtain ⟨p, -, rfl⟩ := List.mem_map.1 hstatement
      rfl
    simpa [hform] using readsAt_statement hstatement hnew

end Resolver

theorem unalias_reads_back_oneFile :
    let file : Path := ⟨"/w/dist/a.js"⟩
    let m : Mention := ⟨.call, 9, "@/b.ts"⟩
    (m ∈ printing.job.mentions oneFile file "require('@/b.ts')" ∧
      printing.job.verdict oneFile file m.literal = .resolved "./b.ts") ∧
      Form.call.ReadsAt (printing.job.unaliased oneFile file "require('@/b.ts')").text.toList
        (printing.job.landing oneFile file "require('@/b.ts')" m) "./b.ts" := by
  intro file m
  have hparent : file.parent? = some ⟨"/w/dist"⟩ := by decide
  have hverdict : printing.job.verdict oneFile file "@/b.ts" = .resolved "./b.ts" :=
    Sample.verdict_literal Sample.hasModule_src hparent
  have hcalls : printing.job.calls oneFile file "require('@/b.ts')" = [m] := by
    have hplaces : Form.call.places "require('@/b.ts')".toList =
        [⟨0, ⟨"require('".toList, "@/b.ts".toList, "')".toList⟩⟩] := by decide +kernel
    have htake : "require('@/b.ts')".toList.take 9 = "require(".toList ++ ['\''] := by
      decide +kernel
    have hcarried : Form.call.carried (printing.job.verdict oneFile file)
        "require('@/b.ts')".toList 9 = 9 := by
      rw [Form.carried, htake, Form.settle_quote Sample.isPlain_before rfl]
      rfl
    rw [Resolver.calls, hplaces]
    exact congrArg (fun n => [(⟨.call, n, "@/b.ts"⟩ : Mention)]) hcarried
  have hstatements : printing.job.statements oneFile file "require('@/b.ts')" = [] := by
    have hbetween : Form.call.settle (printing.job.verdict oneFile file) _ = _ :=
      (Sample.settle_file Sample.hasModule_src hparent).1
    have hplaces : Form.statement.places ("require(".toList ++
        Segment.joined (Sample.segments "./b.ts")) = [] := by decide +kernel
    rw [Resolver.statements, Resolver.toList_afterCalls, hbetween, hplaces]
    rfl
  have hm : m ∈ printing.job.mentions oneFile file "require('@/b.ts')" :=
    List.mem_append_left _ (by rw [hcalls]; exact List.mem_cons_self)
  obtain ⟨-, -, hreads⟩ :=
    Resolver.unalias_reads_back printing.job.toResolver oneFile file "require('@/b.ts')"
  refine ⟨⟨hm, hverdict⟩, (hreads m hm _ hverdict).2 ⟨by decide +kernel, fun _ => ?_⟩⟩
  exact ⟨by rw [hstatements]; simp, by rw [hstatements]; simp⟩

/-- A tree with a module in a directory that has a quote in its name. -/
def quotedDirectory : Disk where
  workingDirectory := ["p"]
  entries :=
    [(["p"], .directory), (["p", "src"], .directory), (["p", "src", "it's"], .directory),
      (["p", "src", "it's", "foo.ts"], .file .empty)]
  nodup := by decide

theorem quotedDirectory.verdict_literal :
    (amongSources [⟨"@/", ["it's/"]⟩]).verdict quotedDirectory ⟨"/p/dist/a.js"⟩ "@/foo.ts" =
      .resolved "./it's/foo.ts" := by
  have hmatching : (amongSources [⟨"@/", ["it's/"]⟩]).matching? "@/foo.ts" =
      some (⟨"@/", ["it's/"]⟩, "foo.ts") := by decide +kernel
  have hcandidates : (amongSources [⟨"@/", ["it's/"]⟩]).candidates ⟨"@/", ["it's/"]⟩ "foo.ts" =
      [⟨"/p/src/it's/foo.ts"⟩] := by decide +kernel
  have hlocate : quotedDirectory.locate ⟨"/p/src/it's/foo.ts"⟩ =
      .ok ["p", "src", "it's", "foo.ts"] :=
    Disk.locate_of_names ["p", "src", "it's", "foo.ts"] (by decide) (by decide)
      (Disk.walk_down (by decide) _ (by decide) rfl (by simp))
  have hkind : quotedDirectory.kind? ⟨"/p/src/it's/foo.ts"⟩ = some .file := by
    rw [Disk.kind?, hlocate]
    rfl
  have hmodule : quotedDirectory.hasModule ⟨"/p/src/it's/foo.ts"⟩ = true := by
    rw [Disk.hasModule, Path.spellings, List.any_cons, hkind]
    rfl
  rw [Resolver.verdict, hmatching]
  dsimp only
  rw [hcandidates, List.find?_cons, hmodule]
  decide +kernel

/-- A quote in the name of a directory ends the literal. -/
theorem not_reads_back_quoted :
    ¬∀ (paths : List (String × Json)) (r : Resolver) (d : Disk) (file : Path) (text : String),
      Rule.ofPaths paths = .ok r.rules → r.Rooted → d.IsTree → file.IsNormal →
        file.Below r.outRoot → ∀ m ∈ r.mentions d file text, ∀ new,
          r.verdict d file m.literal = .resolved new →
            m.form.ReadsAt (r.unaliased d file text).text.toList (r.landing d file text m) new := by
  intro h
  have hrules : Rule.ofPaths [("@/*", .array [.string "it's/*"])] = .ok [⟨"@/", ["it's/"]⟩] := by
    decide +kernel
  have hroots : (amongSources [⟨"@/", ["it's/"]⟩]).Rooted := ⟨by decide, by decide, by decide⟩
  have hplaces : Form.call.places "require('@/foo.ts')".toList =
      [⟨0, ⟨"require('".toList, "@/foo.ts".toList, "')".toList⟩⟩] := by decide +kernel
  have hm := (amongSources [⟨"@/", ["it's/"]⟩]).mem_mentions_of_call quotedDirectory
    ⟨"/p/dist/a.js"⟩ (hplaces ▸ List.mem_singleton_self _)
  have hreads := h _ _ quotedDirectory ⟨"/p/dist/a.js"⟩ "require('@/foo.ts')" hrules hroots
    (by decide) (by decide) (by decide) _ hm _ quotedDirectory.verdict_literal
  exact absurd hreads.isPlain (by decide +kernel)

end Unalias
