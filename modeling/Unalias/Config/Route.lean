import Unalias.Path.Basic

/-!
Routes of documents: each extends the next, none comes twice, and all have paths the system takes.
There are finitely many such paths, so a route cannot grow for ever; `Route.room` counts how many
documents more it could take.
-/

namespace Unalias

/-- A number for each text; texts of `n` characters have numbers below `textBound n`. -/
def textBase : Nat := 0x110001

def textNumber : List Char → Nat
  | [] => 0
  | c :: cs => c.toNat + 1 + textBase * textNumber cs

theorem toNat_succ_lt_textBase (c : Char) : c.toNat + 1 < textBase := by
  have h : c.toNat < 0xd800 ∨ 0xdfff < c.toNat ∧ c.toNat < 0x110000 := c.valid
  unfold textBase
  omega

theorem textNumber_injective {s t : List Char} (h : textNumber s = textNumber t) : s = t := by
  induction s generalizing t with
  | nil =>
    cases t with
    | nil => rfl
    | cons d ds => simp only [textNumber] at h; omega
  | cons c cs ih =>
    cases t with
    | nil => simp only [textNumber] at h; omega
    | cons d ds =>
      simp only [textNumber] at h
      have hc := toNat_succ_lt_textBase c
      have hd := toNat_succ_lt_textBase d
      have hmod := congrArg (· % textBase) h
      simp only [Nat.add_mul_mod_self_left, Nat.mod_eq_of_lt hc, Nat.mod_eq_of_lt hd] at hmod
      have hcd : c = d := Char.toNat_inj.1 (Nat.succ.inj hmod)
      subst hcd
      have hmul : textBase * textNumber cs = textBase * textNumber ds := Nat.add_left_cancel h
      have hpos : 0 < textBase := Nat.lt_of_le_of_lt (Nat.zero_le _) hc
      rw [ih (Nat.eq_of_mul_eq_mul_left hpos hmul)]

def textBound : Nat → Nat
  | 0 => 1
  | n + 1 => textBase * textBound n

theorem textNumber_lt (s : List Char) : textNumber s < textBound s.length := by
  induction s with
  | nil => exact Nat.zero_lt_one
  | cons c cs ih =>
    have hc := toNat_succ_lt_textBase c
    have hstep : textBase * (textNumber cs + 1) ≤ textBase * textBound cs.length :=
      Nat.mul_le_mul_left _ ih
    rw [textNumber, List.length_cons, textBound]
    rw [Nat.mul_add, Nat.mul_one] at hstep
    omega

theorem textBound_mono {m n : Nat} (h : m ≤ n) : textBound m ≤ textBound n := by
  induction h with
  | refl => exact Nat.le_refl _
  | step _ ih => exact Nat.le_trans ih (Nat.le_mul_of_pos_left _ (by decide))

/-- Numbers below `n` that differ from each other are at most `n`. -/
theorem length_le_of_nodup_of_lt {l : List Nat} {n : Nat} (hl : l.Nodup) (hn : ∀ x ∈ l, x < n) :
    l.length ≤ n := by
  induction n generalizing l with
  | zero =>
    cases l with
    | nil => exact Nat.le_refl _
    | cons a l => exact absurd (hn a List.mem_cons_self) (Nat.not_lt_zero a)
  | succ n ih =>
    by_cases h : n ∈ l
    · have hlt : ∀ x ∈ l.erase n, x < n := by
        intro x hx
        have ⟨hne, hx⟩ := hl.mem_erase_iff.1 hx
        have := hn x hx
        omega
      have := ih (hl.erase n) hlt
      rw [List.length_erase_of_mem h] at this
      omega
    · have hlt : ∀ x ∈ l, x < n := by
        intro x hx
        have hne : x ≠ n := fun he => h (he ▸ hx)
        have := hn x hx
        omega
      exact Nat.le_succ_of_le (ih hl hlt)

theorem length_le_utf8ByteSize_ofList (cs : List Char) :
    cs.length ≤ (String.ofList cs).utf8ByteSize := by
  induction cs with
  | nil => exact Nat.zero_le _
  | cons c cs ih =>
    have hsplit : String.ofList (c :: cs) = String.singleton c ++ String.ofList cs := by
      rw [String.singleton_eq_ofList, ← String.ofList_append]
      rfl
    have := c.utf8Size_pos
    rw [hsplit, String.utf8ByteSize_append, String.utf8ByteSize_singleton, List.length_cons]
    omega

theorem length_le_utf8ByteSize (s : String) : s.toList.length ≤ s.utf8ByteSize := by
  have h := length_le_utf8ByteSize_ofList s.toList
  rwa [String.ofList_toList] at h

namespace Path

def count : Nat := textBound maxLength

theorem textNumber_lt_count {p : Path} (h : p.fits) : textNumber p.text.toList < count := by
  have hle : p.text.toList.length ≤ maxLength :=
    Nat.le_trans (length_le_utf8ByteSize p.text) (of_decide_eq_true h)
  exact Nat.lt_of_lt_of_le (textNumber_lt _) (textBound_mono hle)

end Path

/-- The documents on the way to the one that is read, the one loaded first in front. -/
structure Route where
  files : List Path
  nodup : files.Nodup
  fits : ∀ p ∈ files, p.fits

namespace Route

def start : Route := ⟨[], List.nodup_nil, fun _ h => absurd h List.not_mem_nil⟩

def extend (r : Route) (p : Path) (hnew : p ∉ r.files) (hfits : p.fits) : Route where
  files := r.files ++ [p]
  nodup := by
    refine List.nodup_append.2 ⟨r.nodup, List.pairwise_singleton _ p, ?_⟩
    intro a ha b hb he
    rw [List.mem_singleton.1 hb] at he
    exact hnew (he ▸ ha)
  fits := by
    intro q hq
    cases List.mem_append.1 hq with
    | inl h => exact r.fits q h
    | inr h => rw [List.mem_singleton.1 h]; exact hfits

/-- How many documents more a route could take. -/
def room (r : Route) : Nat := Path.count - r.files.length

theorem length_le_count (r : Route) : r.files.length ≤ Path.count := by
  have hnodup : (r.files.map fun p => textNumber p.text.toList).Nodup := by
    refine List.pairwise_map.2 (r.nodup.imp ?_)
    intro p q hne he
    have htext : p.text = q.text := String.toList_inj.1 (textNumber_injective he)
    exact hne (by cases p; cases q; cases htext; rfl)
  have hlt : ∀ n ∈ r.files.map fun p => textNumber p.text.toList, n < Path.count := by
    intro n hn
    obtain ⟨p, hp, rfl⟩ := List.mem_map.1 hn
    exact Path.textNumber_lt_count (r.fits p hp)
  have := length_le_of_nodup_of_lt hnodup hlt
  rwa [List.length_map] at this

theorem room_extend_lt (r : Route) (p : Path) (hnew : p ∉ r.files) (hfits : p.fits) :
    (r.extend p hnew hfits).room < r.room := by
  have h := (r.extend p hnew hfits).length_le_count
  have hlen : (r.extend p hnew hfits).files.length = r.files.length + 1 := by
    simp only [extend, List.length_append, List.length_singleton]
  unfold room
  rw [hlen] at h ⊢
  omega

end Route

end Unalias
