import Mathlib.Data.Set.Finite.List
import Unalias.Proofs.Config.Merge

/-!
Documents that extend each other in a circle. The walk through all that a document extends comes
to an end: the documents on the way to the one that is read differ from each other and have paths
that the system takes, of which there are finitely many. It ends because everything was read, or at
the first place where it fails; that place is a circle just if a document is reached that lies on
the way to itself.
-/

namespace Unalias

namespace Config

/-- The walk that starts at `file` gets to `p` by way of `route`, and nothing has failed before. -/
inductive Reaches (d : Disk) (file : Path) : List Path → Path → Prop
  | start : Reaches d file [] file
  | next {route : List Path} {p parent : Path} {document : Document} {entry : String}
      {before after : List String} {visits : List Visit} (h : Reaches d file route p)
      (hnew : p ∉ route) (hread : (read p).on d = (.ok document, d))
      (hentries : document.extends?.getD [] = before ++ entry :: after)
      (hbefore : Visits d (route ++ [p]) p before visits)
      (hlocate : (locate p entry).on d = (.ok parent, d)) :
      Reaches d file (route ++ [p]) parent

/-- The walk fails at `p` itself, reached by way of `route`: it has been there, it cannot read `p`,
it does not find a document that `p` extends, or the options of `p` are wrong. -/
inductive Fails (d : Disk) (route : List Path) (p : Path) : Error → Prop
  | circular (h : p ∈ route) : Fails d route p (.config (.circularExtends (route ++ [p])))
  | unread {e : Error} (hnew : p ∉ route) (hread : (read p).on d = (.error e, d)) :
      Fails d route p e
  | astray {document : Document} {entry : String} {before after : List String}
      {visits : List Visit} {e : Error} (hnew : p ∉ route)
      (hread : (read p).on d = (.ok document, d))
      (hentries : document.extends?.getD [] = before ++ entry :: after)
      (hbefore : Visits d (route ++ [p]) p before visits)
      (hlocate : (locate p entry).on d = (.error e, d)) : Fails d route p e
  | options {document : Document} {visits : List Visit} {e : ConfigError} (hnew : p ∉ route)
      (hread : (read p).on d = (.ok document, d))
      (habove : Visits d (route ++ [p]) p (document.extends?.getD []) visits)
      (hoptions : Layer.ofOptions (directoryOf p) document.options = .error e) :
      Fails d route p (.config e)

section Walk

variable {d : Disk} {file p : Path} {route : List Path} {e : Error}

/-- The way to a document is a route, so it is no longer than routes can be. -/
theorem Reaches.exists_route (h : Reaches d file route p) : ∃ r : Route, r.files = route := by
  induction h with
  | start => exact ⟨.start, rfl⟩
  | @next _ p _ _ _ _ _ _ _ hnew hread _ _ _ ih =>
    obtain ⟨r, rfl⟩ := ih
    exact ⟨r.extend p hnew (fits_of_read hread), rfl⟩

/-! ### What fails ends the walk -/

/-- A document fails if, once some of those it extends have been read, the rest of them fail. -/
theorem layer_on_of_before {r : Route} {document : Document} {before rest : List String}
    {visits : List Visit} (hnew : p ∉ r.files) (hread : (read p).on d = (.ok document, d))
    (hentries : document.extends?.getD [] = before ++ rest)
    (hbefore : Visits d (r.files ++ [p]) p before visits)
    (hrest : ∀ below, (layers (r.extend p hnew (fits_of_read hread)) p rest below).on d =
      (.error e, d)) : (layer r p).on d = (.error e, d) := by
  have hlayers := layers_append_on hbefore rest (r.extend p hnew (fits_of_read hread)) rfl {}
  rw [hrest] at hlayers
  rw [layer, dif_neg hnew, Attempt.bind_on_ok hread, dif_pos (fits_of_read hread), hentries,
    Attempt.bind_on_error hlayers]

theorem Fails.layer_on {r : Route} (h : Fails d r.files p e) :
    (layer r p).on d = (.error e, d) := by
  cases h with
  | circular h =>
    rw [layer, dif_pos h]
    rfl
  | unread hnew hread => rw [layer, dif_neg hnew, Attempt.bind_on_error hread]
  | astray hnew hread hentries hbefore hlocate =>
    apply layer_on_of_before hnew hread hentries hbefore
    intro below
    rw [layers, Attempt.bind_on_error hlocate]
  | options hnew hread habove hoptions =>
    have hlayers := layers_on habove (r.extend p hnew (fits_of_read hread)) rfl {}
    rw [layer, dif_neg hnew, Attempt.bind_on_ok hread, dif_pos (fits_of_read hread),
      Attempt.bind_on_ok hlayers]
    simp only [hoptions]
    rfl

/-- An error at a document that the walk gets to is the error of the whole walk. -/
theorem Reaches.start_on (h : Reaches d file route p)
    (herror : ∀ r : Route, r.files = route → (layer r p).on d = (.error e, d)) :
    (layer .start file).on d = (.error e, d) := by
  induction h with
  | start => exact herror .start rfl
  | next _ hnew hread hentries hbefore hlocate ih =>
    apply ih
    intro r hr
    subst hr
    apply layer_on_of_before hnew hread hentries hbefore
    intro below
    rw [layers, Attempt.bind_on_ok hlocate, Attempt.bind_on_error (herror _ rfl)]

/-! ### The walk ends -/

theorem Visits.append {entries entries' : List String} {visits visits' : List Visit}
    (h : Visits d route file entries visits) (h' : Visits d route file entries' visits') :
    Visits d route file (entries ++ entries') (visits ++ visits') := by
  induction h with
  | nil => exact h'
  | cons hlocate hnew hread hrules habove _ _ ih =>
    rw [List.append_assoc]
    exact .cons hlocate hnew hread hrules habove (ih h')

/-- From `p`, to which the walk got by way of `r`, everything can be read, or the walk fails
somewhere, and with it `p`. -/
def Settles (d : Disk) (file : Path) (r : Route) (p : Path) : Prop :=
  (∃ visits, Reads d r.files p visits) ∨
    ∃ e route q, (layer r p).on d = (.error e, d) ∧ Reaches d file route q ∧ Fails d route q e

/-- If all that `p` extends settles, it can all be read, or the walk fails there. -/
theorem settles_entries {r : Route} {document : Document} (hreach : Reaches d file r.files p)
    (hnew : p ∉ r.files) (hread : (read p).on d = (.ok document, d))
    (hsettles : ∀ parent, Reaches d file (r.files ++ [p]) parent →
      Settles d file (r.extend p hnew (fits_of_read hread)) parent)
    {before rest : List String} {visits : List Visit}
    (hentries : document.extends?.getD [] = before ++ rest)
    (hbefore : Visits d (r.files ++ [p]) p before visits) :
    (∃ visits, Visits d (r.files ++ [p]) p (document.extends?.getD []) visits) ∨
      ∃ e route q, (layer r p).on d = (.error e, d) ∧ Reaches d file route q ∧
        Fails d route q e := by
  induction rest generalizing before visits with
  | nil =>
    rw [hentries, List.append_nil]
    exact .inl ⟨visits, hbefore⟩
  | cons entry rest ih =>
    have hd := locate_on_snd d p entry
    rcases hlocate : (locate p entry).on d with ⟨e | parent, d'⟩
    · rw [hlocate] at hd
      subst hd
      have hfails : Fails d' r.files p e := .astray hnew hread hentries hbefore hlocate
      exact .inr ⟨e, r.files, p, hfails.layer_on, hreach, hfails⟩
    · rw [hlocate] at hd
      subst hd
      have hparent : Reaches d' file (r.files ++ [p]) parent :=
        .next hreach hnew hread hentries hbefore hlocate
      obtain ⟨above, habove⟩ | ⟨e, route, q, herror, hq, hfails⟩ := hsettles parent hparent
      · have hentry : Visits d' (r.files ++ [p]) p [entry] (above ++ []) :=
          .of_reads hlocate habove .nil
        apply ih (hentries.trans (List.append_cons _ _ _)) (hbefore.append hentry)
      · refine .inr ⟨e, route, q, ?_, hq, hfails⟩
        apply layer_on_of_before hnew hread hentries hbefore
        intro below
        rw [layers, Attempt.bind_on_ok hlocate, Attempt.bind_on_error herror]

theorem settles {r : Route} (hreach : Reaches d file r.files p) : Settles d file r p := by
  -- a longer route has less room
  induction hroom : r.room using Nat.strongRecOn generalizing r p with
  | _ room ih =>
    subst hroom
    by_cases hnew : p ∈ r.files
    · have hfails : Fails d r.files p _ := .circular hnew
      exact .inr ⟨_, r.files, p, hfails.layer_on, hreach, hfails⟩
    have hd := read_on_snd d p
    rcases hread : (read p).on d with ⟨e | document, d'⟩
    · rw [hread] at hd
      subst hd
      have hfails : Fails d' r.files p e := .unread hnew hread
      exact .inr ⟨e, r.files, p, hfails.layer_on, hreach, hfails⟩
    rw [hread] at hd
    subst hd
    have hlt := r.room_extend_lt p hnew (fits_of_read hread)
    obtain ⟨visits, hvisits⟩ | hfails :=
      settles_entries hreach hnew hread (fun parent hparent => ih _ hlt hparent rfl) rfl .nil
    · cases hoptions : Layer.ofOptions (directoryOf p) document.options with
      | error e =>
        have hfails : Fails d' r.files p (.config e) := .options hnew hread hvisits hoptions
        exact .inr ⟨_, r.files, p, hfails.layer_on, hreach, hfails⟩
      | ok own =>
        have hrules : Visit.HasRules ⟨p, document⟩ := Visit.hasRules_of_ofOptions hoptions
        exact .inl ⟨visits ++ [⟨p, document⟩], hnew, document, visits, hread, hrules, hvisits, rfl⟩
    · exact .inr hfails

/-! ### Which error it is -/

theorem read_on_error (h : (read p).on d = (.error e, d)) (route : List Path) :
    e ≠ .config (.circularExtends route) := by
  rintro rfl
  rw [read] at h
  cases hread : d.read p with
  | error cause =>
    rw [Attempt.bind_on_error (Attempt.read_on_error hread)] at h
    cases h
  | ok text =>
    rw [Attempt.bind_on_ok (Attempt.read_on_ok hread)] at h
    split at h <;> cases h

theorem locate_on_error {entry : String} (h : (locate p entry).on d = (.error e, d)) :
    e = .config (.parentNotFound entry p) := by
  have hlift : ∀ q, (liftM (Files.isFile q) : Attempt Bool).on d =
      (.ok (decide (d.kind? q = some .file)), d) := fun q => Attempt.lift_on _ d
  rw [locate, Attempt.bind_on_ok (hlift _)] at h
  split at h
  · cases h
  · split at h
    · rw [Attempt.bind_on_ok (hlift _)] at h
      split at h <;> cases h
      rfl
    · cases h
      rfl

theorem putAll_error {paths : List (String × Json)} {rules : List Rule} {e : ConfigError}
    (h : Rule.putAll rules paths = .error e) : ∃ pattern, e = .targetsNotStrings pattern := by
  induction paths generalizing rules with
  | nil => cases h
  | cons x paths ih =>
    obtain ⟨pattern, value⟩ := x
    rw [Rule.putAll] at h
    split at h
    · cases h
      exact ⟨pattern, rfl⟩
    · split at h
      · exact ih h
      · exact ih h

theorem ofOptions_error {here : Path} {options : Option Options} {e : ConfigError}
    (h : Layer.ofOptions here options = .error e) : ∃ pattern, e = .targetsNotStrings pattern := by
  cases options with
  | none => cases h
  | some options =>
    simp only [Layer.ofOptions] at h
    split at h
    · cases h
    · split at h
      · rename_i e' hrules
        cases h
        exact putAll_error hrules
      · cases h

/-- A failure says that documents extend each other in a circle just if it is one. -/
theorem Fails.circular_iff (h : Fails d route p e) (files : List Path) :
    e = .config (.circularExtends files) ↔ p ∈ route ∧ files = route ++ [p] := by
  cases h with
  | circular h =>
    simp only [Error.config.injEq, ConfigError.circularExtends.injEq]
    exact ⟨fun hfiles => ⟨h, hfiles.symm⟩, fun hfiles => hfiles.2.symm⟩
  | unread hnew hread => simp [hnew, read_on_error hread files]
  | astray hnew _ _ _ hlocate => simp [hnew, locate_on_error hlocate]
  | options hnew _ _ hoptions =>
    obtain ⟨pattern, rfl⟩ := ofOptions_error hoptions
    simp [hnew]

/-! ### How far the walk gets -/

theorem fits_of_locate {entry : String} {parent : Path}
    (h : (locate p entry).on d = (.ok parent, d)) : parent.fits = true := by
  have hlift : ∀ q, (liftM (Files.isFile q) : Attempt Bool).on d =
      (.ok (decide (d.kind? q = some .file)), d) := fun q => Attempt.lift_on _ d
  have hkind : d.kind? parent = some .file := by
    rw [locate, Attempt.bind_on_ok (hlift _)] at h
    split at h
    · rename_i hfile
      cases h
      exact of_decide_eq_true hfile
    · split at h
      · rw [Attempt.bind_on_ok (hlift _)] at h
        split at h
        · rename_i hfile
          cases h
          exact of_decide_eq_true hfile
        · cases h
      · cases h
  rw [Disk.kind?] at hkind
  split at hkind
  · cases hkind
  · rename_i l hl
    exact (Disk.locate_eq_ok_iff.1 hl).2.2.1

theorem Reaches.eq_or_fits (h : Reaches d file route p) : p = file ∨ p.fits = true := by
  cases h with
  | start => exact .inl rfl
  | next _ _ _ _ _ hlocate => exact .inr (fits_of_locate hlocate)

theorem finite_fits : {p : Path | p.fits = true}.Finite := by
  apply Set.Finite.of_finite_image (f := fun p => textNumber p.text.toList)
  · apply (Set.finite_lt_nat Path.count).subset
    rintro n ⟨p, hp, rfl⟩
    exact Path.textNumber_lt_count hp
  · intro p _ q _ h
    have htext : p.text = q.text := String.toList_inj.1 (textNumber_injective h)
    cases p
    cases q
    cases htext
    rfl

/-- The walk gets to finitely many documents, by finitely many ways. -/
theorem finite_reaches (d : Disk) (file : Path) :
    {x : List Path × Path | Reaches d file x.1 x.2}.Finite := by
  have hways : {route : List Path | route.length ≤ Path.count ∧
      ∀ q ∈ route, q.fits = true}.Finite := by
    have := finite_fits.to_subtype
    apply ((List.finite_length_le {p : Path | p.fits = true} Path.count).image
      (List.map Subtype.val)).subset
    rintro route ⟨hlength, hfits⟩
    refine ⟨route.attach.map fun q => ⟨q.1, hfits q.1 q.2⟩, ?_, by simp⟩
    rw [Set.mem_ofPred_eq, List.length_map, List.length_attach]
    exact hlength
  apply (hways.prod (finite_fits.insert file)).subset
  rintro ⟨route, p⟩ h
  have hend := Reaches.eq_or_fits h
  obtain ⟨r, rfl⟩ := Reaches.exists_route h
  exact ⟨⟨r.length_le_count, r.fits⟩, hend⟩

end Walk

end Config

namespace Project

open Config

/-- What loading `file` comes to. The walk through all that `file` extends gets to finitely many
documents; either all of them are read, and what they set is merged, or one fails. A circle is
reported just if the walk gets to a document on the way to itself; the report lists that way. -/
structure Ends (d : Disk) (file : Path) (result : Except Error Project) : Prop where
  finite : {x : List Path × Path | Reaches d file x.1 x.2}.Finite
  bounded : ∀ route p, Reaches d file route p → route.Nodup ∧ route.length ≤ Path.count
  ends : (∃ visits, Reads d [] file visits ∧
      result = (ofLayer file (merged visits)).mapError .config) ∨
    ∃ route p e, Reaches d file route p ∧ Fails d route p e ∧ result = .error e
  circular_iff : ∀ files, result = .error (.config (.circularExtends files)) ↔
    ∃ route p, Reaches d file route p ∧ p ∈ route ∧ files = route ++ [p]
  lists : ∀ route p, Reaches d file route p → p ∈ route → ∃ e, result = .error e ∧
    e.message = "circular extends chain: " ++ " -> ".intercalate ((route ++ [p]).map Path.text)
  shared : ∀ route p, Reaches d file route p → p ∉ route →
    result ≠ .error (.config (.circularExtends (route ++ [p])))

theorem ofLayer_error {file : Path} {l : Layer} {e : ConfigError} (h : ofLayer file l = .error e) :
    ∃ name, e = .missingOption name := by
  rw [ofLayer] at h
  split at h <;> cases h
  · exact ⟨_, rfl⟩
  · exact ⟨_, rfl⟩
  · exact ⟨_, rfl⟩

theorem load_on_error {d : Disk} {path file : Path} {e : Error}
    (hfile : file = Path.absolutize (Files.workingDirectory.run d).1 path)
    (h : (layer .start file).on d = (.error e, d)) : (load path).on d = (.error e, d) := by
  have hhere : (liftM Files.workingDirectory : Attempt Path).on d =
      (.ok (Files.workingDirectory.run d).1, d) := by
    rw [Attempt.lift_on]
    rfl
  rw [load, Attempt.bind_on_ok hhere, ← hfile, Attempt.bind_on_error h]

theorem load_of_fails {d : Disk} {path file p : Path} {route : List Path} {e : Error}
    (hfile : file = Path.absolutize (Files.workingDirectory.run d).1 path)
    (hreach : Reaches d file route p) (hfails : Fails d route p e) :
    (load path).on d = (.error e, d) := by
  apply load_on_error hfile
  apply hreach.start_on
  rintro r rfl
  exact hfails.layer_on

/-- Everything that `file` extends is read and merged, or the walk fails somewhere. -/
theorem load_settles (d : Disk) {path file : Path}
    (hfile : file = Path.absolutize (Files.workingDirectory.run d).1 path) :
    ∃ result, (load path).on d = (result, d) ∧
      ((∃ visits, Reads d [] file visits ∧
        result = (ofLayer file (merged visits)).mapError .config) ∨
      ∃ route p e, Reaches d file route p ∧ Fails d route p e ∧ result = .error e) := by
  have hstart : Reaches d file Route.start.files file := .start
  obtain ⟨visits, hreads⟩ | ⟨e, route, p, herror, hreach, hfails⟩ := settles hstart
  · exact ⟨_, load_on hfile hreads, .inl ⟨visits, hreads, rfl⟩⟩
  · exact ⟨_, load_on_error hfile herror, .inr ⟨route, p, e, hreach, hfails, rfl⟩⟩

theorem load_circular_iff {d : Disk} {path file : Path}
    (hfile : file = Path.absolutize (Files.workingDirectory.run d).1 path) (files : List Path) :
    (load path).on d = (.error (.config (.circularExtends files)), d) ↔
      ∃ route p, Reaches d file route p ∧ p ∈ route ∧ files = route ++ [p] := by
  constructor
  · intro h
    obtain ⟨result, hload, hmerged | hfailed⟩ := load_settles d hfile
    · obtain ⟨visits, -, rfl⟩ := hmerged
      rw [hload] at h
      cases hlayer : ofLayer file (merged visits) with
      | ok project =>
        rw [hlayer] at h
        cases h
      | error e =>
        obtain ⟨name, rfl⟩ := ofLayer_error hlayer
        rw [hlayer] at h
        cases h
    · obtain ⟨route, p, e, hreach, hfails, rfl⟩ := hfailed
      cases hload.symm.trans h
      exact ⟨route, p, hreach, (hfails.circular_iff files).1 rfl⟩
  · rintro ⟨route, p, hreach, hp, rfl⟩
    have hfails : Fails d route p _ := .circular hp
    exact load_of_fails hfile hreach hfails

/-- Loading always comes to an end, and finds just the circles. -/
theorem load_ends (d : Disk) (path : Path) :
    ∃ result, (load path).on d = (result, d) ∧
      Ends d (Path.absolutize (Files.workingDirectory.run d).1 path) result := by
  obtain ⟨result, hload, hends⟩ := @load_settles d path _ rfl
  have hcircular := @load_circular_iff d path _ rfl
  simp only [hload, Prod.mk.injEq, and_true] at hcircular
  refine ⟨result, hload, finite_reaches _ _, ?_, hends, hcircular, ?_, ?_⟩
  · intro route p hreach
    obtain ⟨r, rfl⟩ := hreach.exists_route
    exact ⟨r.nodup, r.length_le_count⟩
  · intro route p hreach hp
    exact ⟨_, (hcircular _).2 ⟨route, p, hreach, hp, rfl⟩, rfl⟩
  · intro route p hreach hp hresult
    obtain ⟨route', q, -, hq, hfiles⟩ := (hcircular _).1 hresult
    obtain ⟨rfl, hpq⟩ := List.append_inj' hfiles rfl
    cases hpq
    exact hp hq

end Project

end Unalias
