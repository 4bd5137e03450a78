import Unalias.Config.Project
import Unalias.Proofs.Files.Operations
import Unalias.Proofs.Files.Reading
import Unalias.Proofs.Files.Tree

/-!
What a configuration takes from the documents that it extends. The documents are read in order,
each after those that it extends itself; of those that set an option the last one counts, and what
it says is taken from the directory that it lies in.
-/

namespace Unalias

namespace Layer

theorem overlay_assoc (a b c : Layer) : (a.overlay b).overlay c = a.overlay (b.overlay c) := by
  simp [overlay, Option.or_assoc]

@[simp]
theorem overlay_empty (a : Layer) : a.overlay {} = a := by
  simp [overlay]

@[simp]
theorem empty_overlay (a : Layer) : overlay {} a = a := by
  simp [overlay]

end Layer

namespace Config

/-- A document and the file that it was read from. -/
structure Visit where
  file : Path
  document : Document

namespace Visit

/-- The base directory of the document, as written; the empty text is none. -/
def baseUrl (v : Visit) : Option String :=
  (v.document.options.bind Options.baseUrl).filter (· ≠ "")

def outDir (v : Visit) : Option String :=
  (v.document.options.bind Options.outDir).filter (· ≠ "")

def paths (v : Visit) : Option (List (String × Json)) :=
  v.document.options.bind Options.paths

/-- The patterns of the document, if it has any, give rules. -/
def HasRules (v : Visit) : Prop :=
  ∀ paths, v.paths = some paths → ∃ rules, Rule.ofPaths paths = .ok rules

def place (v : Visit) (text : String) : Path :=
  (directoryOf v.file).resolve [⟨text⟩]

def layer (v : Visit) : Layer where
  outRoot := v.outDir.map v.place
  aliasRoot := v.baseUrl.map v.place
  rules := v.paths.bind fun paths => (Rule.ofPaths paths).toOption

theorem directory?_eq (here : Path) (option : Option String) :
    Layer.directory? here option =
      (option.filter (· ≠ "")).map fun text => here.resolve [⟨text⟩] := by
  cases option with
  | none => rfl
  | some text => by_cases h : text = "" <;> simp [Layer.directory?, Option.filter, h]

theorem ofOptions_eq {v : Visit} (h : v.HasRules) :
    Layer.ofOptions (directoryOf v.file) v.document.options = .ok v.layer := by
  obtain ⟨file, extends?, options⟩ := v
  cases options with
  | none => rfl
  | some options =>
    cases hpaths : options.paths with
    | none =>
      simp only [Layer.ofOptions, directory?_eq, layer, paths, Option.bind_some, hpaths]
      rfl
    | some patterns =>
      obtain ⟨rules, hrules⟩ := h patterns hpaths
      simp only [Layer.ofOptions, directory?_eq, layer, paths, Option.bind_some, hpaths, hrules]
      rfl

theorem hasRules_of_ofOptions {v : Visit} {l : Layer}
    (h : Layer.ofOptions (directoryOf v.file) v.document.options = .ok l) : v.HasRules := by
  obtain ⟨file, extends?, options⟩ := v
  intro paths hpaths
  cases options with
  | none => cases hpaths
  | some options =>
    rw [Visit.paths, Option.bind_some] at hpaths
    simp only [Layer.ofOptions, hpaths] at h
    cases hrules : Rule.ofPaths paths with
    | ok rules => exact ⟨rules, rfl⟩
    | error e =>
      rw [hrules] at h
      cases h

end Visit

/-- `v` is the last of the documents that set an option, which it sets to `a`. -/
def IsLast {α : Type} (option : Visit → Option α) (visits : List Visit) (v : Visit) (a : α) :
    Prop :=
  option v = some a ∧ ∃ before after, visits = before ++ v :: after ∧
    ∀ w ∈ after, option w = none

def Sets {α : Type} (option : Visit → Option α) (visits : List Visit) : Prop :=
  ∃ v ∈ visits, option v ≠ none

/-- What the last document sets an option to that sets it. -/
def lastOf {α : Type} (option : Visit → Option α) (visits : List Visit) : Option α :=
  visits.reverse.findSome? option

/-- What documents set that are read in order. -/
def merged (visits : List Visit) : Layer where
  outRoot := lastOf (fun v => v.layer.outRoot) visits
  aliasRoot := lastOf (fun v => v.layer.aliasRoot) visits
  rules := lastOf (fun v => v.layer.rules) visits

section Last

variable {α : Type} {option : Visit → Option α} {visits : List Visit}

theorem lastOf_append (option : Visit → Option α) (visits visits' : List Visit) :
    lastOf option (visits ++ visits') = (lastOf option visits').or (lastOf option visits) := by
  simp [lastOf, List.findSome?_append]

theorem lastOf_eq_none_iff : lastOf option visits = none ↔ ∀ v ∈ visits, option v = none := by
  simp [lastOf]

theorem lastOf_eq_some_iff {a : α} :
    lastOf option visits = some a ↔ ∃ v, IsLast option visits v a := by
  rw [lastOf, List.findSome?_eq_some_iff]
  constructor
  · rintro ⟨after, v, before, hvisits, hv, hafter⟩
    refine ⟨v, hv, before.reverse, after.reverse, ?_, ?_⟩
    · rw [← List.reverse_reverse visits, hvisits]
      simp
    · simpa using hafter
  · rintro ⟨v, hv, before, after, rfl, hafter⟩
    exact ⟨after.reverse, v, before.reverse, by simp, hv, by simpa using hafter⟩

theorem IsLast.mem {v : Visit} {a : α} (h : IsLast option visits v a) : v ∈ visits := by
  obtain ⟨-, before, after, rfl, -⟩ := h
  simp

theorem IsLast.sets {v : Visit} {a : α} (h : IsLast option visits v a) : Sets option visits :=
  ⟨v, h.mem, by simp [h.1]⟩

/-- Options that are set by the same documents are last set by one of them. -/
theorem lastOf_cases {β : Type} {option' : Visit → Option β}
    (h : ∀ v ∈ visits, option' v = none ↔ option v = none) :
    (lastOf option' visits = none ∧ ¬Sets option visits) ∨
      ∃ v a b, IsLast option visits v a ∧ option' v = some b ∧ lastOf option' visits = some b := by
  cases hlast : lastOf option' visits with
  | none =>
    refine .inl ⟨rfl, ?_⟩
    rintro ⟨v, hv, hne⟩
    apply hne
    apply (h v hv).1
    exact lastOf_eq_none_iff.1 hlast v hv
  | some b =>
    obtain ⟨v, hlast'⟩ := lastOf_eq_some_iff.1 hlast
    have hv := hlast'.mem
    obtain ⟨hb, before, after, rfl, hafter⟩ := hlast'
    have hne : option v ≠ none := by
      intro hnone
      rw [(h v hv).2 hnone] at hb
      cases hb
    obtain ⟨a, ha⟩ := Option.ne_none_iff_exists'.1 hne
    refine .inr ⟨v, a, b, ⟨ha, before, after, rfl, ?_⟩, hb, rfl⟩
    intro w hw
    apply (h w (by simp [hw])).1
    exact hafter w hw

end Last

theorem merged_append (visits visits' : List Visit) :
    merged (visits ++ visits') = (merged visits).overlay (merged visits') := by
  simp [merged, Layer.overlay, lastOf_append]

theorem merged_singleton (v : Visit) : merged [v] = v.layer := by
  simp [merged, lastOf]

/-- An option that names a place is last set to the place that the last document means by it. -/
theorem lastOf_place (option : Visit → Option String) (visits : List Visit) :
    (lastOf (fun v => (option v).map v.place) visits = none ∧ ¬Sets option visits) ∨
      ∃ v text, IsLast option visits v text ∧
        lastOf (fun v => (option v).map v.place) visits = some (v.place text) := by
  have hsame : ∀ v ∈ visits, (option v).map v.place = none ↔ option v = none := by
    simp
  obtain hnone | ⟨v, text, place, hlast, hplace, hmerged⟩ := lastOf_cases hsame
  · exact .inl hnone
  · refine .inr ⟨v, text, hlast, ?_⟩
    rw [hlast.1, Option.map_some] at hplace
    rw [hmerged, hplace]

theorem merged_aliasRoot (visits : List Visit) :
    ((merged visits).aliasRoot = none ∧ ¬Sets Visit.baseUrl visits) ∨
      ∃ v text, IsLast Visit.baseUrl visits v text ∧
        (merged visits).aliasRoot = some (v.place text) :=
  lastOf_place Visit.baseUrl visits

theorem merged_outRoot (visits : List Visit) :
    ((merged visits).outRoot = none ∧ ¬Sets Visit.outDir visits) ∨
      ∃ v text, IsLast Visit.outDir visits v text ∧
        (merged visits).outRoot = some (v.place text) :=
  lastOf_place Visit.outDir visits

theorem merged_rules {visits : List Visit} (h : ∀ v ∈ visits, v.HasRules) :
    ((merged visits).rules = none ∧ ¬Sets Visit.paths visits) ∨
      ∃ v paths rules, IsLast Visit.paths visits v paths ∧ Rule.ofPaths paths = .ok rules ∧
        (merged visits).rules = some rules := by
  have hsome : ∀ v ∈ visits, ∀ paths, v.paths = some paths →
      ∃ rules, Rule.ofPaths paths = .ok rules ∧ v.layer.rules = some rules := by
    intro v hv paths hpaths
    obtain ⟨rules, hrules⟩ := h v hv paths hpaths
    refine ⟨rules, hrules, ?_⟩
    rw [Visit.layer, hpaths, Option.bind_some, hrules]
    rfl
  have hsame : ∀ v ∈ visits, v.layer.rules = none ↔ v.paths = none := by
    intro v hv
    constructor
    · intro hnone
      apply Option.eq_none_iff_forall_ne_some.2
      intro paths hpaths
      obtain ⟨rules, -, hrules⟩ := hsome v hv paths hpaths
      cases hnone.symm.trans hrules
    · intro hnone
      rw [Visit.layer, hnone]
      rfl
  obtain hnone | ⟨v, paths, rules, hlast, hv, hmerged⟩ := lastOf_cases hsame
  · exact .inl hnone
  · obtain ⟨rules', hrules', hv'⟩ := hsome v hlast.mem paths hlast.1
    cases hv.symm.trans hv'
    exact .inr ⟨v, paths, rules, hlast, hrules', hmerged⟩

/-- The documents that `file` extends under `entries`, and those that they extend, in the order in
which they are read. The documents on `route` lead to them. -/
inductive Visits (d : Disk) : List Path → Path → List String → List Visit → Prop
  | nil {route : List Path} {file : Path} : Visits d route file [] []
  | cons {route : List Path} {file parent : Path} {entry : String} {entries : List String}
      {document : Document} {above rest : List Visit}
      (hlocate : (locate file entry).on d = (.ok parent, d)) (hnew : parent ∉ route)
      (hread : (read parent).on d = (.ok document, d))
      (hrules : Visit.HasRules ⟨parent, document⟩)
      (habove : Visits d (route ++ [parent]) parent (document.extends?.getD []) above)
      (hrest : Visits d route file entries rest) :
      Visits d route file (entry :: entries) (above ++ ⟨parent, document⟩ :: rest)

/-- The documents that reading `file` at the end of `route` reads when all of them can be read and
none extends itself, in their order. -/
structure Reads (d : Disk) (route : List Path) (file : Path) (visits : List Visit) : Prop where
  isNew : file ∉ route
  exists_document : ∃ document above, (read file).on d = (.ok document, d) ∧
    Visit.HasRules ⟨file, document⟩ ∧
    Visits d (route ++ [file]) file (document.extends?.getD []) above ∧
    visits = above ++ [⟨file, document⟩]

theorem Visits.of_reads {d : Disk} {route : List Path} {file parent : Path} {entry : String}
    {entries : List String} {above rest : List Visit}
    (hlocate : (locate file entry).on d = (.ok parent, d)) (habove : Reads d route parent above)
    (hrest : Visits d route file entries rest) :
    Visits d route file (entry :: entries) (above ++ rest) := by
  obtain ⟨document, above, hread, hrules, habove', rfl⟩ := habove.exists_document
  rw [List.append_assoc]
  exact .cons hlocate habove.isNew hread hrules habove' hrest

theorem Visits.hasRules {d : Disk} {route : List Path} {file : Path} {entries : List String}
    {visits : List Visit} (h : Visits d route file entries visits) : ∀ v ∈ visits, v.HasRules := by
  induction h with
  | nil => simp
  | cons _ _ _ hrules _ _ ihabove ihrest =>
    intro v hv
    simp only [List.mem_append, List.mem_cons] at hv
    obtain hv | rfl | hv := hv
    · exact ihabove v hv
    · exact hrules
    · exact ihrest v hv

theorem Reads.hasRules {d : Disk} {route : List Path} {file : Path} {visits : List Visit}
    (h : Reads d route file visits) : ∀ v ∈ visits, v.HasRules := by
  obtain ⟨document, above, -, hrules, habove, rfl⟩ := h.exists_document
  intro v hv
  obtain hv | hv := List.mem_append.1 hv
  · exact habove.hasRules v hv
  · rw [List.mem_singleton.1 hv]
    exact hrules

section Load

variable {d d' : Disk} {file : Path} {document : Document} {entries : List String} {l below : Layer}

theorem read_of_config (h : (read file).on d = (.ok document, d)) :
    ∃ text, d.read file = .ok text := by
  rw [read] at h
  cases hread : d.read file with
  | ok text => exact ⟨text, rfl⟩
  | error cause =>
    rw [Attempt.bind_on_error (Attempt.read_on_error hread)] at h
    cases h

theorem fits_of_read (h : (read file).on d = (.ok document, d)) : file.fits = true := by
  obtain ⟨text, htext⟩ := read_of_config h
  obtain ⟨l, hl, -⟩ := Disk.exists_of_read htext
  exact (Disk.locate_eq_ok_iff.1 hl).2.2.1

theorem layer_on_of_layers {route : Route} {above : List Visit} (hnew : file ∉ route.files)
    (hread : (read file).on d = (.ok document, d)) (hrules : Visit.HasRules ⟨file, document⟩)
    (habove : ∀ route' : Route, route'.files = route.files ++ [file] →
      (layers route' file (document.extends?.getD []) {}).on d = (.ok (merged above), d)) :
    (layer route file).on d = (.ok (merged (above ++ [⟨file, document⟩])), d) := by
  have hfits := fits_of_read hread
  have hown := Visit.ofOptions_eq hrules
  rw [layer, dif_neg hnew, Attempt.bind_on_ok hread, dif_pos hfits,
    Attempt.bind_on_ok (habove _ rfl)]
  simp only [hown]
  rw [merged_append, merged_singleton]
  rfl

/-- Documents that can be read are read before the rest is. -/
theorem layers_append_on {route : List Path} {visits : List Visit}
    (h : Visits d route file entries visits) (rest : List String) :
    ∀ route' : Route, route'.files = route → ∀ below,
      (layers route' file (entries ++ rest) below).on d =
        (layers route' file rest (below.overlay (merged visits))).on d := by
  induction h generalizing rest with
  | nil =>
    intro route' _ below
    simp [merged, lastOf]
  | cons hlocate hnew hread hrules _ _ ihabove ihrest =>
    rename_i route file parent entry entries document above visits _ _
    intro route' hroute below
    subst hroute
    have hlayer : (layer route' parent).on d =
        (.ok (merged (above ++ [⟨parent, document⟩])), d) := by
      apply layer_on_of_layers hnew hread hrules
      intro route'' hroute''
      have habove := ihabove [] route'' hroute'' {}
      rw [List.append_nil, layers, Attempt.pure_on, Layer.empty_overlay] at habove
      exact habove
    rw [List.cons_append, layers, Attempt.bind_on_ok hlocate, Attempt.bind_on_ok hlayer,
      ihrest rest route' rfl, Layer.overlay_assoc, ← merged_append]
    simp

theorem layers_on {route : List Path} {visits : List Visit}
    (h : Visits d route file entries visits) (route' : Route) (hroute : route'.files = route)
    (below : Layer) :
    (layers route' file entries below).on d = (.ok (below.overlay (merged visits)), d) := by
  have hlayers := layers_append_on h [] route' hroute below
  rwa [List.append_nil, layers, Attempt.pure_on] at hlayers

theorem layer_on {route : Route} {visits : List Visit} (h : Reads d route.files file visits) :
    (layer route file).on d = (.ok (merged visits), d) := by
  obtain ⟨document, above, hread, hrules, habove, rfl⟩ := h.exists_document
  apply layer_on_of_layers h.isNew hread hrules
  intro route' hroute'
  rw [layers_on habove route' hroute', Layer.empty_overlay]

theorem locate_on_snd (d : Disk) (file : Path) (entry : String) :
    ((locate file entry).on d).2 = d := by
  have hlift : ∀ p, (liftM (Files.isFile p) : Attempt Bool).on d =
      (.ok (decide (d.kind? p = some .file)), d) := fun p => Attempt.lift_on _ d
  rw [locate, Attempt.bind_on_ok (hlift _)]
  split
  · rfl
  · split
    · rw [Attempt.bind_on_ok (hlift _)]
      split <;> rfl
    · rfl

theorem read_on_snd (d : Disk) (file : Path) : ((read file).on d).2 = d := by
  rw [read]
  cases hread : d.read file with
  | error cause => rw [Attempt.bind_on_error (Attempt.read_on_error hread)]
  | ok text =>
    rw [Attempt.bind_on_ok (Attempt.read_on_ok hread)]
    split <;> rfl

theorem read_on_ok {text : String} (hread : d.read file = .ok text)
    (hparse : Document.parse text = .ok document) : (read file).on d = (.ok document, d) := by
  rw [read, Attempt.bind_on_ok (Attempt.read_on_ok hread), hparse]
  rfl

theorem locate_on_ok {entry : String}
    (h : d.kind? ((directoryOf file).resolve [⟨entry⟩]) = some .file) :
    (locate file entry).on d = (.ok ((directoryOf file).resolve [⟨entry⟩]), d) := by
  have hisFile : (liftM (Files.isFile ((directoryOf file).resolve [⟨entry⟩])) : Attempt Bool).on d =
      (.ok true, d) := by
    rw [Attempt.lift_on, Files.isFile_run, h]
    rfl
  rw [locate, Attempt.bind_on_ok hisFile]
  rfl

theorem exists_visits_of_layers {route : Route}
    (hlayer : ∀ {parent : Path} {l : Layer} {d' : Disk},
      (layer route parent).on d = (.ok l, d') →
        d' = d ∧ ∃ visits, Reads d route.files parent visits)
    (h : (layers route file entries below).on d = (.ok l, d')) :
    d' = d ∧ ∃ visits, Visits d route.files file entries visits := by
  induction entries generalizing below with
  | nil =>
    rw [layers, Attempt.pure_on] at h
    cases h
    exact ⟨rfl, [], .nil⟩
  | cons entry entries ih =>
    rw [layers] at h
    obtain ⟨parent, d₁, hlocate, hbelow⟩ := Attempt.exists_of_bind_on_ok h
    have hd₁ : d₁ = d := by rw [← locate_on_snd d file entry, hlocate]
    rw [hd₁] at hlocate hbelow
    obtain ⟨above, d₂, habove, hbelow⟩ := Attempt.exists_of_bind_on_ok hbelow
    obtain ⟨hd₂, visits, hvisits⟩ := hlayer habove
    rw [hd₂] at hbelow
    obtain ⟨hd, rest, hrest⟩ := ih hbelow
    exact ⟨hd, _, .of_reads hlocate hvisits hrest⟩

/-- What a document and all that it extends set is known only if all of them can be read. -/
theorem exists_reads_of_layer {route : Route} (h : (layer route file).on d = (.ok l, d')) :
    d' = d ∧ ∃ visits, Reads d route.files file visits := by
  -- a longer route has less room
  induction hroom : route.room using Nat.strongRecOn generalizing route file l d' with
  | _ room ih =>
    subst hroom
    rw [layer] at h
    split at h
    · cases h
    · rename_i hnew
      obtain ⟨document, d₁, hread, hbelow⟩ := Attempt.exists_of_bind_on_ok h
      have hd₁ : d₁ = d := by rw [← read_on_snd d file, hread]
      rw [hd₁] at hread hbelow
      split at hbelow
      · rename_i hfits
        obtain ⟨inherited, d₂, habove, hown⟩ := Attempt.exists_of_bind_on_ok hbelow
        have hlt := route.room_extend_lt file hnew hfits
        obtain ⟨hd₂, visits, hvisits⟩ :=
          exists_visits_of_layers (fun habove => ih _ hlt habove rfl) habove
        rw [hd₂] at hown
        split at hown
        · cases hown
        · rename_i own hoptions
          rw [Attempt.pure_on] at hown
          have hrules : Visit.HasRules ⟨file, document⟩ := Visit.hasRules_of_ofOptions hoptions
          have hd' : d' = d := (Prod.mk.inj hown).2.symm
          refine ⟨hd', visits ++ [⟨file, document⟩], hnew, document, visits, hread, hrules, ?_, rfl⟩
          exact hvisits
      · cases hbelow

end Load

end Config

namespace Project

open Config

variable {d d' : Disk} {path file : Path} {visits : List Visit} {project : Project}

theorem load_on (hfile : file = Path.absolutize (Files.workingDirectory.run d).1 path)
    (h : Reads d [] file visits) :
    (load path).on d = ((ofLayer file (merged visits)).mapError Error.config, d) := by
  have hhere : (liftM Files.workingDirectory : Attempt Path).on d =
      (.ok (Files.workingDirectory.run d).1, d) := by
    rw [Attempt.lift_on]
    rfl
  rw [load, Attempt.bind_on_ok hhere, ← hfile, Attempt.bind_on_ok (Config.layer_on h)]
  cases ofLayer file (merged visits) <;> rfl

theorem exists_reads_of_load (h : (load path).on d = (.ok project, d')) :
    ∃ visits, Reads d [] (Path.absolutize (Files.workingDirectory.run d).1 path) visits := by
  rw [load] at h
  obtain ⟨here, d₁, hhere, hload⟩ := Attempt.exists_of_bind_on_ok h
  rw [Attempt.lift_on] at hhere
  cases hhere
  obtain ⟨l, d₂, hlayer, -⟩ := Attempt.exists_of_bind_on_ok hload
  exact (exists_reads_of_layer hlayer).2

/-- What loading `file` gives when it reads `visits`: of the documents that set an option the last
one counts, and of the options that none sets the first is reported. -/
structure Merges (file : Path) (visits : List Visit) (result : Except Error Project) : Prop where
  ok_iff : (∃ project, result = .ok project) ↔
    Sets Visit.baseUrl visits ∧ Sets Visit.paths visits ∧ Sets Visit.outDir visits
  root : ∀ project, result = .ok project → file.parent? = some project.root
  outRoot : ∀ project, result = .ok project →
    ∃ v text, IsLast Visit.outDir visits v text ∧ project.outRoot = v.place text
  aliasRoot : ∀ project, result = .ok project →
    ∃ v text, IsLast Visit.baseUrl visits v text ∧ project.aliasRoot = v.place text
  rules : ∀ project, result = .ok project →
    ∃ v paths, IsLast Visit.paths visits v paths ∧ Rule.ofPaths paths = .ok project.rules
  no_baseUrl : ¬Sets Visit.baseUrl visits → result = .error (.config (.missingOption "baseUrl"))
  no_paths : Sets Visit.baseUrl visits → ¬Sets Visit.paths visits →
    result = .error (.config (.missingOption "paths"))
  no_outDir : Sets Visit.baseUrl visits → Sets Visit.paths visits → ¬Sets Visit.outDir visits →
    result = .error (.config (.missingOption "outDir"))

theorem merges_ofLayer {directory : Path} (hdirectory : file.parent? = some directory)
    (hrules : ∀ v ∈ visits, v.HasRules) :
    Merges file visits ((ofLayer file (merged visits)).mapError Error.config) := by
  obtain ⟨hbase, hbase'⟩ | ⟨v, base, hlast, hbase⟩ := merged_aliasRoot visits
  · have hresult : ofLayer file (merged visits) = .error (.missingOption "baseUrl") := by
      simp [ofLayer, hbase]
    rw [hresult]
    constructor <;> simp [Except.mapError, hbase']
  obtain ⟨hpaths, hpaths'⟩ | ⟨w, paths, rules, hlast', hrules, hpaths⟩ := merged_rules hrules
  · have hresult : ofLayer file (merged visits) = .error (.missingOption "paths") := by
      simp [ofLayer, hbase, hpaths]
    rw [hresult]
    constructor <;> simp [Except.mapError, hlast.sets, hpaths']
  obtain ⟨hout, hout'⟩ | ⟨u, out, hlast'', hout⟩ := merged_outRoot visits
  · have hresult : ofLayer file (merged visits) = .error (.missingOption "outDir") := by
      simp [ofLayer, hbase, hpaths, hout]
    rw [hresult]
    constructor <;> simp [Except.mapError, hlast.sets, hlast'.sets, hout']
  have hresult : ofLayer file (merged visits) =
      .ok ⟨directory, u.place out, v.place base, rules⟩ := by
    simp [ofLayer, hbase, hpaths, hout, hdirectory]
  rw [hresult]
  refine ⟨?_, ?_, ?_, ?_, ?_, ?_, ?_, ?_⟩
  · simp [Except.mapError, hlast.sets, hlast'.sets, hlast''.sets]
  · rintro project hproject
    cases hproject
    exact hdirectory
  · rintro project hproject
    cases hproject
    exact ⟨u, out, hlast'', rfl⟩
  · rintro project hproject
    cases hproject
    exact ⟨v, base, hlast, rfl⟩
  · rintro project hproject
    cases hproject
    exact ⟨w, paths, hlast', hrules⟩
  · exact fun h => absurd hlast.sets h
  · exact fun _ h => absurd hlast'.sets h
  · exact fun _ _ h => absurd hlast''.sets h

/-- Loading a configuration all of whose documents can be read merges them. -/
theorem load_merges (d : Disk) (path file : Path)
    (hfile : file = Path.absolutize (Files.workingDirectory.run d).1 path) (visits : List Visit)
    (h : Reads d [] file visits) :
    ∃ result, (load path).on d = (result, d) ∧ Merges file visits result := by
  obtain ⟨document, above, hread, -⟩ := h.exists_document
  obtain ⟨text, htext⟩ := read_of_config hread
  obtain ⟨directory, hdirectory⟩ := Disk.exists_parent_of_read htext
  exact ⟨_, load_on hfile h, merges_ofLayer hdirectory h.hasRules⟩

end Project

/-! ### A document that extends another -/

def childText : String :=
  "\x7b\"extends\":\"./base.json\",\"compilerOptions\":\x7b\"outDir\":\"dist\"\x7d\x7d"

def baseText : String :=
  "\x7b\"compilerOptions\":\x7b\"baseUrl\":\"src\",\"outDir\":\"old\"," ++
    "\"paths\":\x7b\"@/*\":[\"*\"]\x7d\x7d\x7d"

def twoDocuments : Disk where
  workingDirectory := ["w"]
  entries :=
    [(["w"], .directory), (["w", "child.json"], .file childText.toUTF8),
      (["w", "base.json"], .file baseText.toUTF8)]
  nodup := by decide

namespace twoDocuments

open Config

/-- What a text extends, and what it sets in the directory `here`. -/
def summary (here : Path) (text : String) : Option (List String × Option Layer) :=
  (Document.parse text).toOption.map fun document =>
    (document.extends?.getD [], (Layer.ofOptions here document.options).toOption)

theorem exists_document {here : Path} {text : String} {parents : List String} {l : Layer}
    (h : summary here text = some (parents, some l)) :
    ∃ document, Document.parse text = .ok document ∧ document.extends?.getD [] = parents ∧
      Layer.ofOptions here document.options = .ok l := by
  rw [summary] at h
  cases hparse : Document.parse text with
  | error e =>
    rw [hparse] at h
    cases h
  | ok document =>
    rw [hparse] at h
    obtain ⟨hparents, hlayer⟩ := Prod.mk.inj (Option.some.inj h)
    refine ⟨document, rfl, hparents, ?_⟩
    cases hoptions : Layer.ofOptions here document.options with
    | error e =>
      rw [hoptions] at hlayer
      cases hlayer
    | ok l' =>
      rw [hoptions] at hlayer
      rw [Option.some.inj hlayer]

theorem summary_child : summary (directoryOf ⟨"/w/child.json"⟩) childText =
    some (["./base.json"], some ⟨some ⟨"/w/dist"⟩, none, none⟩) := by
  decide +kernel

theorem summary_base : summary (directoryOf ⟨"/w/base.json"⟩) baseText =
    some ([], some ⟨some ⟨"/w/old"⟩, some ⟨"/w/src"⟩, some [⟨"@/", [""]⟩]⟩) := by
  decide +kernel

theorem locate_child : twoDocuments.locate ⟨"/w/child.json"⟩ = .ok ["w", "child.json"] :=
  Disk.locate_of_names ["w", "child.json"] (by decide) (by decide)
    (Disk.walk_down (by decide) _ (by decide) rfl (by simp))

theorem locate_base : twoDocuments.locate ⟨"/w/base.json"⟩ = .ok ["w", "base.json"] :=
  Disk.locate_of_names ["w", "base.json"] (by decide) (by decide)
    (Disk.walk_down (by decide) _ (by decide) rfl (by simp))

theorem exists_reads : ∃ visits, Reads twoDocuments [] ⟨"/w/child.json"⟩ visits := by
  obtain ⟨child, hchild, hextends, hlayer⟩ := exists_document summary_child
  obtain ⟨base, hbase, hextends', hlayer'⟩ := exists_document summary_base
  have hread := read_on_ok (Disk.read_of_file locate_child rfl) hchild
  have hread' := read_on_ok (Disk.read_of_file locate_base rfl) hbase
  have hlocate : (Config.locate ⟨"/w/child.json"⟩ "./base.json").on twoDocuments =
      (.ok ⟨"/w/base.json"⟩, twoDocuments) := by
    have hresolve : (directoryOf ⟨"/w/child.json"⟩).resolve [⟨"./base.json"⟩] =
        ⟨"/w/base.json"⟩ := by
      decide +kernel
    rw [← hresolve]
    apply locate_on_ok
    rw [hresolve, Disk.kind?, locate_base]
    rfl
  have habove : Reads twoDocuments [⟨"/w/child.json"⟩] ⟨"/w/base.json"⟩
      [⟨⟨"/w/base.json"⟩, base⟩] := by
    refine ⟨by decide, base, [], hread', Visit.hasRules_of_ofOptions hlayer', ?_, rfl⟩
    rw [hextends']
    exact .nil
  have hvisits : Visits twoDocuments [⟨"/w/child.json"⟩] ⟨"/w/child.json"⟩
      (child.extends?.getD []) [⟨⟨"/w/base.json"⟩, base⟩] := by
    rw [hextends]
    exact .of_reads hlocate habove .nil
  have hrules : Visit.HasRules ⟨⟨"/w/child.json"⟩, child⟩ := Visit.hasRules_of_ofOptions hlayer
  exact ⟨_, List.not_mem_nil, child, _, hread, hrules, hvisits, rfl⟩

end twoDocuments

theorem load_merges_twoDocuments :
    ∃ visits result, Config.Reads twoDocuments [] ⟨"/w/child.json"⟩ visits ∧
      (Project.load ⟨"child.json"⟩).on twoDocuments = (result, twoDocuments) ∧
      Project.Merges ⟨"/w/child.json"⟩ visits result := by
  have hfile : ⟨"/w/child.json"⟩ =
      Path.absolutize (Files.workingDirectory.run twoDocuments).1 ⟨"child.json"⟩ := by
    decide +kernel
  obtain ⟨visits, hreads⟩ := twoDocuments.exists_reads
  obtain ⟨result, hload, hmerges⟩ :=
    Project.load_merges twoDocuments ⟨"child.json"⟩ ⟨"/w/child.json"⟩ hfile visits hreads
  exact ⟨visits, result, hreads, hload, hmerges⟩

end Unalias
