import Unalias.Proofs.Json.RoundTrip
import Unalias.Report.Rendered

/-!
Rendered reports. The text of a report is a strict document that spells every key once, and the job
and what was recorded are read off what it stands for; so the text says all of the report.
-/

namespace Unalias

namespace Json

/-! ### Readers of parts -/

/-- No object within the value has a key twice. -/
inductive DistinctKeys : Json → Prop
  | null : DistinctKeys .null
  | bool (b : Bool) : DistinctKeys (.bool b)
  | number (n : Number) : DistinctKeys (.number n)
  | string (s : String) : DistinctKeys (.string s)
  | array {l : List Json} (h : ∀ v ∈ l, DistinctKeys v) : DistinctKeys (.array l)
  | object {l : List (String × Json)} (hkeys : (l.map Prod.fst).Nodup)
      (h : ∀ m ∈ l, DistinctKeys m.2) : DistinctKeys (.object l)

theorem Nests.distinctKeys {n : Nat} {v : Json} (h : Nests n v) : v.DistinctKeys := by
  induction h with
  | null => exact .null
  | bool b => exact .bool b
  | count => exact .number _
  | string s => exact .string s
  | array _ ih => exact .array ih
  | object hkeys _ ih => exact .object hkeys ih

def bool? : Json → Option Bool
  | .bool b => some b
  | _ => none

def string? : Json → Option String
  | .string s => some s
  | _ => none

def count? : Json → Option Nat
  | .number (.integer (.ofNat n)) => some n
  | _ => none

def array? {α : Type} (element? : Json → Option α) : Json → Option (List α)
  | .array l => l.mapM element?
  | _ => none

def entries? {α : Type} (value? : Json → Option α) : Json → Option (List (String × α))
  | .object l => l.mapM fun m => (value? m.2).map (m.1, ·)
  | _ => none

theorem mapM_map_some {α β : Type} {f : β → Option α} {g : α → β} (h : ∀ a, f (g a) = some a)
    (l : List α) : (l.map g).mapM f = some l := by
  have hfg : f ∘ g = fun a => pure a := funext h
  rw [List.mapM_map, hfg, List.mapM_pure, List.map_id']
  rfl

theorem array?_map {α : Type} {element? : Json → Option α} {element : α → Json}
    (h : ∀ a, element? (element a) = some a) (l : List α) :
    (Json.array (l.map element)).array? element? = some l :=
  mapM_map_some h l

theorem entries?_map {α : Type} {value? : Json → Option α} {value : α → Json}
    (h : ∀ a, value? (value a) = some a) (l : List (String × α)) :
    (Json.object (l.map fun e => (e.1, value e.2))).entries? value? = some l :=
  mapM_map_some (fun e => by simp [h]) l

theorem strings?_strings (l : List String) : (strings l).strings? = some l := by
  refine mapM_map_some ?_ l
  exact fun _ => rfl

theorem Nests.map {α : Type} {n : Nat} {element : α → Json} (h : ∀ a, Nests n (element a))
    (l : List α) : Nests (n + 1) (.array (l.map element)) := by
  refine .array fun v hv => ?_
  obtain ⟨a, _, rfl⟩ := List.mem_map.1 hv
  exact h a

theorem Nests.strings {n : Nat} (l : List String) : Nests (n + 1) (strings l) :=
  .map .string l

end Json

/-! ### Readers of reports -/

def Rule.ofJson? (v : Json) : Option Rule := do
  let stem ← (← v.member? "prefix").string?
  let targets ← (← v.member? "targets").strings?
  return ⟨stem, targets⟩

namespace Index

variable {α : Type}

def ofEntries? (l : List (String × α)) : Option (Index α) :=
  if h : l.Pairwise fun a b => a.1 < b.1 then some ⟨l, h⟩ else none

def ofJson? (value? : Json → Option α) (v : Json) : Option (Index α) :=
  (v.entries? value?).bind ofEntries?

theorem ofEntries?_entries (x : Index α) : ofEntries? x.entries = some x :=
  dif_pos x.sorted

theorem ofJson?_toJson {value? : Json → Option α} {value : α → Json}
    (h : ∀ a, value? (value a) = some a) (x : Index α) :
    ofJson? value? (x.toJson value) = some x := by
  rw [ofJson?, toJson, Json.entries?_map h, Option.bind_some, ofEntries?_entries]

theorem nests_toJson {n : Nat} {value : α → Json} (h : ∀ a, Json.Nests n (value a))
    (x : Index α) : Json.Nests (n + 1) (x.toJson value) := by
  refine .object ?_ fun m hm => ?_
  · rw [List.map_map]
    exact nodup_keys_of_sorted x.sorted
  · obtain ⟨e, _, rfl⟩ := List.mem_map.1 hm
    exact h e.2

end Index

def pair? (v : Json) : Option (String × String) :=
  match v.strings? with
  | some [a, b] => some (a, b)
  | _ => none

def Report.ofJson? (v : Json) : Option Report := do
  let replacements ← Index.ofJson? (Json.array? pair?) (← v.member? "replacements")
  let errors ← Index.ofJson? Json.strings? (← v.member? "errors")
  let changedFiles ← (← v.member? "changedFiles").strings?
  let changedFiles ← Index.ofEntries? (changedFiles.map fun file => (file, ()))
  let filesScanned ← (← v.member? "filesScanned").count?
  return { replacements, errors, changedFiles, filesScanned }

def Job.ofJson? (v : Json) : Option Job := do
  let projectRoot ← (← v.member? "projectRoot").string?
  let srcRoot ← (← v.member? "srcRoot").string?
  let outRoot ← (← v.member? "outRoot").string?
  let aliasRoot ← (← v.member? "aliasRoot").string?
  let rules ← (← v.member? "aliases").array? Rule.ofJson?
  let resolveFrom ← Policy.ofName? (← (← v.member? "resolveFrom").string?)
  let dryRun ← (← v.member? "dryRun").bool?
  let verbose ← (← v.member? "verbose").bool?
  return {
    rules, resolveFrom, dryRun, verbose
    projectRoot := ⟨projectRoot⟩
    srcRoot := ⟨srcRoot⟩
    outRoot := ⟨outRoot⟩
    aliasRoot := ⟨aliasRoot⟩ }

/-- The run that a report tells of. -/
def RunReport.ofJson? (v : Json) : Option RunReport := do
  return ⟨← Job.ofJson? v, ← Report.ofJson? v⟩

theorem Rule.ofJson?_toJson (rule : Rule) : Rule.ofJson? rule.toJson = some rule := by
  simp [Rule.ofJson?, Rule.toJson, Json.member?, List.lookup_cons, Json.string?,
    Json.strings?_strings]

theorem pair?_strings (p : String × String) : pair? (.strings [p.1, p.2]) = some p := by
  simp [pair?, Json.strings?_strings]

theorem Policy.ofName?_name (p : Policy) : Policy.ofName? p.name = some p := by
  cases p <;> decide

namespace RunReport

variable (r : RunReport)

theorem report_ofJson? : Report.ofJson? r.toJson = some r.report := by
  have hchanged : Index.ofEntries? (r.report.changedFiles.keys.map fun file => (file, ())) =
      some r.report.changedFiles := by
    have hentries : (r.report.changedFiles.keys.map fun file => (file, ())) =
        r.report.changedFiles.entries := by
      rw [Index.keys, List.map_map]
      exact List.map_id _
    rw [hentries, Index.ofEntries?_entries]
  have hreplacements := Index.ofJson?_toJson (Json.array?_map pair?_strings) r.report.replacements
  have herrors := Index.ofJson?_toJson Json.strings?_strings r.report.errors
  simp [Report.ofJson?, toJson, Job.members, Report.members, Json.member?, List.lookup_cons,
    Json.strings?_strings, Json.count?, Json.ofNat, hreplacements, herrors, hchanged]

theorem job_ofJson? : Job.ofJson? r.toJson = some r.job := by
  simp [Job.ofJson?, toJson, Job.members, Json.member?, List.lookup_cons, Json.string?,
    Json.bool?, Policy.ofName?_name, Json.array?_map Rule.ofJson?_toJson]

theorem ofJson?_toJson : ofJson? r.toJson = some r := by
  simp [ofJson?, job_ofJson?, report_ofJson?]

variable {r}

/-- A report has at most four brackets around each other. -/
theorem nests_toJson (n : Nat) (hscanned : r.report.filesScanned < wordCount) :
    Json.Nests (n + 4) r.toJson := by
  have hrule (rule : Rule) : Json.Nests (n + 2) rule.toJson := by
    refine .object (by simp) ?_
    simp only [List.forall_mem_cons]
    exact ⟨.string _, .strings _, List.forall_mem_nil _⟩
  have hpairs (pairs : List (String × String)) :
      Json.Nests (n + 2) (.array (pairs.map fun p => .strings [p.1, p.2])) :=
    .map (fun _ => .strings _) pairs
  have hjob : ∀ m ∈ r.job.members, Json.Nests (n + 3) m.2 := by
    simp only [Job.members, List.forall_mem_cons]
    exact ⟨.string _, .string _, .string _, .string _, .map hrule _, .string _, .bool _, .bool _,
      List.forall_mem_nil _⟩
  have hreport : ∀ m ∈ r.report.members, Json.Nests (n + 3) m.2 := by
    simp only [Report.members, List.forall_mem_cons]
    exact ⟨Index.nests_toJson hpairs _, Index.nests_toJson .strings _, .strings _,
      .count hscanned, List.forall_mem_nil _⟩
  refine .object ?_ (List.forall_mem_append.2 ⟨hjob, hreport⟩)
  simp [Job.members, Report.members]

/-- The text of a report, whose count of files fits a word, is a strict document without a repeated
key. It reads back as the job and what was recorded, so no other report has the same text. -/
theorem render_reads_back (hscanned : r.report.filesScanned < wordCount) :
    Jsonc.Writes r.render r.toJson ∧ r.toJson.DistinctKeys ∧
      Json.parse r.render = .ok r.toJson ∧ ofJson? r.toJson = some r ∧
      ∀ r' : RunReport, r'.report.filesScanned < wordCount → r'.render = r.render → r' = r := by
  have hread (r' : RunReport) (h : r'.report.filesScanned < wordCount) :
      Json.parse r'.render = .ok r'.toJson :=
    Json.parse_pretty (nests_toJson 123 h)
  refine ⟨Jsonc.writes_pretty (nests_toJson 0 hscanned), (nests_toJson 0 hscanned).distinctKeys,
    hread r hscanned, r.ofJson?_toJson, fun r' h htext => ?_⟩
  have hjson : r'.toJson = r.toJson := by
    have hparse := hread r' h
    rw [htext, hread r hscanned] at hparse
    exact (Except.ok.inj hparse).symm
  have hofJson := r'.ofJson?_toJson
  rw [hjson, r.ofJson?_toJson] at hofJson
  exact (Option.some.inj hofJson).symm

/-- Two files are recorded, of which one has a quote and a line break in its name; what is under
them has a backslash, a control character and a letter beyond ASCII. -/
theorem render_reads_back_quoted :
    let job : Job := {
      rules := [⟨"@\"lib", ["/project/src/caf\u00e9"]⟩, ⟨"@none", []⟩]
      resolveFrom := .output
      aliasRoot := ⟨"/project"⟩, srcRoot := ⟨"/project/src"⟩, outRoot := ⟨"/project/out"⟩
      projectRoot := ⟨"/project"⟩, dryRun := true, verbose := false }
    let report := Report.ofOutcomes 3
      [("/project/out/\"a\n.js", { replacements := [("@\"lib/\\x", "./x")], changed := true }),
        ("/project/out/b.js", { unresolved := ["@none/\x01", "@none/\x01"] })]
    let r : RunReport := ⟨job, report⟩
    r.report.filesScanned < wordCount ∧ Jsonc.Writes r.render r.toJson ∧
      r.toJson.DistinctKeys ∧ Json.parse r.render = .ok r.toJson ∧ ofJson? r.toJson = some r := by
  intro job report r
  have hscanned : r.report.filesScanned < wordCount := by decide
  obtain ⟨hwrites, hkeys, hparse, hread, -⟩ := render_reads_back hscanned
  exact ⟨hscanned, hwrites, hkeys, hparse, hread⟩

end RunReport

end Unalias
