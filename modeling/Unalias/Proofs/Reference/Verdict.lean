import Unalias.Proofs.Files.Operations
import Unalias.Proofs.Files.Outline
import Unalias.Reference.Unaliased

/-!
What resolution gives on a file tree, without the tree being touched: a verdict on each reference,
which depends on the outline of the tree alone, and from the verdicts the new text of a file.
-/

namespace Unalias

/-- Whether there is a module at a path under one of its spellings. -/
def Disk.hasModule (d : Disk) (p : Path) : Bool :=
  p.spellings.any fun q => (d.kind? q).isSome

theorem Disk.hasModule_congr {d d' : Disk} (h : d'.outline = d.outline) :
    d'.hasModule = d.hasModule := by
  funext p
  simp only [hasModule, kind?_congr h]

namespace Files

theorem someExists_run (d : Disk) (ps : List Path) :
    (someExists ps).run d = (ps.any fun q => (d.kind? q).isSome, d) := by
  induction ps with
  | nil => rfl
  | cons p ps ih =>
    rw [someExists, Script.run_bind, doesExist_run, List.any_cons]
    cases (d.kind? p).isSome with
    | false => simpa using ih
    | true => rfl

theorem moduleExists_run (d : Disk) (p : Path) : (moduleExists p).run d = (d.hasModule p, d) :=
  someExists_run d p.spellings

theorem firstModule_run (d : Disk) (ps : List Path) :
    (firstModule ps).run d = (ps.find? d.hasModule, d) := by
  induction ps with
  | nil => rfl
  | cons p ps ih =>
    rw [firstModule, Script.run_bind, moduleExists_run, List.find?_cons]
    cases d.hasModule p with
    | false => simpa using ih
    | true => rfl

end Files

def Resolution.new? : Resolution → Option String
  | .resolved new => some new
  | _ => none

namespace Resolver

/-- What becomes of a reference in `file` on a tree. -/
def verdict (r : Resolver) (d : Disk) (file : Path) (reference : String) : Resolution :=
  match r.matching? reference with
  | none => .notAliased
  | some (rule, rest) =>
    match (r.candidates rule rest).find? d.hasModule with
    | none => .unresolved
    | some found =>
      .resolved (Path.moduleReference (file.parent?.getD r.outRoot) (r.destination found))

theorem resolve_run (r : Resolver) (d : Disk) (file : Path) (reference : String) :
    (r.resolve reference file).run d = (r.verdict d file reference, d) := by
  rw [resolve, verdict]
  cases r.matching? reference with
  | none => rfl
  | some x =>
    obtain ⟨rule, rest⟩ := x
    dsimp only
    rw [Script.run_bind, Files.firstModule_run]
    cases (r.candidates rule rest).find? d.hasModule <;> rfl

theorem verdict_congr (r : Resolver) {d d' : Disk} (h : d'.outline = d.outline) (file : Path) :
    r.verdict d' file = r.verdict d file := by
  funext reference
  simp only [verdict, Disk.hasModule_congr h]

/-- A new literal starts with a dot. -/
theorem head?_of_verdict {r : Resolver} {d : Disk} {file : Path} {reference new : String}
    (h : (r.verdict d file reference).new? = some new) : new.toList.head? = some '.' := by
  rw [verdict] at h
  split at h
  · cases h
  · split at h
    · cases h
    · obtain rfl := Option.some.inj h
      unfold Path.moduleReference
      dsimp only
      split
      · assumption
      · simp

/-- Only a reference that starts with the stem of a rule is resolved. -/
theorem exists_rule_of_verdict {r : Resolver} {d : Disk} {file : Path} {reference new : String}
    (h : (r.verdict d file reference).new? = some new) :
    ∃ rule ∈ r.rules, ∃ rest, reference.toList = rule.stem.toList ++ rest := by
  rw [verdict] at h
  split at h
  · cases h
  · rename_i rule rest hmatch
    obtain ⟨rule', hrule, hrest⟩ := List.exists_of_findSome?_eq_some hmatch
    obtain ⟨rest', hrest', -⟩ := Option.map_eq_some_iff.1 hrest
    obtain ⟨rest'', hprefix, -⟩ := Option.map_eq_some_iff.1 hrest'
    exact ⟨rule', hrule, rest'', Text.append_of_isPrefixOf? hprefix⟩

end Resolver

/-! ### Literals and verdicts -/

def Piece.literal? : Piece → Option String
  | .plain _ => none
  | .reference o => some (String.ofList o.literal)

def Piece.settled (verdict : String → Resolution) : Piece → List Char
  | .plain c => [c]
  | .reference o =>
    match (verdict (String.ofList o.literal)).new? with
    | none => o.text
    | some new => { o with literal := new.toList }.text

namespace Form

/-- The literals of the references of one form, from left to right. -/
def literals (form : Form) (text : List Char) : List String :=
  (form.pieces text).filterMap Piece.literal?

/-- The text with the literals of one form replaced as the verdicts say. -/
def settle (form : Form) (verdict : String → Resolution) (text : List Char) : List Char :=
  (form.pieces text).flatMap (Piece.settled verdict)

end Form

namespace Outcome

/-- What is noted of literals behind what is noted already. -/
def noting (o : Outcome) (verdict : String → Resolution) (literals : List String) : Outcome where
  replacements :=
    o.replacements ++ literals.filterMap fun old => (verdict old).new?.map fun new => (old, new)
  unresolved := o.unresolved ++ literals.filter fun old => verdict old = .unresolved
  changed := o.changed

variable (o : Outcome) (verdict : String → Resolution)

theorem noting_nil : o.noting verdict [] = o := by
  simp [noting]

theorem noting_append (literals literals' : List String) :
    o.noting verdict (literals ++ literals') =
      (o.noting verdict literals).noting verdict literals' := by
  simp [noting]

end Outcome

namespace Resolver

variable (r : Resolver) (d : Disk) (file : Path)

theorem answer_run (o : Outcome) (literal : String) :
    ((r.answer file literal).run o).run d =
      (((r.verdict d file literal).new?, o.noting (r.verdict d file) [literal]), d) := by
  rw [answer]
  rw [StateT.run_bind, Script.run_bind, Script.liftM_run, resolve_run]
  cases h : r.verdict d file literal with
  | notAliased => simp [Outcome.noting, Resolution.new?, h]
  | resolved new =>
    simp [Outcome.noting, Resolution.new?, h]
    rfl
  | unresolved =>
    simp [Outcome.noting, Resolution.new?, h]
    rfl

theorem replace_run (o : Outcome) (p : Piece) :
    ((p.replace (r.answer file)).run o).run d =
      ((p.settled (r.verdict d file), o.noting (r.verdict d file) p.literal?.toList), d) := by
  cases p with
  | plain c => simp [Piece.replace, Piece.settled, Piece.literal?, Outcome.noting_nil]
  | reference occurrence =>
    rw [Piece.replace, StateT.run_bind, Script.run_bind, answer_run]
    simp only [Piece.settled, Piece.literal?, Option.toList_some]
    cases (r.verdict d file (String.ofList occurrence.literal)).new? <;> rfl

theorem mapM_replace_run (o : Outcome) (ps : List Piece) :
    ((ps.mapM (Piece.replace (r.answer file))).run o).run d =
      ((ps.map (Piece.settled (r.verdict d file)),
        o.noting (r.verdict d file) (ps.filterMap Piece.literal?)), d) := by
  induction ps generalizing o with
  | nil => simp [Outcome.noting_nil]
  | cons p ps ih =>
    rw [List.mapM_cons, StateT.run_bind, Script.run_bind, replace_run, StateT.run_bind,
      Script.run_bind, ih, ← Outcome.noting_append]
    cases p <;> rfl

theorem replaceLiterals_run (form : Form) (o : Outcome) (text : String) :
    ((form.replaceLiterals (r.answer file) text).run o).run d =
      ((String.ofList (form.settle (r.verdict d file) text.toList),
        o.noting (r.verdict d file) (form.literals text.toList)), d) := by
  rw [Form.replaceLiterals, StateT.run_bind, Script.run_bind, mapM_replace_run]
  rfl

/-- The text of `file` with its references replaced as they resolve on a tree. -/
def unaliased (r : Resolver) (d : Disk) (file : Path) (text : String) : Unaliased :=
  ((r.unalias file text).run d).1

/-- The references of call form are settled first, then those of statement form in what results. -/
theorem unalias_run_eq (text : String) :
    (r.unalias file text).run d =
      (let verdict := r.verdict d file
        let first := Form.call.settle verdict text.toList
        let second := Form.statement.settle verdict first
        let noted := (({} : Outcome).noting verdict (Form.call.literals text.toList)).noting verdict
          (Form.statement.literals first)
        ⟨String.ofList second, { noted with changed := String.ofList second ≠ text }⟩, d) := by
  rw [unalias]
  rw [Script.run_bind, StateT.run_bind, Script.run_bind, replaceLiterals_run]
  dsimp only
  rw [replaceLiterals_run, String.toList_ofList]
  rfl

theorem unalias_run (text : String) :
    (r.unalias file text).run d = (r.unaliased d file text, d) := by
  rw [unaliased, unalias_run_eq]

theorem unaliased_congr {d d' : Disk} (h : d'.outline = d.outline) (text : String) :
    r.unaliased d' file text = r.unaliased d file text := by
  rw [unaliased, unalias_run_eq, unaliased, unalias_run_eq, verdict_congr r h]

theorem changed_unaliased (text : String) :
    (r.unaliased d file text).outcome.changed =
      decide ((r.unaliased d file text).text ≠ text) := by
  rw [unaliased, unalias_run_eq]

end Resolver

end Unalias
