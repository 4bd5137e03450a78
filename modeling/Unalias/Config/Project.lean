import Unalias.Config.Document
import Unalias.Config.Route
import Unalias.Config.Rule
import Unalias.Files.Attempt
import Unalias.Path.Normal

/-!
Loading a configuration with all it extends. Relative options are taken from the directory of the
document that sets them; of two documents that set one option the later read counts, and a
document is read after those it extends.
-/

namespace Unalias

structure Layer where
  outRoot : Option Path := none
  aliasRoot : Option Path := none
  rules : Option (List Rule) := none
  deriving DecidableEq

namespace Layer

def overlay (lower upper : Layer) : Layer where
  outRoot := upper.outRoot.or lower.outRoot
  aliasRoot := upper.aliasRoot.or lower.aliasRoot
  rules := upper.rules.or lower.rules

/-- An option that names a directory; the empty text names none. -/
def directory? (here : Path) (option : Option String) : Option Path :=
  match option with
  | none => none
  | some text => if text = "" then none else some (here.resolve [⟨text⟩])

/-- What one document in the directory `here` sets. -/
def ofOptions (here : Path) (options : Option Config.Options) : Except ConfigError Layer :=
  match options with
  | none => .ok {}
  | some options =>
    let outRoot := directory? here options.outDir
    let aliasRoot := directory? here options.baseUrl
    match options.paths with
    | none => .ok ⟨outRoot, aliasRoot, none⟩
    | some paths =>
      match Rule.ofPaths paths with
      | .error e => .error e
      | .ok rules => .ok ⟨outRoot, aliasRoot, some rules⟩

end Layer

namespace Config

def read (file : Path) : Attempt Document := do
  match Document.parse (← Attempt.read file) with
  | .error e => throw (.invalidJson file e)
  | .ok document => return document

def suffix : String := ".json"

def hasSuffix (entry : String) : Bool :=
  suffix.toList.isSuffixOf entry.toList

def directoryOf (file : Path) : Path :=
  file.parent?.getD ⟨"/"⟩

/-- The document that `file` extends under the name `entry`. -/
def locate (file : Path) (entry : String) : Attempt Path := do
  let candidate := (directoryOf file).resolve [⟨entry⟩]
  if ← Files.isFile candidate then return candidate
  if !hasSuffix entry then
    if ← Files.isFile (candidate.addSuffix suffix) then return candidate.addSuffix suffix
  throw (.config (.parentNotFound entry file))

mutual

/-- What a document and all it extends set; `route` leads to the document. -/
def layer (route : Route) (file : Path) : Attempt Layer :=
  if hnew : file ∈ route.files then
    throw (.config (.circularExtends (route.files ++ [file])))
  else do
    let document ← read file
    if hfits : file.fits then
      let inherited ← layers (route.extend file hnew hfits) file (document.extends?.getD []) {}
      match Layer.ofOptions (directoryOf file) document.options with
      | .error e => throw (.config e)
      | .ok own => return inherited.overlay own
    else throw (.filesAt file .nameTooLong)
termination_by (route.room, 0)
decreasing_by exact Prod.Lex.left _ _ (route.room_extend_lt file hnew hfits)

/-- What the documents that `file` extends set, over what is set so far. -/
def layers (route : Route) (file : Path) (entries : List String) (below : Layer) :
    Attempt Layer :=
  match entries with
  | [] => return below
  | entry :: entries => do
    let parent ← locate file entry
    let above ← layer route parent
    layers route file entries (below.overlay above)
termination_by (route.room, entries.length + 1)

end

end Config

/-- A configuration that sets all a run needs. -/
structure Project where
  root : Path
  outRoot : Path
  aliasRoot : Path
  rules : List Rule
  deriving DecidableEq

namespace Project

/-- The project of a document; the first option that nothing sets is reported. -/
def ofLayer (file : Path) (layer : Layer) : Except ConfigError Project :=
  match layer.aliasRoot, layer.rules, layer.outRoot with
  | none, _, _ => .error (.missingOption "baseUrl")
  | _, none, _ => .error (.missingOption "paths")
  | _, _, none => .error (.missingOption "outDir")
  | some aliasRoot, some rules, some outRoot =>
    .ok ⟨file.parent?.getD ⟨""⟩, outRoot, aliasRoot, rules⟩

def load (file : Path) : Attempt Project := do
  let file := Path.absolutize (← Files.workingDirectory) file
  match ofLayer file (← Config.layer .start file) with
  | .error e => throw (.config e)
  | .ok project => return project

end Project

end Unalias
