import Unalias.Proofs.Settings.Fields

/-!
Settings as their layers give them. Defaults, variables and explicit values are fields, put one
layer over the other, and a run reads the fields that come out. What is given explicitly hides the
variables of its field, and what is not hidden has to fit.
-/

namespace Unalias.Settings

/-! ### Layers -/

/-- The variable sets no field that is given explicitly. -/
def Overrides.leaves (o : Overrides) (setting : String × String) : Bool :=
  !((field? setting.1).any fun key => (o.fields.map Prod.fst).contains key)

structure Overrides.IsKeptIn (o : Overrides) (s : Settings) : Prop where
  concurrency : ∀ n ∈ o.concurrency, s.concurrency = n
  dryRun : ∀ b ∈ o.dryRun, s.dryRun = b
  resolveFrom : ∀ p ∈ o.resolveFrom, s.resolveFrom = p
  sync : ∀ b ∈ o.sync, s.sync = b
  verbose : ∀ b ∈ o.verbose, s.verbose = b

/-- The values that a field takes: a count that is not zero, the name of a policy, or a truth
value. -/
def Takes (key : String) (v : Value) : Prop :=
  if key = "concurrency" then ∃ n : Nat, 0 < n ∧ (v = .unsigned n ∨ v = .signed n)
  else if key = "resolve_from" then ∃ p : Policy, v = .string p.name
  else ∃ b, v = .bool b

/-- The settings are what the fields hold. -/
structure IsReadFrom (s : Settings) (fields : List (String × Value)) : Prop where
  concurrency : fields.lookup "concurrency" = some (.unsigned s.concurrency) ∨
    fields.lookup "concurrency" = some (.signed s.concurrency)
  positive : 0 < s.concurrency
  dryRun : fields.lookup "dry_run" = some (.bool s.dryRun)
  resolveFrom : fields.lookup "resolve_from" = some (.string s.resolveFrom.name)
  sync : fields.lookup "sync" = some (.bool s.sync)
  verbose : fields.lookup "verbose" = some (.bool s.verbose)

/-! ### Reading values -/

section Read

variable {key : String} {v : Value}

theorem count_eq_ok_iff {n : Nat} : count key v = .ok n ↔ v = .unsigned n ∨ v = .signed n := by
  cases v with
  | unsigned m => simp [count]
  | signed m =>
    rw [count]
    split
    · simp only [reduceCtorEq, Value.signed.injEq, false_or, false_iff]
      omega
    · simp only [Except.ok.injEq, reduceCtorEq, Value.signed.injEq, false_or]
      omega
  | _ => simp [count]

theorem boolean_eq_ok_iff {b : Bool} : boolean key v = .ok b ↔ v = .bool b := by
  cases v <;> simp [boolean]

theorem policy_eq_ok_iff {p : Policy} : policy key v = .ok p ↔ v = .string p.name := by
  cases v with
  | string s =>
    rw [policy]
    split
    · cases p <;> simp_all [Policy.name]
    · split <;> cases p <;> simp_all [Policy.name]
  | map entries =>
    cases entries with
    | nil => simp [policy]
    | cons entry entries =>
      rw [policy]
      split <;> simp
  | _ => simp [policy]

end Read

/-! ### The value that wins a field -/

def Value.isMap : Value → Bool
  | .map _ => true
  | _ => false

/-- Only maps are merged. -/
theorem Value.over_eq {old new : Value} (h : old.isMap = false ∨ new.isMap = false) :
    old.over new = new := by
  cases new with
  | map entries => cases old <;> simp_all [isMap, Value.over]
  | _ => simp [Value.over]

section Given

variable {α : Type} {key k : String} {encode : α → Value} {a? : Option α}

theorem lookup_given :
    (given key encode a?).lookup k = if k = key then a?.map encode else none := by
  cases a? with
  | none => simp [given]
  | some a => by_cases hk : k = key <;> simp [given, List.lookup_cons, hk, beq_false_of_ne]

theorem keys_given_sublist : ((given key encode a?).map Prod.fst).Sublist [key] := by
  cases a? <;> simp [given]

end Given

theorem Overrides.nodup_keys_fields (o : Overrides) : (o.fields.map Prod.fst).Nodup := by
  have hsublist : (o.fields.map Prod.fst).Sublist names := by
    simp only [Overrides.fields, List.map_append]
    exact (((keys_given_sublist.append keys_given_sublist).append keys_given_sublist).append
      keys_given_sublist).append keys_given_sublist
  exact hsublist.nodup (by decide)

/-- A field: how explicit values and the default stand in it, and how it is read. -/
structure IsField {α : Type} (o : Overrides) (key : String) (override : Option α)
    (encode : α → Value) (read : String → Value → Except FieldError α) (default : α) : Prop where
  given : o.fields.lookup key = override.map encode
  default : (fields {}).lookup key = some (encode default)
  scalar : ∀ a, (encode a).isMap = false
  read : ∀ a, read key (encode a) = .ok a

section Fields

variable (o : Overrides)

theorem isField_concurrency : IsField o "concurrency" o.concurrency .unsigned count 16 where
  given := by simp [Overrides.fields, List.lookup_append, lookup_given]
  default := rfl
  scalar _ := rfl
  read _ := rfl

theorem isField_dryRun : IsField o "dry_run" o.dryRun .bool boolean false where
  given := by simp [Overrides.fields, List.lookup_append, lookup_given]
  default := rfl
  scalar _ := rfl
  read _ := rfl

theorem isField_resolveFrom :
    IsField o "resolve_from" o.resolveFrom (fun p => .string p.name) policy .source where
  given := by simp [Overrides.fields, List.lookup_append, lookup_given]
  default := rfl
  scalar _ := rfl
  read _ := policy_eq_ok_iff.2 rfl

theorem isField_sync : IsField o "sync" o.sync .bool boolean false where
  given := by simp [Overrides.fields, List.lookup_append, lookup_given]
  default := rfl
  scalar _ := rfl
  read _ := rfl

theorem isField_verbose : IsField o "verbose" o.verbose .bool boolean false where
  given := by simp [Overrides.fields, List.lookup_append, lookup_given]
  default := rfl
  scalar _ := rfl
  read _ := rfl

end Fields

namespace IsField

variable {α : Type} {o : Overrides} {key : String} {override : Option α} {encode : α → Value}
  {read : String → Value → Except FieldError α} {default : α}

theorem lookup_layers (h : IsField o key override encode read default)
    (environment : List (String × String)) :
    (layers environment o).lookup key =
      some (((override.map encode).or ((fieldsOf environment).lookup key)).getD
        (encode default)) := by
  have hsorted : (fields {}).Pairwise fun a b => a.1 < b.1 := by decide
  rw [layers, lookup_overEntries (sorted_overEntries hsorted) o.nodup_keys_fields,
    lookup_overEntries hsorted (nodup_keys_fieldsOf environment), h.given, h.default]
  cases override with
  | none =>
    cases (fieldsOf environment).lookup key with
    | none => rfl
    | some v => simp [stacked, Value.over_eq (.inl (h.scalar default))]
  | some a =>
    cases (fieldsOf environment).lookup key <;>
      simp [stacked, Value.over_eq (.inr (h.scalar a))]

/-- Every field has a value in the layers, and that value is read. -/
theorem readField_layers (h : IsField o key override encode read default)
    (environment : List (String × String)) :
    ∃ v, (layers environment o).lookup key = some v ∧
      readField (layers environment o) key read default = read key v := by
  refine ⟨_, h.lookup_layers environment, ?_⟩
  rw [readField, h.lookup_layers environment]

/-- A field that is given explicitly is read as it was given. -/
theorem readField_of_mem (h : IsField o key override encode read default)
    (environment : List (String × String)) {a : α} (ha : a ∈ override) :
    readField (layers environment o) key read default = .ok a := by
  obtain rfl : override = some a := ha
  rw [readField, h.lookup_layers environment]
  exact h.read a

/-- A field that is given explicitly hides its variables; any other sees all of them. -/
theorem readField_congr (h : IsField o key override encode read default)
    {environment environment' : List (String × String)}
    (hleaves : environment'.filter o.leaves = environment.filter o.leaves) :
    readField (layers environment' o) key read default =
      readField (layers environment o) key read default := by
  rw [readField, readField, h.lookup_layers, h.lookup_layers]
  cases override with
  | some a => rfl
  | none =>
    have hgiven : key ∉ o.fields.map Prod.fst := by
      have hnone : o.fields.lookup key = none := h.given
      intro hmem
      obtain ⟨entry, hentry, rfl⟩ := List.mem_map.1 hmem
      rw [Keyed.lookup_of_mem o.nodup_keys_fields hentry] at hnone
      cases hnone
    have hkeep : ∀ setting, field? setting.1 = some key → o.leaves setting = true := by
      intro setting hfield
      simpa [Overrides.leaves, hfield] using hgiven
    rw [← lookup_fieldsOf_filter hkeep environment', hleaves,
      lookup_fieldsOf_filter hkeep environment]

end IsField

/-! ### Loading -/

theorem bind_eq_ok_iff {ε α β : Type} {x : Except ε α} {f : α → Except ε β} {b : β} :
    x >>= f = .ok b ↔ ∃ a, x = .ok a ∧ f a = .ok b := by
  cases x with
  | error e => simp [bind, Except.bind]
  | ok a => simp [bind, Except.bind]

section Load

variable {environment : List (String × String)} {o : Overrides} {s : Settings}

theorem ofFields_eq_ok_iff {fields : List (String × Value)} : ofFields fields = .ok s ↔
    readField fields "concurrency" count 16 = .ok s.concurrency ∧
      readField fields "dry_run" boolean false = .ok s.dryRun ∧
      readField fields "resolve_from" policy .source = .ok s.resolveFrom ∧
      readField fields "sync" boolean false = .ok s.sync ∧
      readField fields "verbose" boolean false = .ok s.verbose := by
  simp only [ofFields, bind_eq_ok_iff, pure, Except.pure, Except.ok.injEq]
  constructor
  · rintro ⟨_, hconcurrency, _, hdryRun, _, hresolveFrom, _, hsync, _, hverbose, rfl⟩
    exact ⟨hconcurrency, hdryRun, hresolveFrom, hsync, hverbose⟩
  · rintro ⟨hconcurrency, hdryRun, hresolveFrom, hsync, hverbose⟩
    exact ⟨_, hconcurrency, _, hdryRun, _, hresolveFrom, _, hsync, _, hverbose, rfl⟩

theorem load_eq_ok_iff : load environment o = .ok s ↔
    ofFields (layers environment o) = .ok s ∧ 0 < s.concurrency := by
  rw [load]
  cases ofFields (layers environment o) with
  | error e => simp
  | ok t =>
    by_cases hzero : t.concurrency = 0
    · simp only [hzero, if_true, reduceCtorEq, Except.ok.injEq, false_iff, not_and]
      rintro rfl
      omega
    · simp only [hzero, if_false, Except.ok.injEq]
      refine ⟨fun h => ⟨h, ?_⟩, fun h => h.1⟩
      subst h
      omega

theorem load_congr {environment' : List (String × String)}
    (hleaves : environment'.filter o.leaves = environment.filter o.leaves) :
    load environment' o = load environment o := by
  have hconcurrency := (isField_concurrency o).readField_congr hleaves
  have hdryRun := (isField_dryRun o).readField_congr hleaves
  have hresolveFrom := (isField_resolveFrom o).readField_congr hleaves
  have hsync := (isField_sync o).readField_congr hleaves
  have hverbose := (isField_verbose o).readField_congr hleaves
  have hfields : ofFields (layers environment' o) = ofFields (layers environment o) := by
    simp only [ofFields, hconcurrency, hdryRun, hresolveFrom, hsync, hverbose]
  rw [load, load, hfields]

theorem load_isReadFrom : load environment o = .ok s ↔ s.IsReadFrom (layers environment o) := by
  obtain ⟨concurrency, hconcurrency, hcount⟩ :=
    (isField_concurrency o).readField_layers environment
  obtain ⟨dryRun, hdryRun, hreadDryRun⟩ := (isField_dryRun o).readField_layers environment
  obtain ⟨resolveFrom, hresolveFrom, hpolicy⟩ :=
    (isField_resolveFrom o).readField_layers environment
  obtain ⟨sync, hsync, hreadSync⟩ := (isField_sync o).readField_layers environment
  obtain ⟨verbose, hverbose, hreadVerbose⟩ := (isField_verbose o).readField_layers environment
  rw [load_eq_ok_iff, ofFields_eq_ok_iff, hcount, hreadDryRun, hpolicy, hreadSync, hreadVerbose,
    count_eq_ok_iff, boolean_eq_ok_iff, policy_eq_ok_iff, boolean_eq_ok_iff, boolean_eq_ok_iff]
  constructor
  · rintro ⟨⟨hs, rfl, rfl, rfl, rfl⟩, hpositive⟩
    refine ⟨?_, hpositive, hdryRun, hresolveFrom, hsync, hverbose⟩
    obtain rfl | rfl := hs
    · exact .inl hconcurrency
    · exact .inr hconcurrency
  · intro h
    have hs := h.concurrency
    rw [hconcurrency, Option.some.injEq, Option.some.injEq] at hs
    exact ⟨⟨hs, Option.some.inj (hdryRun.symm.trans h.dryRun),
      Option.some.inj (hresolveFrom.symm.trans h.resolveFrom),
      Option.some.inj (hsync.symm.trans h.sync), Option.some.inj (hverbose.symm.trans h.verbose)⟩,
      h.positive⟩

theorem isKeptIn_of_load (h : load environment o = .ok s) : o.IsKeptIn s := by
  obtain ⟨hconcurrency, hdryRun, hresolveFrom, hsync, hverbose⟩ :=
    ofFields_eq_ok_iff.1 (load_eq_ok_iff.1 h).1
  constructor
  · intro n hn
    exact Except.ok.inj <|
      hconcurrency.symm.trans ((isField_concurrency o).readField_of_mem environment hn)
  · intro b hb
    exact Except.ok.inj <|
      hdryRun.symm.trans ((isField_dryRun o).readField_of_mem environment hb)
  · intro p hp
    exact Except.ok.inj <|
      hresolveFrom.symm.trans ((isField_resolveFrom o).readField_of_mem environment hp)
  · intro b hb
    exact Except.ok.inj <| hsync.symm.trans ((isField_sync o).readField_of_mem environment hb)
  · intro b hb
    exact Except.ok.inj <|
      hverbose.symm.trans ((isField_verbose o).readField_of_mem environment hb)

theorem IsReadFrom.takes {fields : List (String × Value)} (h : s.IsReadFrom fields)
    {key : String} (hkey : key ∈ names) {v : Value} (hv : fields.lookup key = some v) :
    Takes key v := by
  simp only [names, List.mem_cons, List.not_mem_nil, or_false] at hkey
  obtain rfl | rfl | rfl | rfl | rfl := hkey
  · have hs := h.concurrency
    rw [hv, Option.some.injEq, Option.some.injEq] at hs
    exact ⟨s.concurrency, h.positive, hs⟩
  · exact ⟨s.dryRun, Option.some.inj (hv.symm.trans h.dryRun)⟩
  · exact ⟨s.resolveFrom, Option.some.inj (hv.symm.trans h.resolveFrom)⟩
  · exact ⟨s.sync, Option.some.inj (hv.symm.trans h.sync)⟩
  · exact ⟨s.verbose, Option.some.inj (hv.symm.trans h.verbose)⟩

/-- Variables of fields that are given explicitly, in any letter case and with any text, change
nothing. Settings that are loaded are those of the layers, with each explicit value as it was given
and a count that is not zero; and a value that wins its field and does not fit is an error. -/
theorem load_shielded (environment : List (String × String)) (o : Overrides) :
    (∀ environment' : List (String × String),
      environment'.filter o.leaves = environment.filter o.leaves →
        load environment' o = load environment o) ∧
    (∀ s, load environment o = .ok s → o.IsKeptIn s ∧ 1 ≤ s.concurrency) ∧
    (∀ s, load environment o = .ok s ↔ s.IsReadFrom (layers environment o)) ∧
    (∀ key ∈ names, ∀ v, (layers environment o).lookup key = some v → ¬Takes key v →
      ∃ e, load environment o = .error e) ∧
    (∀ key ∈ names, ∀ name : String,
      lower name.toList = lower variablePrefix.toList ++ key.toList → field? name = some key) := by
  refine ⟨fun _ => load_congr, fun s hs => ⟨isKeptIn_of_load hs, (load_eq_ok_iff.1 hs).2⟩,
    fun s => load_isReadFrom, fun key hkey v hv hmisfit => ?_,
    fun key hkey name => field?_of_lower hkey⟩
  cases hload : load environment o with
  | error e => exact ⟨e, rfl⟩
  | ok s => exact absurd ((load_isReadFrom.1 hload).takes hkey hv) hmisfit

end Load

/-- A value that does not fit is not seen behind an explicit one, and refused in front of the
default. -/
theorem load_shielded_concurrency :
    let shielded : Overrides := { concurrency := some 4 }
    let environment := [("ALIAS_REWRITE_SYNC", "true")]
    let environment' := [("Alias_Rewrite_Concurrency", "{x=-1}"), ("ALIAS_REWRITE_SYNC", "true"),
      ("alias_rewrite_concurrency.y", "0")]
    environment'.filter shielded.leaves = environment.filter shielded.leaves ∧
      load environment' shielded = .ok { sync := true, concurrency := 4 } ∧
      (layers [("ALIAS_REWRITE_CONCURRENCY", "0")] {}).lookup "concurrency" =
        some (.unsigned 0) ∧
      ¬Takes "concurrency" (.unsigned 0) ∧
      ∃ e, load [("ALIAS_REWRITE_CONCURRENCY", "0")] {} = .error e := by
  intro shielded environment environment'
  have hleaves : environment'.filter shielded.leaves = environment.filter shielded.leaves := by
    decide +kernel
  have hload : load environment shielded = .ok { sync := true, concurrency := 4 } := by
    have htrue : Value.ofText "true" = .bool true := by
      rw [Value.ofText, nested]
      rfl
    rw [load, layers, fieldsOf_singleton "sync" (by decide +kernel), htrue]
    rfl
  have hzero : (layers [("ALIAS_REWRITE_CONCURRENCY", "0")] {}).lookup "concurrency" =
      some (.unsigned 0) := by
    have hzero : Value.ofText "0" = .unsigned 0 := by
      rw [Value.ofText, nested]
      rfl
    rw [(isField_concurrency {}).lookup_layers,
      fieldsOf_singleton "concurrency" (by decide +kernel), hzero]
    rfl
  have hmisfit : ¬Takes "concurrency" (.unsigned 0) := by
    rintro ⟨n, hpositive, hn | hn⟩
    · cases hn
      exact absurd hpositive (by decide)
    · cases hn
  obtain ⟨hcongr, -, -, -, -⟩ := load_shielded environment shielded
  obtain ⟨-, -, -, herror, -⟩ := load_shielded [("ALIAS_REWRITE_CONCURRENCY", "0")] {}
  exact ⟨hleaves, (hcongr environment' hleaves).trans hload, hzero, hmisfit,
    herror "concurrency" (by decide) (.unsigned 0) hzero hmisfit⟩

end Unalias.Settings
