import Unalias.Proofs.Run.Course

/-!
Any number of callers of one engine, whose moves come in any order. Each may be stopped before any
of its moves, and the guard of a caller that is stopped in flight ends the flight. At most one
caller is in flight at a time, and the engine is open again when it is not in flight any more.
-/

namespace Unalias

/-- What the callers of one engine share. -/
structure Shared (σ : Type) where
  flight : Flight
  kept : σ
  tree : Disk

/-- A caller before its next move, in flight or not, or one that is gone: with its result, or with
none because it was dropped. -/
inductive Caller (σ : Type) where
  | before (holds : Bool) (m : Move σ) (next : m.Answer → Course σ (Except Error RunReport))
  | gone (result : Option (Except Error RunReport))

structure Traffic (σ : Type) where
  shared : Shared σ
  callers : List (Caller σ)

/-- A caller is stopped when it is dropped, or with an error that ends it early, such as that of a
file that cannot be written. The tree may be changed by others at any time. -/
inductive Event where
  | call (manner : Manner)
  | advance (i : Nat)
  | stop (i : Nat) (error : Option Error)
  | disturb (tree : Disk)

/-- The caller whose turn it is. -/
def Event.caller? : Event → Option Nat
  | .advance i | .stop i _ => some i
  | .call _ | .disturb _ => none

variable {σ : Type}

namespace Move

def make (m : Move σ) (g : Shared σ) : m.Answer × Shared σ :=
  let r := m.runner.on g.flight g.kept g.tree
  (r.1.1.1, ⟨r.1.1.2, r.1.2, r.2⟩)

/-- Whether a caller is in flight after a move. -/
def holdsAfter (holds : Bool) : (m : Move σ) → m.Answer → Bool
  | acquire, admitted => admitted || holds
  | release, _ => false
  | watch, _ | file _, _ | keep _, _ => holds

theorem make_acquire_of_idle {g : Shared σ} (h : g.flight = .idle) :
    acquire.make g = (true, { g with flight := .running }) := by
  rw [make, h]
  rfl

theorem make_acquire_of_running {g : Shared σ} (h : g.flight = .running) :
    acquire.make g = (false, g) := by
  obtain ⟨flight, kept, tree⟩ := g
  cases h
  rfl

theorem SparesFlight.make_flight {m : Move σ} (hm : m.SparesFlight) (g : Shared σ) :
    (m.make g).2.flight = g.flight := by
  cases m with
  | acquire => cases hm
  | release => cases hm
  | watch => rfl
  | keep f => rfl
  | file op => exact congrArg (·.1.1.2) (Runner.script_on g.flight g.kept g.tree (Script.op op))

theorem SparesFlight.holdsAfter {m : Move σ} (hm : m.SparesFlight) (holds : Bool)
    (answer : m.Answer) : m.holdsAfter holds answer = holds := by
  cases m with
  | acquire => cases hm
  | release => cases hm
  | watch => rfl
  | file op => rfl
  | keep f => rfl

end Move

namespace Caller

def of (holds : Bool) : Course σ (Except Error RunReport) → Caller σ
  | .done result => .gone (some result)
  | .move m next => .before holds m next

/-- Whether a caller is in flight. -/
def holds : Caller σ → Bool
  | .before holds _ _ => holds
  | .gone _ => false

/-- What is left of a caller gives up the flight if and only if the caller has it. -/
def Sound : Caller σ → Prop
  | .before holds m next => (Course.move m next).Respects (fun _ => false) holds
  | .gone _ => True

variable {holds : Bool} {c : Course σ (Except Error RunReport)}

theorem sound_of (h : c.Respects (fun _ => false) holds) : (of holds c).Sound := by
  cases c with
  | done result => trivial
  | move m next => exact h

theorem holds_of (h : c.Respects (fun _ => false) holds) : (of holds c).holds = holds := by
  cases c with
  | done result =>
    cases h with
    | done h => exact h
  | move m next => rfl

end Caller

namespace Traffic

/-- Whether a caller is in flight: it was admitted and has not given up the flight since. -/
def Holds (t : Traffic σ) (i : Nat) : Prop :=
  t.callers[i]?.any Caller.holds = true

/-- An engine that nobody has called yet. -/
def opened (s : σ) (d : Disk) : Traffic σ :=
  ⟨⟨.idle, s, d⟩, []⟩

def step (e : Charted σ) (t : Traffic σ) : Event → Traffic σ
  | .call manner => { t with callers := t.callers ++ [.of false (e.runAs manner)] }
  | .advance i =>
    match t.callers[i]? with
    | some (.before holds m next) =>
      let (answer, shared) := m.make t.shared
      ⟨shared, t.callers.set i (.of (m.holdsAfter holds answer) (next answer))⟩
    | _ => t
  | .stop i error =>
    match t.callers[i]? with
    | some (.before holds _ _) =>
      ⟨if holds then (Move.release.make t.shared).2 else t.shared,
        t.callers.set i (.gone (error.map .error))⟩
    | _ => t
  | .disturb tree => { t with shared := { t.shared with tree := tree } }

def after (e : Charted σ) (t : Traffic σ) (events : List Event) : Traffic σ :=
  events.foldl (step e) t

theorem step_advance {e : Charted σ} {t : Traffic σ} {i : Nat} {holds : Bool} {m : Move σ}
    {next : m.Answer → Course σ (Except Error RunReport)}
    (h : t.callers[i]? = some (.before holds m next)) :
    t.step e (.advance i) = ⟨(m.make t.shared).2,
      t.callers.set i
        (.of (m.holdsAfter holds (m.make t.shared).1) (next (m.make t.shared).1))⟩ := by
  simp only [step, h]

/-- The flight is idle and no caller is in it, or it is running and just one is. -/
def Matches (flight : Flight) (holds : Nat → Prop) : Prop :=
  flight = .idle ∧ (∀ i, ¬holds i) ∨ flight = .running ∧ ∃ i, ∀ j, holds j ↔ j = i

structure Sound (t : Traffic σ) : Prop where
  callers : ∀ c ∈ t.callers, c.Sound
  flight : Matches t.shared.flight t.Holds

namespace Matches

variable {flight : Flight} {holds : Nat → Prop} {i : Nat}

theorem running_iff (h : Matches flight holds) : flight = .running ↔ ∃ i, holds i := by
  obtain ⟨rfl, hnone⟩ | ⟨rfl, i, hi⟩ := h
  · exact ⟨nofun, fun ⟨i, hi⟩ => absurd hi (hnone i)⟩
  · exact ⟨fun _ => ⟨i, (hi i).2 rfl⟩, fun _ => rfl⟩

theorem idle_iff (h : Matches flight holds) : flight = .idle ↔ ∀ i, ¬holds i := by
  obtain ⟨rfl, hnone⟩ | ⟨rfl, i, hi⟩ := h
  · exact ⟨fun _ => hnone, fun _ => rfl⟩
  · exact ⟨nofun, fun hnone => absurd ((hi i).2 rfl) (hnone i)⟩

theorem eq_of_holds (h : Matches flight holds) {i j : Nat} (hi : holds i) (hj : holds j) :
    i = j := by
  obtain ⟨-, hnone⟩ | ⟨-, k, hk⟩ := h
  · exact absurd hi (hnone i)
  · exact ((hk i).1 hi).trans ((hk j).1 hj).symm

end Matches

variable {e : Charted σ} {t : Traffic σ} {i : Nat} {c c' : Caller σ} {g : Shared σ}

theorem lt_of_getElem? (h : t.callers[i]? = some c) : i < t.callers.length :=
  (List.getElem?_eq_some_iff.1 h).1

theorem holds_iff (h : t.callers[i]? = some c) : t.Holds i ↔ c.holds = true := by
  rw [Holds, h]
  rfl

theorem holds_set_self (h : t.callers[i]? = some c) :
    (⟨g, t.callers.set i c'⟩ : Traffic σ).Holds i ↔ c'.holds = true :=
  holds_iff (List.getElem?_set_self (lt_of_getElem? h))

theorem holds_set_ne {j : Nat} (h : i ≠ j) :
    (⟨g, t.callers.set i c'⟩ : Traffic σ).Holds j ↔ t.Holds j := by
  rw [Holds, Holds, List.getElem?_set_ne h]

theorem holds_call (manner : Manner) : (t.step e (.call manner)).Holds i ↔ t.Holds i := by
  simp only [Holds, step, List.getElem?_append]
  split
  next => exact Iff.rfl
  next hi =>
    rw [List.getElem?_eq_none (Nat.le_of_not_lt hi)]
    cases i - t.callers.length with
    | zero => simp [Caller.holds_of (e.respects_runAs manner)]
    | succ n => exact Iff.rfl

/-- Callers are in flight or not as before as long as it is not their turn. -/
theorem holds_step {event : Event} (h : event.caller? ≠ some i) :
    (t.step e event).Holds i ↔ t.Holds i := by
  cases event with
  | call manner => exact holds_call manner
  | disturb tree => exact Iff.rfl
  | advance j =>
    simp only [step]
    split
    · exact holds_set_ne (mt (congrArg some) h)
    · exact Iff.rfl
  | stop j error =>
    simp only [step]
    split
    · exact holds_set_ne (mt (congrArg some) h)
    · exact Iff.rfl

namespace Sound

theorem of_getElem? (ht : t.Sound) (h : t.callers[i]? = some c) : c.Sound :=
  ht.callers c (List.mem_of_getElem? h)

theorem callers_set (ht : t.Sound) (hc' : c'.Sound) : ∀ c ∈ t.callers.set i c', c.Sound := by
  intro c hc
  obtain hc | rfl := List.mem_or_eq_of_mem_set hc
  · exact ht.callers c hc
  · exact hc'

/-- A caller that goes on and is in flight, or not, as before. -/
theorem set_same (ht : t.Sound) (h : t.callers[i]? = some c) (hc' : c'.Sound)
    (hholds : c'.holds = c.holds) (hflight : g.flight = t.shared.flight) :
    Sound ⟨g, t.callers.set i c'⟩ where
  callers := ht.callers_set hc'
  flight := by
    have hsame : (⟨g, t.callers.set i c'⟩ : Traffic σ).Holds = t.Holds := by
      funext j
      by_cases hj : i = j
      · subst hj
        exact propext ((holds_set_self h).trans (hholds ▸ (holds_iff h).symm))
      · exact propext (holds_set_ne hj)
    rw [hsame, hflight]
    exact ht.flight

/-- A caller that is admitted. -/
theorem set_admitted (ht : t.Sound) (h : t.callers[i]? = some c) (hc' : c'.Sound)
    (hholds : c'.holds = true) (hidle : t.shared.flight = .idle) (hflight : g.flight = .running) :
    Sound ⟨g, t.callers.set i c'⟩ where
  callers := ht.callers_set hc'
  flight := by
    refine .inr ⟨hflight, i, fun j => ?_⟩
    by_cases hj : i = j
    · subst hj
      exact iff_of_true ((holds_set_self h).2 hholds) rfl
    · rw [holds_set_ne hj]
      exact iff_of_false (ht.flight.idle_iff.1 hidle j) (Ne.symm hj)

/-- A caller that gives up the flight. -/
theorem set_released (ht : t.Sound) (h : t.callers[i]? = some c) (hc' : c'.Sound)
    (hc : c.holds = true) (hholds : c'.holds = false) (hflight : g.flight = .idle) :
    Sound ⟨g, t.callers.set i c'⟩ where
  callers := ht.callers_set hc'
  flight := by
    refine .inl ⟨hflight, fun j hj => ?_⟩
    by_cases hij : i = j
    · subst hij
      rw [holds_set_self h, hholds] at hj
      cases hj
    · rw [holds_set_ne hij] at hj
      exact hij (ht.flight.eq_of_holds ((holds_iff h).2 hc) hj)

theorem call (ht : t.Sound) (manner : Manner) : (t.step e (.call manner)).Sound where
  callers c hc := by
    obtain hc | hc := List.mem_append.1 hc
    · exact ht.callers c hc
    · rw [List.mem_singleton.1 hc]
      exact Caller.sound_of (e.respects_runAs manner)
  flight := by
    have hsame : (t.step e (.call manner)).Holds = t.Holds :=
      funext fun i => propext (holds_call manner)
    rw [hsame]
    exact ht.flight

theorem advance (ht : t.Sound) (i : Nat) : (t.step e (.advance i)).Sound := by
  cases h : t.callers[i]? with
  | none => simpa only [step, h] using ht
  | some c =>
    cases c with
    | gone result => simpa only [step, h] using ht
    | before holds m next =>
      rw [step_advance h]
      have hc := ht.of_getElem? h
      cases hc with
      | admitted hyes hno =>
        cases hflight : t.shared.flight with
        | idle =>
          rw [Move.make_acquire_of_idle hflight]
          exact ht.set_admitted h (Caller.sound_of hyes) (Caller.holds_of hyes) hflight rfl
        | running =>
          rw [Move.make_acquire_of_running hflight]
          exact ht.set_same h (Caller.sound_of hno) (Caller.holds_of hno) rfl
      | refused hno =>
        -- the caller starts a run within its own flight, so the engine is not idle
        have hflight := ht.flight.running_iff.2 ⟨i, (holds_iff h).2 rfl⟩
        rw [Move.make_acquire_of_running hflight]
        exact ht.set_same h (Caller.sound_of hno) (Caller.holds_of hno) rfl
      | release hnext =>
        exact ht.set_released h (Caller.sound_of hnext) rfl (Caller.holds_of hnext) rfl
      | aside hm hnext =>
        rw [hm.holdsAfter]
        exact ht.set_same h (Caller.sound_of (hnext _)) (Caller.holds_of (hnext _))
          (hm.make_flight _)

theorem stop (ht : t.Sound) (i : Nat) (error : Option Error) :
    (t.step e (.stop i error)).Sound := by
  cases h : t.callers[i]? with
  | none => simpa only [step, h] using ht
  | some c =>
    cases c with
    | gone result => simpa only [step, h] using ht
    | before holds m next =>
      simp only [step, h]
      cases holds with
      | false => exact ht.set_same h trivial rfl rfl
      | true => exact ht.set_released h trivial rfl rfl rfl

theorem step (ht : t.Sound) (event : Event) : (t.step e event).Sound := by
  cases event with
  | call manner => exact ht.call manner
  | advance i => exact ht.advance i
  | stop i error => exact ht.stop i error
  | disturb tree => exact ⟨ht.callers, ht.flight⟩

theorem after (ht : t.Sound) (events : List Event) : (t.after e events).Sound := by
  induction events generalizing t with
  | nil => exact ht
  | cons event events ih => exact ih (ht.step event)

end Sound

theorem sound_opened (s : σ) (d : Disk) : (opened s d).Sound where
  callers _ hc := nomatch hc
  flight := .inl ⟨rfl, fun _ => nofun⟩

/-! ### Starts -/

theorem advance_of_running (hflight : t.shared.flight = .running) {e' : Charted σ} {holds : Bool}
    {manner : Manner} {k : Except Error RunReport → Course σ (Except Error RunReport)}
    (h : t.callers[i]? = some (.of holds (e'.runAs manner >>= k))) :
    t.step e (.advance i) =
      { t with callers := t.callers.set i (.of holds (k (.error .alreadyRunning))) } := by
  obtain ⟨next, heq, hno⟩ := e'.runAs_eq_acquire manner
  rw [heq] at h
  change t.callers[i]? = some (.before holds .acquire fun answer => next answer >>= k) at h
  rw [step_advance h, Move.make_acquire_of_running hflight]
  dsimp only
  rw [hno, Course.done_bind]
  rfl

theorem advance_of_idle (hflight : t.shared.flight = .idle) {manner : Manner}
    (h : t.callers[i]? = some (.of false (e.runAs manner))) :
    (t.step e (.advance i)).Holds i ∧
      (t.step e (.advance i)).shared = { t.shared with flight := .running } := by
  have hrespects := e.respects_runAs manner
  obtain ⟨next, heq, -⟩ := e.runAs_eq_acquire manner
  rw [heq] at h hrespects
  rw [step_advance h, Move.make_acquire_of_idle hflight]
  refine ⟨(holds_set_self h).2 ?_, rfl⟩
  cases hrespects with
  | admitted hyes => exact Caller.holds_of hyes
  | aside hm => cases hm

/-! ### Ends -/

theorem not_holds_stop (i : Nat) (error : Option Error) : ¬(t.step e (.stop i error)).Holds i := by
  cases h : t.callers[i]? with
  | none => simp [step, Holds, h]
  | some c =>
    cases c with
    | gone result => simp [step, Holds, h, Caller.holds]
    | before holds m next =>
      simp only [step, h]
      rw [holds_set_self h]
      exact nofun

theorem getElem?_advance {holds : Bool} {m : Move σ}
    {next : m.Answer → Course σ (Except Error RunReport)}
    (h : t.callers[i]? = some (.before holds m next)) :
    (t.step e (.advance i)).callers[i]? =
      some (.of (m.holdsAfter holds (m.make t.shared).1) (next (m.make t.shared).1)) := by
  rw [step_advance h]
  exact List.getElem?_set_self (lt_of_getElem? h)

/-- A caller whose turn it is alone gets a result. -/
theorem exists_result {holds : Bool} {c : Course σ (Except Error RunReport)}
    (h : t.callers[i]? = some (.of holds c)) :
    ∃ n result, (t.after e (List.replicate n (.advance i))).callers[i]? =
      some (.gone (some result)) := by
  induction c generalizing t holds with
  | done result => exact ⟨0, result, h⟩
  | move m next ih =>
    obtain ⟨n, result, hresult⟩ := ih _ (getElem?_advance h)
    exact ⟨n + 1, result, hresult⟩

/-- Only the caller in flight ends the flight. -/
theorem Sound.exists_holder_of_ends (ht : t.Sound) (hflight : t.shared.flight = .running)
    {event : Event} (hends : (t.step e event).shared.flight = .idle) :
    ∃ i, t.Holds i ∧ event.caller? = some i := by
  obtain ⟨i, hi⟩ := ht.flight.running_iff.1 hflight
  have hgone : ¬(t.step e event).Holds i := (ht.step event).flight.idle_iff.1 hends i
  exact ⟨i, hi, Decidable.byContradiction fun hne => hgone ((holds_step hne).2 hi)⟩

/-- A flight that its caller has left is over. -/
theorem Sound.flight_of_left (ht : t.Sound) {event : Event} (hi : t.Holds i)
    (hleft : ¬(t.step e event).Holds i) : (t.step e event).shared.flight = .idle := by
  have hturn : event.caller? = some i :=
    Decidable.byContradiction fun hne => hleft ((holds_step hne).2 hi)
  -- another caller in flight now would have been in flight before, beside `i`
  refine (ht.step event).flight.idle_iff.2 fun j hj => ?_
  have hij : i ≠ j := fun h => hleft (h ▸ hj)
  have hold : t.Holds j := (holds_step (by simpa [hturn] using hij)).1 hj
  exact hij (ht.flight.eq_of_holds hi hold)

end Traffic

/-- What holds of an engine and its callers whatever has come before. A start is the first move of
a run, be it of a caller or, as in `refuses_within`, of a sink or another part of what a caller
does; a caller that is refused has made no other move. -/
structure SingleFlight (e : Charted σ) (t : Traffic σ) : Prop where
  at_most_one : ∀ i j, t.Holds i → t.Holds j → i = j
  running_iff : t.shared.flight.isRunning = true ↔ ∃ i, t.Holds i
  refuses : t.shared.flight = .running → ∀ i manner,
    t.callers[i]? = some (.of false (e.runAs manner)) →
      t.step e (.advance i) =
        { t with callers := t.callers.set i (.gone (some (.error .alreadyRunning))) }
  refuses_within : t.shared.flight = .running → ∀ (e' : Charted σ) i holds manner k,
    t.callers[i]? = some (.of holds (e'.runAs manner >>= k)) →
      t.step e (.advance i) =
        { t with callers := t.callers.set i (.of holds (k (.error .alreadyRunning))) }
  ended_by_holder : t.shared.flight = .running → ∀ event,
    (t.step e event).shared.flight = .idle →
      ∃ i, t.Holds i ∧ event.caller? = some i
  stops : ∀ i error, ¬(t.step e (.stop i error)).Holds i
  returns : ∀ i holds c, t.callers[i]? = some (.of holds c) → ∃ n result,
    (t.after e (List.replicate n (.advance i))).callers[i]? = some (.gone (some result))
  admits : t.shared.flight = .idle → ∀ i manner,
    t.callers[i]? = some (.of false (e.runAs manner)) →
      (t.step e (.advance i)).Holds i ∧
        (t.step e (.advance i)).shared = { t.shared with flight := .running }
  reopens : ∀ i event, t.Holds i → ¬(t.step e event).Holds i →
    (t.step e event).shared.flight = .idle ∧ ∀ j manner,
      (t.step e event).callers[j]? = some (.of false (e.runAs manner)) →
        ((t.step e event).step e (.advance j)).Holds j

theorem Traffic.Sound.singleFlight {e : Charted σ} {t : Traffic σ} (ht : t.Sound) :
    SingleFlight e t where
  at_most_one i j := ht.flight.eq_of_holds
  running_iff := by
    rw [← ht.flight.running_iff, Flight.isRunning, decide_eq_true_iff]
  refuses hflight i manner h := by
    rw [← Course.bind_done (e.runAs manner)] at h
    exact Traffic.advance_of_running hflight h
  refuses_within hflight e' i holds manner k h := Traffic.advance_of_running hflight h
  ended_by_holder hflight event := ht.exists_holder_of_ends hflight
  stops := Traffic.not_holds_stop
  returns i holds c := Traffic.exists_result
  admits hflight i manner := Traffic.advance_of_idle hflight
  reopens i event hi hleft := by
    have hidle := ht.flight_of_left hi hleft
    exact ⟨hidle, fun j manner h => (Traffic.advance_of_idle hidle h).1⟩

/-- At most one run of an engine is in flight, in whatever order its callers start, go on and are
stopped; any other start is refused and changes nothing, and once that run has ended, the next is
admitted. -/
theorem Charted.single_flight (e : Charted σ) (s : σ) (d : Disk) (events : List Event) :
    (∀ manner, (e.runAs manner).runner = e.toEngine.runAs manner) ∧
      SingleFlight e ((Traffic.opened s d).after e events) :=
  ⟨e.runner_runAs, ((Traffic.sound_opened s d).after events).singleFlight⟩

/-! ### A sink that starts a run -/

/-- Starts a run of the engine that delivers the report, and keeps what comes of it. -/
def reentrant (e : Charted (List (Except Error RunReport))) (_ : RunReport) :
    Course (List (Except Error RunReport)) (Except Error Unit) := do
  let result ← e.runAs .sequential
  let _ ← Course.keep (· ++ [result])
  return .ok ()

def Charted.quiet (job : Job) : Charted σ where
  toEngine := Engine.ofJob job 1 none
  course := none
  sink_eq := rfl
  spares := nofun

def reentering (job : Job) : Charted (List (Except Error RunReport)) where
  toEngine := Engine.ofJob job 1 (some fun report => (reentrant (.quiet job) report).runner)
  course := some (reentrant (.quiet job))
  sink_eq := rfl
  spares deliver hdeliver report := by
    cases hdeliver
    refine ((Charted.quiet job).respects_runAs_within .sequential).bind fun result => ?_
    exact (Course.respects_keep true _).bind fun _ => .done rfl

/-- The second caller is refused in the flight of the first, and the third is admitted once the
first is dropped. -/
example (d : Disk) :
    let t := (Traffic.opened [] d).after (reentering Sample.job)
      [.call .sequential, .call (.concurrent []), .advance 0, .advance 1, .stop 0 none,
        .call .sequential, .advance 2]
    t.callers.map Caller.holds = [false, false, true] ∧ t.shared.flight = .running :=
  ⟨rfl, rfl⟩

end Unalias
