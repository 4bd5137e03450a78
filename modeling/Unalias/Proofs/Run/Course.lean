import Unalias.Proofs.Run.SecondRun

/-!
What a caller of an engine does, move by move. A runner goes from its beginning to its end in one
piece; a course is the same computation cut where other callers may come in between.
-/

namespace Unalias

/-- What a caller does at once. The flight is tested and taken in one move; `keep` answers with the
state of the sink as it was before. -/
inductive Move (σ : Type) where
  | acquire
  | release
  | watch
  | file (op : FileOp)
  | keep (f : σ → σ)

namespace Move

variable {σ : Type}

def Answer : Move σ → Type
  | acquire => Bool
  | release => Unit
  | watch => Flight
  | file op => op.Answer
  | keep _ => σ

def runner : (m : Move σ) → Runner σ m.Answer
  | acquire => Runner.acquire
  | release => Runner.release
  | watch => get
  | file op => Runner.script (Script.op op)
  | keep f => (modifyGet fun s => (s, f s) : StateT σ Script σ)

/-- Moves that leave the flight as it is, whatever they find. -/
def SparesFlight : Move σ → Prop
  | acquire | release => False
  | watch | file _ | keep _ => True

end Move

inductive Course (σ α : Type) : Type where
  | done (a : α)
  | move (m : Move σ) (next : m.Answer → Course σ α)

namespace Course

variable {σ α β : Type}

def bind : Course σ α → (α → Course σ β) → Course σ β
  | .done a, f => f a
  | .move m next, f => .move m fun answer => (next answer).bind f

instance : Monad (Course σ) where
  pure := .done
  bind := .bind

@[simp]
theorem pure_eq (a : α) : (pure a : Course σ α) = .done a :=
  rfl

@[simp]
theorem done_bind (a : α) (f : α → Course σ β) : (Course.done a >>= f) = f a :=
  rfl

@[simp]
theorem move_bind (m : Move σ) (next : m.Answer → Course σ α) (f : α → Course σ β) :
    (Course.move m next >>= f) = .move m fun answer => next answer >>= f :=
  rfl

theorem bind_done (c : Course σ α) : c.bind .done = c := by
  induction c with
  | done a => rfl
  | move m next ih => exact congrArg (move m) (funext ih)

protected theorem bind_assoc {γ : Type} (c : Course σ α) (f : α → Course σ β) (g : β → Course σ γ) :
    (c.bind f).bind g = c.bind fun a => (f a).bind g := by
  induction c with
  | done a => rfl
  | move m next ih => exact congrArg (move m) (funext ih)

instance : LawfulMonad (Course σ) :=
  LawfulMonad.mk' (Course σ) bind_done (fun _ _ => rfl) Course.bind_assoc

def acquire : Course σ Bool :=
  .move .acquire .done

def release : Course σ Unit :=
  .move .release .done

def keep (f : σ → σ) : Course σ σ :=
  .move (.keep f) .done

def script : Script α → Course σ α
  | .done a => .done a
  | .perform op next => .move (.file op) fun answer => script (next answer)

/-- The course without a break. -/
def runner : Course σ α → Runner σ α
  | .done a => pure a
  | .move m next => m.runner >>= fun answer => (next answer).runner

theorem runner_bind (c : Course σ α) (f : α → Course σ β) :
    (c >>= f).runner = c.runner >>= fun a => (f a).runner := by
  induction c with
  | done a => rw [done_bind, runner, pure_bind]
  | move m next ih =>
    rw [move_bind, runner, runner, bind_assoc]
    exact congrArg _ (funext ih)

theorem runner_acquire : (acquire : Course σ Bool).runner = Runner.acquire :=
  bind_pure _

theorem runner_release : (release : Course σ Unit).runner = Runner.release :=
  bind_pure _

theorem runner_script (s : Script α) : (script s : Course σ α).runner = Runner.script s := by
  induction s with
  | done a => rfl
  | perform op next ih => exact congrArg (Runner.script (Script.op op) >>= ·) (funext ih)

/-- A course begun with the flight or without it. It gives up the flight only when it has it, and
is never admitted twice; how it ends tells by `after` whether it has the flight still. -/
inductive Respects (after : α → Bool) : (holds : Bool) → Course σ α → Prop
  | done {holds : Bool} {a : α} (h : after a = holds) : Respects after holds (.done a)
  | admitted {next : Bool → Course σ α} (hyes : Respects after true (next true))
      (hno : Respects after false (next false)) : Respects after false (.move .acquire next)
  | refused {next : Bool → Course σ α} (hno : Respects after true (next false)) :
      Respects after true (.move .acquire next)
  | release {next : Unit → Course σ α} (h : Respects after false (next ())) :
      Respects after true (.move .release next)
  | aside {holds : Bool} {m : Move σ} {next : m.Answer → Course σ α} (hm : m.SparesFlight)
      (h : ∀ answer, Respects after holds (next answer)) : Respects after holds (.move m next)

theorem Respects.bind {after : α → Bool} {after' : β → Bool} {holds : Bool} {c : Course σ α}
    {f : α → Course σ β} (hc : Respects after holds c)
    (hf : ∀ a, Respects after' (after a) (f a)) : Respects after' holds (c >>= f) := by
  induction hc with
  | @done _ a h => exact h ▸ hf a
  | admitted _ _ hyes hno => exact .admitted hyes hno
  | refused _ hno => exact .refused hno
  | release _ h => exact .release h
  | aside hm _ h => exact .aside hm h

theorem respects_script (holds : Bool) (s : Script α) :
    Respects (fun _ => holds) holds (script s : Course σ α) := by
  induction s with
  | done a => exact .done rfl
  | perform op next ih => exact .aside trivial ih

theorem respects_keep (holds : Bool) (f : σ → σ) : Respects (fun _ => holds) holds (keep f) :=
  .aside trivial fun _ => .done rfl

end Course

/-- An engine with the course of its sink. A sink may start runs of the engine, but the flight in
which it is given a report is not its to end. -/
structure Charted (σ : Type) extends Engine σ where
  course : Option (RunReport → Course σ (Except Error Unit))
  sink_eq : sink = course.map fun deliver report => (deliver report).runner
  spares : ∀ deliver ∈ course, ∀ report, (deliver report).Respects (fun _ => true) true

/-- A run that waits for its files is in flight. -/
def Started.holds : Started → Bool
  | .ended _ => false
  | .waiting _ _ => true

namespace Charted

variable {σ : Type} (e : Charted σ)

def emit (report : RunReport) : Course σ (Except Error Unit) :=
  match e.course with
  | none => return .ok ()
  | some deliver => if e.job.emitsReport then deliver report else return .ok ()

def conclude (filesScanned : Nat) (processed : Processed) :
    Course σ (Except Error RunReport) := do
  let report := ⟨e.job, processed.report filesScanned⟩
  let emitted ← e.emit report
  Course.release
  return do
    processed.result
    emitted
    return report

def abandon (error : Error) : Course σ (Except Error RunReport) := do
  Course.release
  return .error error

def runSync : Course σ (Except Error RunReport) := do
  if ← Course.acquire then
    match ← Course.script (Files.scan e.job.outRoot).run with
    | .error error => abandon error
    | .ok files =>
      let processed ← Course.script (e.job.processAll files)
      e.conclude files.length processed
  else return .error .alreadyRunning

def start : Course σ Started := do
  if ← Course.acquire then
    match ← Course.script (Files.scan e.job.outRoot).run with
    | .error error => return .ended (← abandon error)
    | .ok files =>
      if files.isEmpty then return .ended (← e.conclude 0 {})
      return .waiting files.length (.start e.concurrency files)
  else return .ended (.error .alreadyRunning)

def await (schedule : List Nat) : Started → Course σ (Except Error RunReport)
  | .ended result => return result
  | .waiting filesScanned pool => do
    let processed ← Course.script (pool.run e.job e.concurrency schedule)
    let result ← e.conclude filesScanned processed
    Course.script (Processed.land processed.leftover)
    return result

def runAs : Manner → Course σ (Except Error RunReport)
  | .sequential => e.runSync
  | .concurrent schedule => e.start >>= e.await schedule

/-! ### The courses of an engine are its runs -/

theorem runner_emit (report : RunReport) : (e.emit report).runner = e.toEngine.emit report := by
  rw [emit, Engine.emit, e.sink_eq]
  cases e.course with
  | none => rfl
  | some deliver =>
    cases e.job.emitsReport with
    | false => rfl
    | true => rfl

theorem runner_conclude (n : Nat) (p : Processed) :
    (e.conclude n p).runner = e.toEngine.conclude n p := by
  simp only [conclude, Engine.conclude, Course.runner_bind, runner_emit, Course.runner_release]
  rfl

theorem runner_abandon (error : Error) :
    (abandon error : Course σ _).runner = Engine.abandon error := by
  rw [abandon, Engine.abandon, Course.runner_bind, Course.runner_release]
  rfl

theorem runner_runSync : e.runSync.runner = e.toEngine.runSync := by
  rw [runSync, Engine.runSync, Course.runner_bind, Course.runner_acquire]
  congr 1
  funext admitted
  cases admitted with
  | false => rfl
  | true =>
    simp only [if_true, Course.runner_bind, Course.runner_script]
    congr 1
    funext scanned
    cases scanned with
    | error error => exact runner_abandon error
    | ok files => simp only [Course.runner_bind, Course.runner_script, runner_conclude]

theorem runner_start : e.start.runner = e.toEngine.start := by
  rw [start, Engine.start, Course.runner_bind, Course.runner_acquire]
  congr 1
  funext admitted
  cases admitted with
  | false => rfl
  | true =>
    simp only [if_true, Course.runner_bind, Course.runner_script]
    congr 1
    funext scanned
    cases scanned with
    | error error =>
      simp only [Course.runner_bind, runner_abandon]
      rfl
    | ok files =>
      dsimp only
      split
      · rw [Course.runner_bind, runner_conclude]
        rfl
      · rfl

theorem runner_await (schedule : List Nat) (started : Started) :
    (e.await schedule started).runner = e.toEngine.await schedule started := by
  cases started with
  | ended result => rfl
  | waiting n pool =>
    simp only [await, Engine.await, Course.runner_bind, Course.runner_script, runner_conclude]
    rfl

theorem runner_runAs (manner : Manner) : (e.runAs manner).runner = e.toEngine.runAs manner := by
  cases manner with
  | sequential => exact e.runner_runSync
  | concurrent schedule =>
    rw [runAs, Engine.runAs, Engine.run, Course.runner_bind, runner_start]
    congr 1
    funext started
    exact e.runner_await schedule started

/-! ### The flight is taken and given up once -/

theorem respects_emit (report : RunReport) : (e.emit report).Respects (fun _ => true) true := by
  rw [emit]
  split
  next => exact .done rfl
  next deliver hdeliver =>
    split
    · exact e.spares deliver hdeliver report
    · exact .done rfl

theorem respects_conclude (n : Nat) (p : Processed) :
    (e.conclude n p).Respects (fun _ => false) true :=
  (e.respects_emit _).bind fun _ => .release (.done rfl)

theorem respects_abandon (error : Error) :
    (abandon error : Course σ _).Respects (fun _ => false) true :=
  .release (.done rfl)

/-- A run begins with a move to be admitted, and has ended if it is not. -/
theorem runAs_eq_acquire (manner : Manner) :
    ∃ next : Bool → Course σ (Except Error RunReport), e.runAs manner = .move .acquire next ∧
      next false = .done (.error .alreadyRunning) := by
  cases manner with
  | sequential => exact ⟨_, rfl, rfl⟩
  | concurrent schedule => exact ⟨_, rfl, rfl⟩

theorem respects_start : e.start.Respects Started.holds false := by
  refine .admitted ?_ (.done rfl)
  refine (Course.respects_script true _).bind fun scanned => ?_
  cases scanned with
  | error error => exact (respects_abandon error).bind fun _ => .done rfl
  | ok files =>
    dsimp only
    split
    · exact (e.respects_conclude 0 {}).bind fun _ => .done rfl
    · exact .done rfl

theorem respects_await (schedule : List Nat) (started : Started) :
    (e.await schedule started).Respects (fun _ => false) started.holds := by
  cases started with
  | ended result => exact .done rfl
  | waiting n pool =>
    refine (Course.respects_script true _).bind fun processed => ?_
    refine (e.respects_conclude n processed).bind fun result => ?_
    exact (Course.respects_script false _).bind fun _ => .done rfl

theorem respects_runAs (manner : Manner) :
    (e.runAs manner).Respects (fun _ => false) false := by
  cases manner with
  | sequential =>
    refine .admitted ?_ (.done rfl)
    refine (Course.respects_script true _).bind fun scanned => ?_
    cases scanned with
    | error error => exact respects_abandon error
    | ok files =>
      exact (Course.respects_script true _).bind fun processed => e.respects_conclude _ processed
  | concurrent schedule => exact e.respects_start.bind (e.respects_await schedule)

/-- A run that is started within a flight of its engine is refused, and leaves that flight alone. -/
theorem respects_runAs_within (manner : Manner) :
    (e.runAs manner).Respects (fun _ => true) true := by
  obtain ⟨next, heq, hno⟩ := e.runAs_eq_acquire manner
  rw [heq]
  exact .refused (hno ▸ .done rfl)

end Charted

end Unalias
