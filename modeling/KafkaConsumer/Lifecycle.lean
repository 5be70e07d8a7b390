import KafkaConsumer.Kafka

/-!
# The lifecycle of consumers and groups

`Consumer.Start`, `Consumer.Stop`, the task that `Consumer.Sleep` leaves behind,
`Group.Start`, `Group.Stop` and the tasks `Group.Start` launches, as threads over the
fields they share: each consumer's context, `c.mu`, `c.wg`, its observable and its
reader, and the group's context, `g.wg` and the channel `retval` of each `Group.Start`.

A thread is a stack of frames, one per call in progress, the newest first.  `step`
takes one atomic step of one thread, with the environment's answer where the code
meets a choice (a reader call that fails, how the event loop ends, a callback that
calls `Stop` or `Sleep`), or starts a call on a new task.  An interleaving is a list of
steps, and `Reach` holds of the states they reach.

`listen` appears through what it does that the other tasks can see: `notify(StateRun)`
before it, the subscription, the `Pause` of `Sleep` in a callback, the final flush
and the closing defer.  Its event loop is one stage, left by an `Exit`: it returns nil
only once the context is done (the select takes `<-c.ctx.Done()` only then), an error,
or a panic.  `Listen` models what happens inside the loop.
-/

namespace KafkaConsumer

/-! ### Shared fields -/

/-- Modelled from the spec: the states a consumer passes to `observable.notify`. -/
inductive LifeState
  | run
  | closed
  deriving DecidableEq, Repr, Nonempty

/-- A call on a consumer's reader that outlives the event loop; `ok` is whether it
succeeded. -/
inductive ReaderOp
  | subscribeTopics (ok : Bool)
  | unsubscribe
  | unassign
  | close
  | pause (ok : Bool)
  | resume
  | getMetadata
  deriving DecidableEq, Repr, Nonempty

/-- The fields of a `Consumer` that its tasks share, and two ghost fields: how many
times `listen` was entered, and whether a `Stop` call has returned. -/
structure Shared where
  /-- `c.ctx` is done. -/
  cancelled : Bool := false
  /-- The task that holds `c.mu`. -/
  mu : Option Nat := none
  wg : Nat := 0
  notified : List LifeState := []
  calls : List ReaderOp := []
  entered : Nat := 0
  stopped : Bool := false

/-- The fields of a `Group` that its tasks share; `retval o` is the channel of the
`Group.Start` call on task `o`. -/
structure Group where
  /-- `g.ctx` is done. -/
  cancelled : Bool := false
  wg : Nat := 0
  retval : Nat → List (Option Error) := fun _ => []

/-! ### Frames -/

/-- How the event loop of `listen` ended. -/
inductive Exit
  | returned (err : Option Error)
  | panicked
  deriving DecidableEq, Repr, Nonempty

/-- What `Start` returns after a loop that ended with `e`: the deferred `recover`
turns a panic into a return of the unnamed result, nil. -/
def Exit.result : Exit → Option Error
  | .returned err => err
  | .panicked => none

/-- Where a `Consumer.Start` call stands.  `done`, `unlock` and `notifyClosed` run its
defers, holding the result `r` it returns. -/
inductive StartPc
  | lock | add | check | notifyRun
  | subscribe | loop | flush (e : Exit)
  | unsubscribe (e : Exit) | unassign (e : Exit) | close (e : Exit)
  | done (r : Option Error) | unlock (r : Option Error) | notifyClosed (r : Option Error)
  deriving DecidableEq, Repr, Nonempty

inductive StopPc
  | cancel | lock | wait | unlock
  deriving DecidableEq, Repr, Nonempty

inductive TimerPc
  | sleep | check | resume | metadata (left : Nat)
  deriving DecidableEq, Repr, Nonempty

inductive GroupStartPc
  | wait | check | watch | launch (k : Nat) | recv
  | stopping (k : Nat) (r : Option Error) | awaitStop (k : Nat) (r : Option Error)
  deriving DecidableEq, Repr, Nonempty

inductive GroupStopPc
  | cancel | wait
  deriving DecidableEq, Repr, Nonempty

inductive WorkerPc
  | start | awaitStart | send (r : Option Error) | done
  deriving DecidableEq, Repr, Nonempty

inductive Frame
  | start (i : Nat) (pc : StartPc)
  | stop (i : Nat) (pc : StopPc)
  /-- The task of `Sleep` on consumer `i`, over `partitions`. -/
  | sleepTimer (i : Nat) (partitions : List TopicPartition) (pc : TimerPc)
  /-- The task that `Group.Start` on task `o` launched for consumer `i`. -/
  | worker (i o : Nat) (pc : WorkerPc)
  /-- The task `go func() { <-g.ctx.Done(); retval <- nil }()` of `Group.Start` on task `o`. -/
  | watcher (o : Nat)
  | groupStart (pc : GroupStartPc)
  | groupStop (pc : GroupStopPc)
  /-- A call that has returned `r`, before its caller takes the value. -/
  | ret (r : Option Error)
  deriving DecidableEq, Repr, Nonempty

/-- The caller of a call that returned `r`, once it has taken the value. -/
def Frame.resume (r : Option Error) : Frame → Frame
  | .worker i o .awaitStart => .worker i o (.send r)
  | .groupStart (.awaitStop k r') => .groupStart (.stopping (k + 1) r')
  | f => f

/-! ### The system -/

/-- The consumers, the group and the tasks.  A group has `workers` consumers, `0` to
`workers - 1`; every task id at or past `next` is unused. -/
structure Sys where
  workers : Nat
  shared : Nat → Shared
  group : Group
  threads : Nat → List Frame
  next : Nat

def Sys.init (workers : Nat) : Sys :=
  ⟨workers, fun _ => {}, {}, fun _ => [], 0⟩

def Sys.setShared (s : Sys) (i : Nat) (c : Shared) : Sys :=
  { s with shared := Function.update s.shared i c }

def Sys.modifyGroup (s : Sys) (f : Group → Group) : Sys :=
  { s with group := f s.group }

def Sys.setThread (s : Sys) (t : Nat) (stack : List Frame) : Sys :=
  { s with threads := Function.update s.threads t stack }

def Sys.spawn (s : Sys) (stack : List Frame) : Sys :=
  { s with threads := Function.update s.threads s.next stack, next := s.next + 1 }

@[simp] theorem Sys.setShared_shared (s : Sys) (i : Nat) (c : Shared) :
    (s.setShared i c).shared = Function.update s.shared i c := rfl

@[simp] theorem Sys.setShared_threads (s : Sys) (i : Nat) (c : Shared) :
    (s.setShared i c).threads = s.threads := rfl

@[simp] theorem Sys.setShared_next (s : Sys) (i : Nat) (c : Shared) :
    (s.setShared i c).next = s.next := rfl

@[simp] theorem Sys.modifyGroup_shared (s : Sys) (f : Group → Group) :
    (s.modifyGroup f).shared = s.shared := rfl

@[simp] theorem Sys.modifyGroup_threads (s : Sys) (f : Group → Group) :
    (s.modifyGroup f).threads = s.threads := rfl

@[simp] theorem Sys.modifyGroup_next (s : Sys) (f : Group → Group) :
    (s.modifyGroup f).next = s.next := rfl

@[simp] theorem Sys.setThread_shared (s : Sys) (t : Nat) (stack : List Frame) :
    (s.setThread t stack).shared = s.shared := rfl

@[simp] theorem Sys.setThread_threads (s : Sys) (t : Nat) (stack : List Frame) :
    (s.setThread t stack).threads = Function.update s.threads t stack := rfl

@[simp] theorem Sys.setThread_next (s : Sys) (t : Nat) (stack : List Frame) :
    (s.setThread t stack).next = s.next := rfl

@[simp] theorem Sys.spawn_shared (s : Sys) (stack : List Frame) :
    (s.spawn stack).shared = s.shared := rfl

@[simp] theorem Sys.spawn_threads (s : Sys) (stack : List Frame) :
    (s.spawn stack).threads = Function.update s.threads s.next stack := rfl

@[simp] theorem Sys.spawn_next (s : Sys) (stack : List Frame) :
    (s.spawn stack).next = s.next + 1 := rfl

/-! ### `NewGroup` -/

/-- The `for` of `NewGroup` from its `i`-th iteration, `left` to go.  `news i` is how the
`i`-th call of `New` ends: `none` when it returns a consumer, `some err` when it fails. -/
def newConsumers (news : Nat → Option Error) (i : Nat) (consumers : List Shared) :
    (left : Nat) → Option Error × List Shared
  | 0 => (none, consumers)
  | left + 1 =>
    match news i with
    | some err => (some (.wrap err "failed to start consumer group"), consumers)
    | none => newConsumers news (i + 1) (consumers ++ [{}]) left

/-- `workers := cfg.Workers`, and `runtime.NumCPU()` when that is not positive. -/
def groupWorkers (workers : Int) (numCPU : Nat) : Nat :=
  if workers ≤ 0 then numCPU else workers.toNat

/-- `NewGroup(cfg, logger)`, where `uuid` is how `uuid.NewUUID()` ends: the group, on which
no call has been made yet, or the error; and beside it the consumers that its calls of
`New` built. -/
def newGroup (uuid : Option Error) (workers : Int) (numCPU : Nat) (news : Nat → Option Error) :
    Except Error Sys × List Shared :=
  match uuid with
  | some err => (.error err, [])
  | none =>
    match newConsumers news 0 [] (groupWorkers workers numCPU) with
    | (some err, built) => (.error err, built)
    | (none, built) => (.ok (Sys.init built.length), built)

theorem newConsumers_of_ok (news : Nat → Option Error) :
    ∀ (left i : Nat) (consumers : List Shared), (∀ j < left, news (i + j) = none) →
      newConsumers news i consumers left = (none, consumers ++ List.replicate left ({} : Shared))
  | 0, _, _, _ => by simp [newConsumers]
  | left + 1, i, consumers, h => by
    have hi : news i = none := h 0 (Nat.succ_pos _)
    rw [newConsumers, hi, newConsumers_of_ok news left (i + 1) _ fun j hj => by
      simpa only [Nat.add_right_comm i 1 j, Nat.add_assoc] using h (j + 1) (by omega)]
    simp [List.replicate_succ]

/-- **A group that `NewGroup` returns is `Sys.init` of its consumers**, so what holds of
every interleaving from `Sys.init` holds of every group it builds. -/
theorem newGroup_ok {workers : Int} {numCPU : Nat} {news : Nat → Option Error}
    (h : ∀ j < groupWorkers workers numCPU, news j = none) :
    newGroup none workers numCPU news =
      (.ok (Sys.init (groupWorkers workers numCPU)), List.replicate (groupWorkers workers numCPU) ({} : Shared)) := by
  simp [newGroup, newConsumers_of_ok news _ 0 [] (by simpa using h)]

/-- The environment's answer at a step that has a choice. -/
inductive Env
  /-- Calls succeed; the loop keeps waiting. -/
  | go
  /-- The reader call fails with `err` (`SubscribeTopics`, `Unsubscribe`); in the final
  flush, a callback panics. -/
  | fail (err : Error)
  /-- The event loop ends. -/
  | exit (e : Exit)
  /-- A callback on the loop calls `c.Stop()`. -/
  | callStop
  /-- A callback on the loop calls `c.Sleep` on `partitions`; `paused` is whether
  `Pause` succeeds. -/
  | callSleep (partitions : List TopicPartition) (paused : Bool)
  deriving DecidableEq, Repr, Nonempty

/-- The error `Start` returns on a consumer whose context is done. -/
def alreadyClosed : Error := .new "consumer already closed"

/-- The error `Group.Start` returns on a group whose context is done:
`errors.Wrap(err, "consumers group already closed")` of its named result, still nil. -/
def groupAlreadyClosed : Option Error := Errors.wrap none "consumers group already closed"

/-- One step of a call on a consumer, which reads and writes only that consumer's fields:
the fields after it, the frames that replace the call's frame, and the frame of a task it
starts, if any. -/
structure Move where
  shared : Shared
  top : List Frame
  task : Option Frame := none

/-- `c.Sleep(delay, partitions)` in a callback of the call whose frame is `f`: nothing
for no partitions; otherwise `Pause`, and when it succeeds a new task that sleeps and
then resumes the partitions. -/
def Shared.sleep (c : Shared) (i : Nat) (f : Frame) (partitions : List TopicPartition) (paused : Bool) :
    Option Move :=
  if partitions.isEmpty then none
  else some ⟨{ c with calls := c.calls ++ [.pause paused] }, [f],
    if paused then some (.sleepTimer i partitions .sleep) else none⟩

/-- One step of `Consumer.Start` on consumer `i`, whose fields are `c`, by task `t`. -/
def startMove (c : Shared) (t i : Nat) (pc : StartPc) (env : Env) : Option Move :=
  match pc with
  | .lock => if c.mu = none then some ⟨{ c with mu := some t }, [.start i .add], none⟩ else none
  | .add => some ⟨{ c with wg := c.wg + 1 }, [.start i .check], none⟩
  | .check =>
    some ⟨c, [.start i (if c.cancelled then .done (some alreadyClosed) else .notifyRun)], none⟩
  | .notifyRun =>
    some ⟨{ c with notified := c.notified ++ [.run], entered := c.entered + 1 }, [.start i .subscribe], none⟩
  | .subscribe =>
    match env with
    | .fail err =>
      some ⟨{ c with calls := c.calls ++ [.subscribeTopics false] },
        [.start i (.done (Errors.wrap (some err) "subscribe to topics failed"))], none⟩
    | _ => some ⟨{ c with calls := c.calls ++ [.subscribeTopics true] }, [.start i .loop], none⟩
  | .loop =>
    match env with
    | .exit e =>
      if e = .returned none ∧ c.cancelled = false then none else some ⟨c, [.start i (.flush e)], none⟩
    | .callStop => some ⟨c, [.stop i .cancel, .start i .loop], none⟩
    | .callSleep ps paused => c.sleep i (.start i .loop) ps paused
    | _ => none
  | .flush e =>
    match env with
    | .go => some ⟨c, [.start i (.unsubscribe e)], none⟩
    | .fail _ => some ⟨c, [.start i (.unsubscribe .panicked)], none⟩
    | .callStop => some ⟨c, [.stop i .cancel, .start i (.flush e)], none⟩
    | .callSleep ps paused => c.sleep i (.start i (.flush e)) ps paused
    | .exit _ => none
  | .unsubscribe e =>
    some ⟨{ c with calls := c.calls ++ [.unsubscribe] },
      [.start i (match env with | .fail _ => .close e | _ => .unassign e)], none⟩
  | .unassign e => some ⟨{ c with calls := c.calls ++ [.unassign] }, [.start i (.close e)], none⟩
  | .close e => some ⟨{ c with calls := c.calls ++ [.close] }, [.start i (.done e.result)], none⟩
  | .done r => some ⟨{ c with wg := c.wg - 1 }, [.start i (.unlock r)], none⟩
  | .unlock r => some ⟨{ c with cancelled := true, mu := none }, [.start i (.notifyClosed r)], none⟩
  | .notifyClosed r => some ⟨{ c with notified := c.notified ++ [.closed] }, [.ret r], none⟩

def stopMove (c : Shared) (t i : Nat) : StopPc → Option Move
  | .cancel => some ⟨{ c with cancelled := true }, [.stop i .lock], none⟩
  | .lock => if c.mu = none then some ⟨{ c with mu := some t }, [.stop i .wait], none⟩ else none
  | .wait => if c.wg = 0 then some ⟨c, [.stop i .unlock], none⟩ else none
  | .unlock => some ⟨{ c with mu := none, stopped := true }, [.ret none], none⟩

/-- One step of the task of `Sleep` on consumer `i` over `partitions`; `GetMetadata` is
called once per partition. -/
def sleepTimerMove (c : Shared) (i : Nat) (partitions : List TopicPartition) : TimerPc → Option Move
  | .sleep => some ⟨c, [.sleepTimer i partitions .check], none⟩
  | .check => some ⟨c, [if c.cancelled then .ret none else .sleepTimer i partitions .resume], none⟩
  | .resume =>
    some ⟨{ c with calls := c.calls ++ [.resume] }, [.sleepTimer i partitions (.metadata partitions.length)], none⟩
  | .metadata 0 => some ⟨c, [.ret none], none⟩
  | .metadata (k + 1) =>
    some ⟨{ c with calls := c.calls ++ [.getMetadata] }, [.sleepTimer i partitions (.metadata k)], none⟩

/-- The system after a move `m` of a call on consumer `i` whose frame is on top of task `t`,
over the frames `rest`. -/
def Sys.apply (s : Sys) (t i : Nat) (rest : List Frame) (m : Move) : Sys :=
  let s := (s.setShared i m.shared).setThread t (m.top ++ rest)
  match m.task with
  | some f => s.spawn [f]
  | none => s

@[simp] theorem Sys.apply_shared (s : Sys) (t i : Nat) (rest : List Frame) (m : Move) :
    (s.apply t i rest m).shared = Function.update s.shared i m.shared := by
  unfold Sys.apply; cases m.task <;> rfl

/-! ### Steps of the group -/

def workerStep (s : Sys) (t i o : Nat) (rest : List Frame) : WorkerPc → Option Sys
  | .start => some (s.setThread t (.start i .lock :: .worker i o .awaitStart :: rest))
  | .awaitStart => none
  | .send r =>
    some ((s.modifyGroup fun g => { g with retval := Function.update g.retval o (g.retval o ++ [r]) }).setThread
      t (.worker i o .done :: rest))
  | .done => some ((s.modifyGroup fun g => { g with wg := g.wg - 1 }).setThread t (.ret none :: rest))

def watcherStep (s : Sys) (t o : Nat) (rest : List Frame) : Option Sys :=
  if s.group.cancelled then
    some ((s.modifyGroup fun g => { g with retval := Function.update g.retval o (g.retval o ++ [none]) }).setThread
      t (.ret none :: rest))
  else none

def groupStartStep (s : Sys) (t : Nat) (rest : List Frame) : GroupStartPc → Option Sys
  | .wait => if s.group.wg = 0 then some (s.setThread t (.groupStart .check :: rest)) else none
  | .check =>
    some (s.setThread t (if s.group.cancelled then .ret groupAlreadyClosed :: rest
      else .groupStart .watch :: rest))
  | .watch => some ((s.setThread t (.groupStart (.launch 0) :: rest)).spawn [.watcher t])
  | .launch k =>
    if k < s.workers then
      some (((s.modifyGroup fun g => { g with wg := g.wg + 1 }).setThread t
        (.groupStart (.launch (k + 1)) :: rest)).spawn [.worker k t .start])
    else some (s.setThread t (.groupStart .recv :: rest))
  | .recv =>
    match s.group.retval t with
    | r :: more =>
      some ((s.modifyGroup fun g => { g with retval := Function.update g.retval t more }).setThread t
        (.groupStart (.stopping 0 r) :: rest))
    | [] => none
  | .stopping k r =>
    if k < s.workers then some (s.setThread t (.stop k .cancel :: .groupStart (.awaitStop k r) :: rest))
    else some (s.setThread t (.ret r :: rest))
  | .awaitStop _ _ => none

def groupStopStep (s : Sys) (t : Nat) (rest : List Frame) : GroupStopPc → Option Sys
  | .cancel =>
    some ((s.modifyGroup fun g => { g with cancelled := true }).setThread t (.groupStop .wait :: rest))
  | .wait => if s.group.wg = 0 then some (s.setThread t (.ret none :: rest)) else none

/-! ### The system's steps -/

/-- One step of task `t`, the environment answering `env`; `none` when the task is
blocked or finished. -/
def threadStep (s : Sys) (t : Nat) (env : Env) : Option Sys :=
  match s.threads t with
  | [] | [.ret _] => none
  | .ret r :: f :: rest => some (s.setThread t (f.resume r :: rest))
  | .start i pc :: rest => (startMove (s.shared i) t i pc env).map (s.apply t i rest)
  | .stop i pc :: rest => (stopMove (s.shared i) t i pc).map (s.apply t i rest)
  | .sleepTimer i ps pc :: rest => (sleepTimerMove (s.shared i) i ps pc).map (s.apply t i rest)
  | .worker i o pc :: rest => workerStep s t i o rest pc
  | .watcher o :: rest => watcherStep s t o rest
  | .groupStart pc :: rest => groupStartStep s t rest pc
  | .groupStop pc :: rest => groupStopStep s t rest pc

/-- A call that a user makes on a task of its own. -/
inductive Call
  | start (i : Nat)
  | stop (i : Nat)
  | groupStart
  | groupStop
  deriving DecidableEq, Repr, Nonempty

def Call.frame : Call → Frame
  | .start i => .start i .lock
  | .stop i => .stop i .cancel
  | .groupStart => .groupStart .wait
  | .groupStop => .groupStop .cancel

/-- A step of the system: a user's call on a new task, or a step of task `t`. -/
inductive Act
  | call (c : Call)
  | run (t : Nat) (env : Env)
  deriving DecidableEq, Repr, Nonempty

def step (s : Sys) : Act → Option Sys
  | .call c => some (s.spawn [c.frame])
  | .run t env => threadStep s t env

/-- The states that the interleavings of a group of `workers` consumers reach. -/
inductive Reach (workers : Nat) : Sys → Prop
  | init : Reach workers (Sys.init workers)
  | step {s s' : Sys} (a : Act) : Reach workers s → step s a = some s' → Reach workers s'

def Follows (s s' : Sys) : Prop :=
  Relation.ReflTransGen (fun s s' => ∃ a, step s a = some s') s s'

def run : Sys → List Act → Option Sys
  | s, [] => some s
  | s, a :: acts => (step s a).bind (run · acts)

theorem reach_run {n : Nat} : ∀ {s s' : Sys} {acts : List Act}, Reach n s → run s acts = some s' →
    Reach n s'
  | _, _, [], hs, h => by cases h; exact hs
  | s, _, a :: acts, hs, h => by
    simp only [run] at h
    cases ha : step s a with
    | none => simp [ha] at h
    | some s₁ => exact reach_run (.step a hs ha) (by simpa [ha] using h)

theorem reach_of_run {n : Nat} {s : Sys} (acts : List Act) (h : run (Sys.init n) acts = some s) : Reach n s :=
  reach_run .init h

theorem Sys.apply_threads_of_ne (s : Sys) {t i u : Nat} (rest : List Frame) (m : Move) (ht : u ≠ t)
    (hn : u ≠ s.next) : (s.apply t i rest m).threads u = s.threads u := by
  unfold Sys.apply; cases m.task <;> simp [Function.update_noteq ht, Function.update_noteq hn]

theorem threadStep_frame {s s' : Sys} {t u : Nat} {env : Env} (hs : threadStep s t env = some s')
    (ht : u ≠ t) (hn : u ≠ s.next) : s'.threads u = s.threads u := by
  unfold threadStep at hs
  split at hs
  · cases hs
  · cases hs
  · cases hs; simp [Function.update_noteq ht]
  all_goals first
    | (obtain ⟨m, -, rfl⟩ := Option.map_eq_some'.mp hs; exact s.apply_threads_of_ne _ _ ht hn)
    | (simp only [workerStep, watcherStep, groupStartStep, groupStopStep] at hs
       repeat' split at hs
       all_goals simp only [Option.some.injEq, reduceCtorEq] at hs
       all_goals subst hs; simp [Function.update_noteq ht, Function.update_noteq hn])

theorem Reach.follows {n : Nat} {s s' : Sys} (hs : Reach n s) (h : Follows s s') : Reach n s' := by
  induction h with
  | refl => exact hs
  | tail _ hst ih => obtain ⟨a, ha⟩ := hst; exact .step a ih ha

end KafkaConsumer
