import KafkaConsumer.Invariant
import KafkaConsumer.Lifetime

/-! # What `Start` and `Group.Start` return

`Start` recovers a panic of `listen` into a return of its unnamed result, nil, and
`Group.Start` on a stopped group wraps its nil named result, which stays nil:

* `start_nil_cases`: `Start` returns nil only when the turn of its loop that returned
  took `<-c.ctx.Done()`, or `listen` panicked;
* `nil_on_panic_or_stopped_group`: both happen, for a panic of `OnProcess` and for a
  `Group.Start` after `Group.Stop`;
* `group_stop_before_workers_start`: `Group.Stop` can return before `Group.Start`
  launches its workers, which then run.
-/

namespace KafkaConsumer

/-! ### When `Start` returns nil -/

/-- A consumer of topic `orders` whose `OnProcess` panics; its reader accepts every call. -/
def panickingConsumer : Consumer where
  commitOffsetCount := 0
  topics := ["orders"]
  reader :=
    { subscribeTopics := fun _ _ => none, commitOffsets := fun _ l => .ok l, committed := fun _ l => .ok l,
      assign := fun _ _ => none, unassign := fun _ => none, unsubscribe := fun _ => none, close := fun _ => none }
  onCommit _ _ _ _ _ := .ok ()
  onError _ _ := .ok ()
  onProcess _ _ := .panic "boom"
  onRevoke _ _ := .ok ()
  onRebalance _ _ := .ok ()

/-- One message of `orders`, for `panickingConsumer`. -/
def ordersMessage : List Input := [.event (.message ⟨⟨some "orders", 0, 7, none⟩⟩)]

section Nil

variable {c : Consumer} {s : St}

theorem exitOnError_ne {x : Loop (Option Error)} : (exitOnError x c s).1 ≠ .ok (.returned none) := by
  intro h
  obtain ⟨a, -, h⟩ := Loop.bind_ok h
  cases a <;> simp at h

/-- Only `<-c.ctx.Done()` ends a turn of the loop with nil. -/
theorem listenStep_returned_none {i : Input} (h : (listenStep i c s).1 = .ok (.returned none)) :
    i = .done := by
  cases i with
  | done => rfl
  | tick =>
    obtain ⟨-, -, h⟩ := Loop.bind_ok h
    obtain ⟨-, -, h⟩ := Loop.bind_ok h
    simp at h
  | event ev =>
    obtain ⟨-, -, h⟩ := Loop.bind_ok h
    cases ev <;> simp only at h <;> first | exact absurd h exitOnError_ne | skip
    · obtain ⟨-, -, h⟩ := Loop.bind_ok h; simp at h
    · simp at h

/-- The loop took `<-c.ctx.Done()`: from `s` it went round the cases `pre`, back at its
select after each, and then the select took `.done`. -/
def TookDone (inputs : List Input) (c : Consumer) (s : St) : Prop :=
  ∃ pre post, inputs = pre ++ .done :: post ∧ (loop pre c s).1 = .ok .waiting

theorem loop_returned_none : ∀ {inputs : List Input} {s : St},
    (loop inputs c s).1 = .ok (.returned none) → TookDone inputs c s
  | [], _, h => by simp [loop] at h
  | i :: is, s, h => by
    obtain ⟨st, hst, h⟩ := Loop.bind_ok h
    cases st with
    | waiting =>
      obtain ⟨pre, post, rfl, hpre⟩ := loop_returned_none h
      exact ⟨i :: pre, post, rfl, by simp only [loop]; rw [Loop.bind_of_ok hst]; exact hpre⟩
    | returned err =>
      simp at h; subst h
      exact ⟨[], is, by rw [listenStep_returned_none hst]; rfl, rfl⟩

/-- **`Start` returns nil only when its subscription succeeded and its loop then took
`<-c.ctx.Done()`, or when `listen` panicked and the deferred `recover` returned the
unnamed result.** -/
theorem start_nil_cases (closed : Bool) (inputs : List Input)
    (h : (start closed inputs c s).1 = .ok (.returned none)) :
    closed = false ∧
      ((c.reader.subscribeTopics s.trace c.topics = none ∧
          TookDone inputs c ⟨Offsets.empty, s.trace ++ [.subscribeTopics c.topics none]⟩) ∨
        ∃ v, (listen inputs c s).1 = .panic v) := by
  unfold start at h
  cases closed with
  | true => simp at h
  | false =>
    refine ⟨rfl, ?_⟩
    simp only [Bool.false_eq_true, if_false] at h
    revert h
    rcases hl : listen inputs c s with ⟨_ | v, s'⟩
    · intro h
      simp only at h
      rw [listen_apply] at hl
      split at hl
      · simp at hl; simp [← hl.1] at h
      · exact .inl ⟨‹_›, loop_returned_none (deferring_ok (deferring_ok ((congrArg Prod.fst hl).trans h)))⟩
    · exact fun _ => .inr ⟨v, rfl⟩

theorem start_nil_cases_panicking :
    (start false ordersMessage panickingConsumer ⟨Offsets.empty, []⟩).1 = .ok (.returned none) ∧
      false = false ∧
      ((panickingConsumer.reader.subscribeTopics [] panickingConsumer.topics = none ∧
          TookDone ordersMessage panickingConsumer ⟨Offsets.empty, [] ++ [.subscribeTopics panickingConsumer.topics none]⟩) ∨
        ∃ v, (listen ordersMessage panickingConsumer ⟨Offsets.empty, []⟩).1 = .panic v) :=
  ⟨rfl, @start_nil_cases panickingConsumer ⟨Offsets.empty, []⟩ false ordersMessage rfl⟩

end Nil

/-- On a group of two consumers: `Group.Stop`, then `Group.Start`. -/
def groupStopStart : List Act :=
  [.call .groupStop, .run 0 .go, .run 0 .go, .call .groupStart, .run 1 .go, .run 1 .go]

def groupStopStartSys : Sys := (run (Sys.init 2) groupStopStart).getD (Sys.init 2)

/-- A message whose `OnProcess` panics makes `Start` return nil, and so does
`Group.Start` on a stopped group. -/
theorem nil_on_panic_or_stopped_group :
    (listen ordersMessage panickingConsumer ⟨Offsets.empty, []⟩).1 = .panic "boom" ∧
      (start false ordersMessage panickingConsumer ⟨Offsets.empty, []⟩).1 = .ok (.returned none) ∧
      Reach 2 groupStopStartSys ∧ groupStopStartSys.threads 0 = [.ret none] ∧
      groupStopStartSys.threads 1 = [.ret none] :=
  ⟨rfl, rfl, reach_of_run groupStopStart rfl, rfl, rfl⟩

/-! ### `Group.Stop` and the workers -/

/-- On a group of one consumer: `Group.Start` passes its check; `Group.Stop` cancels and
waits on a `g.wg` still at zero, and returns; `Group.Start` then adds to `g.wg` and
launches the worker. -/
def groupRace : List Act :=
  [.call .groupStart, .run 0 .go, .run 0 .go, .call .groupStop, .run 1 .go, .run 1 .go, .run 0 .go,
    .run 0 .go]

def groupRaceSys : Sys := (run (Sys.init 1) groupRace).getD (Sys.init 1)

def groupRaceStoppedSys : Sys := (run (Sys.init 1) (groupRace.take 6)).getD (Sys.init 1)

/-- `Group.Stop` returns while no thread but the two callers exists, so no worker has been
launched; the worker is launched afterwards. -/
theorem group_stop_before_workers_start :
    Reach 1 groupRaceStoppedSys ∧ groupRaceStoppedSys.threads 1 = [.ret none] ∧
      groupRaceStoppedSys.next = 2 ∧
      Reach 1 groupRaceSys ∧ groupRaceSys.threads 1 = [.ret none] ∧
      groupRaceSys.threads 3 = [.worker 0 0 .start] :=
  ⟨reach_of_run (groupRace.take 6) rfl, rfl, rfl, reach_of_run groupRace rfl, rfl, rfl⟩

end KafkaConsumer
