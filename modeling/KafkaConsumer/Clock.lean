import KafkaConsumer.Lifetime

/-!
# The clock of `Sleep`

`Sleep(delay, partitions)` pauses the partitions and starts a task that runs
`time.Sleep(delay)` and then, unless the context is done, resumes them.  `Clocked` puts a
clock over the lifecycle model, with three records beside it: the `Sleep` call that started
each timer task, the `Resume` calls, and when each consumer's context was first seen done.
A timer in its `time.Sleep` wakes only once its call's delay has passed.

* `ClockedReach.reach`: every clocked run is a run of the system;
* `resume_after_delay`: every `Resume` is of its own call's partitions, no earlier than
  the call's time plus its delay;
* `earlier_timer_resumes_later_sleep`: of two `Sleep` calls on one partition, the first
  call's timer resumes it before the second call's delay has passed.
-/

namespace KafkaConsumer

/-! ### Where the tasks of `Sleep` come from -/

/-- A frame after the move `m` of the call on top of task `t` is the task `m` starts, one
of the frames `m` puts on `t`, or a frame that was there before. -/
theorem Sys.mem_apply_threads {s : Sys} {t i u : Nat} {f : Frame} {rest : List Frame} {m : Move}
    {x : Frame} (ht : s.threads t = f :: rest) (h : x ∈ (s.apply t i rest m).threads u) :
    (u = s.next ∧ m.task = some x) ∨ (u = t ∧ x ∈ m.top) ∨ x ∈ s.threads u := by
  have hold : u = t → x ∈ m.top ++ rest → (u = t ∧ x ∈ m.top) ∨ x ∈ s.threads u := by
    rintro rfl hx
    rcases List.mem_append.mp hx with hx | hx
    · exact .inl ⟨rfl, hx⟩
    · exact .inr (ht ▸ List.mem_cons_of_mem _ hx)
  unfold Sys.apply at h
  cases hm : m.task with
  | none =>
    simp only [hm, Sys.setThread_threads, Sys.setShared_threads, Function.update_apply] at h
    split at h
    · exact .inr (hold ‹_› h)
    · exact .inr (.inr h)
  | some g =>
    simp only [hm, Sys.spawn_threads, Sys.setThread_threads, Sys.setShared_threads, Sys.setThread_next,
      Sys.setShared_next, Function.update_apply] at h
    split at h
    · exact .inl ⟨‹_›, by rw [List.mem_singleton.mp h]⟩
    · split at h
      · exact .inr (hold ‹_› h)
      · exact .inr (.inr h)

/-- The `Sleep` of a callback keeps the caller's frame, and the one task it starts is a
timer on its consumer, at its `time.Sleep`, when `Pause` succeeded. -/
theorem Shared.sleep_move {c : Shared} {j : Nat} {f : Frame} {ps : List TopicPartition} {paused : Bool}
    {m : Move} (h : c.sleep j f ps paused = some m) :
    m.top = [f] ∧ ∀ g, m.task = some g → g = .sleepTimer j ps .sleep ∧ paused = true := by
  unfold Shared.sleep at h
  split at h
  · cases h
  · cases h
    refine ⟨rfl, fun g hg => ?_⟩
    cases paused
    · cases hg
    · exact ⟨(Option.some.inj hg).symm, rfl⟩

/-- A step of `Start` puts no timer on its own task, and a timer it starts is the task of a
`Sleep` that a callback called with `Pause` succeeding. -/
theorem startMove_timer {c : Shared} {t j : Nat} {spc : StartPc} {env : Env} {m : Move}
    (h : startMove c t j spc env = some m) (i : Nat) (ps : List TopicPartition) (pc : TimerPc) :
    .sleepTimer i ps pc ∉ m.top ∧
      (m.task = some (.sleepTimer i ps pc) → i = j ∧ pc = .sleep ∧ env = .callSleep ps true) := by
  cases spc <;> simp only [startMove] at h
  all_goals (repeat' split at h)
  all_goals first
    | (obtain ⟨htop, htask⟩ := Shared.sleep_move h
       refine ⟨by simp [htop], fun ht => ?_⟩
       obtain ⟨he, rfl⟩ := htask _ ht
       cases he
       exact ⟨rfl, rfl, rfl⟩)
    | (cases h; simp)
    | cases h

theorem stopMove_timer {c : Shared} {t j : Nat} {spc : StopPc} {m : Move}
    (h : stopMove c t j spc = some m) (i : Nat) (ps : List TopicPartition) (pc : TimerPc) :
    .sleepTimer i ps pc ∉ m.top ∧ m.task = none := by
  cases spc <;> simp only [stopMove] at h <;> (try split at h) <;> cases h <;> simp

/-- A timer's step starts no task, and its next frame, if it is still a timer, is past the
`time.Sleep`. -/
theorem sleepTimerMove_timer {c : Shared} {j : Nat} {qs : List TopicPartition} {pc₀ : TimerPc} {m : Move}
    (h : sleepTimerMove c j qs pc₀ = some m) (i : Nat) (ps : List TopicPartition) (pc : TimerPc) :
    m.task = none ∧ (.sleepTimer i ps pc ∈ m.top → i = j ∧ ps = qs ∧ pc ≠ .sleep) := by
  rcases pc₀ with _ | _ | _ | _ | _ <;> simp only [sleepTimerMove] at h <;> cases h <;>
    (try split) <;> simp_all

theorem Frame.resume_timer {r : Option Error} {f : Frame} {i : Nat} {ps : List TopicPartition} {pc : TimerPc}
    (h : f.resume r = .sleepTimer i ps pc) : f = .sleepTimer i ps pc := by
  rcases f.resume_eq_or r with e | ⟨-, e⟩
  · rwa [e] at h
  · rw [h] at e; cases e

/-- **Where timer frames come from.**  After a step of task `t`, a timer frame was there
before, or it is the next frame of the timer on top of `t`, past its `time.Sleep`, or it
is the new task of a `Sleep` that a callback of `Start` on `t` called with `Pause`
succeeding. -/
theorem threadStep_timer {s s' : Sys} {t u i : Nat} {ps : List TopicPartition} {env : Env} {pc : TimerPc}
    (h : threadStep s t env = some s') (hf : .sleepTimer i ps pc ∈ s'.threads u) :
    .sleepTimer i ps pc ∈ s.threads u ∨
      (u = t ∧ pc ≠ .sleep ∧ ∃ pc₀ rest, s.threads t = .sleepTimer i ps pc₀ :: rest) ∨
      (u = s.next ∧ pc = .sleep ∧ env = .callSleep ps true ∧
        ∃ spc rest, s.threads t = .start i spc :: rest) := by
  unfold threadStep at h
  split at h
  · cases h
  · cases h
  · -- the caller takes a returned value
    rename_i r g rest ht
    cases h
    left
    rw [Sys.setThread_threads, Function.update_apply] at hf
    split at hf
    · subst u
      rw [ht]
      rcases List.mem_cons.mp hf with he | hmem
      · exact List.mem_cons_of_mem _ (Frame.resume_timer he.symm ▸ List.mem_cons_self _ _)
      · exact List.mem_cons_of_mem _ (List.mem_cons_of_mem _ hmem)
    · exact hf
  · rename_i j spc rest ht
    obtain ⟨m, hm, rfl⟩ := Option.map_eq_some'.mp h
    have hmv := startMove_timer hm i ps pc
    rcases Sys.mem_apply_threads ht hf with ⟨rfl, hg⟩ | ⟨-, hmem⟩ | hmem
    · obtain ⟨rfl, rfl, rfl⟩ := hmv.2 hg
      exact .inr (.inr ⟨rfl, rfl, rfl, _, _, ht⟩)
    · exact absurd hmem hmv.1
    · exact .inl hmem
  · rename_i j spc rest ht
    obtain ⟨m, hm, rfl⟩ := Option.map_eq_some'.mp h
    have hmv := stopMove_timer hm i ps pc
    rcases Sys.mem_apply_threads ht hf with ⟨-, hg⟩ | ⟨-, hmem⟩ | hmem
    · simp [hmv.2] at hg
    · exact absurd hmem hmv.1
    · exact .inl hmem
  · rename_i j k pc₀ rest ht
    obtain ⟨m, hm, rfl⟩ := Option.map_eq_some'.mp h
    have hmv := sleepTimerMove_timer hm i ps pc
    rcases Sys.mem_apply_threads ht hf with ⟨-, hg⟩ | ⟨rfl, hmem⟩ | hmem
    · simp [hmv.1] at hg
    · obtain ⟨rfl, rfl, hpc⟩ := hmv.2 hmem
      exact .inr (.inl ⟨rfl, hpc, _, _, ht⟩)
    · exact .inl hmem
  -- the group's steps put no timer anywhere
  all_goals
    left
    simp only [workerStep, watcherStep, groupStartStep, groupStopStep] at h
    repeat' split at h
    all_goals (try cases h)
    all_goals
      simp only [Sys.spawn_threads, Sys.setThread_threads, Sys.modifyGroup_threads, Sys.setThread_next,
        Function.update_apply] at hf
      split_ifs at hf <;> simp_all

theorem Sys.next_le_apply (s : Sys) (t i : Nat) (rest : List Frame) (m : Move) :
    s.next ≤ (s.apply t i rest m).next := by
  unfold Sys.apply; cases m.task <;> simp

theorem threadStep_next {s s' : Sys} {t : Nat} {env : Env} (h : threadStep s t env = some s') :
    s.next ≤ s'.next := by
  unfold threadStep at h
  split at h
  · cases h
  · cases h
  · cases h; exact le_refl _
  all_goals first
    | (obtain ⟨m, -, rfl⟩ := Option.map_eq_some'.mp h; exact s.next_le_apply _ _ _ m)
    | (simp only [workerStep, watcherStep, groupStartStep, groupStopStep] at h
       repeat' split at h
       all_goals (try cases h)
       all_goals simp)

/-! ### The clocked system -/

/-- The consumer whose callback runs on task `t`: the task's top frame is `Start` in its
event loop or in its final flush. -/
def Sys.callbackOf (s : Sys) (t : Nat) : Option Nat :=
  match s.threads t with
  | .start i .loop :: _ => some i
  | .start i (.flush _) :: _ => some i
  | _ => none

theorem Sys.callbackOf_start {s : Sys} {t i : Nat} (h : s.callbackOf t = some i) :
    ∃ spc rest, s.threads t = .start i spc :: rest := by
  unfold Sys.callbackOf at h
  split at h <;> cases h
  all_goals exact ⟨_, _, ‹_›⟩

/-- The `Sleep` of a callback starts its timer on the next task id exactly when `Pause`
succeeds. -/
theorem threadStep_callSleep_next {s s' : Sys} {t i : Nat} {ps : List TopicPartition} {paused : Bool}
    (hc : s.callbackOf t = some i) (h : threadStep s t (.callSleep ps paused) = some s') :
    s'.next = s.next + paused.toNat := by
  unfold Sys.callbackOf at hc
  split at hc <;> cases hc
  all_goals
    rename_i ht
    simp only [threadStep, ht, startMove] at h
    obtain ⟨m, hm, rfl⟩ := Option.map_eq_some'.mp h
    unfold Shared.sleep at hm
    split at hm <;> cases hm
    unfold Sys.apply
    cases paused <;> rfl

def Env.callsSleep : Env → Bool
  | .callSleep _ _ => true
  | .go | .fail _ | .exit _ | .callStop => false

/-- A `Sleep(delay, partitions)` call whose `Pause` succeeded: its consumer, the clock's
time at the call, the delay and the partitions. -/
structure SleepCall where
  consumer : Nat
  time : Int
  delay : Int
  partitions : List TopicPartition
  deriving DecidableEq, Repr, Nonempty

/-- A `Resume(partitions)` call of the timer on task `task`, at the clock's `time`. -/
structure ResumeCall where
  task : Nat
  consumer : Nat
  time : Int
  partitions : List TopicPartition
  deriving DecidableEq, Repr, Nonempty

/-- The system with a clock, and three records kept beside it: the `Sleep` call that
started each timer task, the `Resume` calls made so far, and the time at which each
consumer's context was first seen done. -/
structure Clocked where
  sys : Sys
  now : Int
  sleeps : Nat → Option SleepCall
  resumes : List ResumeCall
  cancelledAt : Nat → Option Int

def Clocked.init (workers : Nat) : Clocked :=
  ⟨Sys.init workers, 0, fun _ => none, [], fun _ => none⟩

inductive ClockAct
  | elapse (d : Nat)
  /-- A callback on the event loop's task `t` calls `Sleep(delay, partitions)`; `Pause`
  succeeds when `paused`. -/
  | sleep (t : Nat) (delay : Int) (partitions : List TopicPartition) (paused : Bool)
  | act (a : Act)
  deriving DecidableEq, Repr

/-- Task `t` may take its next step at the clock's time: a timer in its `time.Sleep`
wakes only once its call's delay has passed. -/
def Clocked.ready (cs : Clocked) (t : Nat) : Bool :=
  match cs.sys.threads t, cs.sleeps t with
  | .sleepTimer _ _ .sleep :: _, some call => decide (call.time + call.delay ≤ cs.now)
  | .sleepTimer _ _ .sleep :: _, none => false
  | _, _ => true

/-- The `Resume` that the next step of task `t` makes: a timer past its check resumes the
partitions of its frame. -/
def Clocked.resumeOf (cs : Clocked) (t : Nat) : List ResumeCall :=
  match cs.sys.threads t with
  | .sleepTimer i ps .resume :: _ => [⟨t, i, cs.now, ps⟩]
  | _ => []

/-- The clocked state once the system has stepped to `s'`: a context first seen done is
stamped with the clock's time. -/
def Clocked.advance (cs : Clocked) (s' : Sys) : Clocked :=
  { cs with
    sys := s'
    cancelledAt := fun i =>
      (cs.cancelledAt i).orElse fun _ => if (s'.shared i).cancelled then some cs.now else none }

/-- One step of the clocked system: time passes, a callback calls `Sleep`, whose `Pause`
and new timer are recorded with the time, or the system takes any other step, a timer in
its `time.Sleep` only once its delay has passed. -/
def clockStep (cs : Clocked) : ClockAct → Option Clocked
  | .elapse d => some { cs with now := cs.now + d }
  | .sleep t delay partitions paused =>
    match cs.sys.callbackOf t, step cs.sys (.run t (.callSleep partitions paused)) with
    | some i, some s' =>
      some { cs.advance s' with
        sleeps := if paused then Function.update cs.sleeps cs.sys.next (some ⟨i, cs.now, delay, partitions⟩)
          else cs.sleeps }
    | _, _ => none
  | .act (.call c) => (step cs.sys (.call c)).map cs.advance
  | .act (.run t env) =>
    if env.callsSleep || !cs.ready t then none
    else (step cs.sys (.run t env)).map fun s' => { cs.advance s' with resumes := cs.resumes ++ cs.resumeOf t }

inductive ClockedReach (workers : Nat) : Clocked → Prop
  | init : ClockedReach workers (Clocked.init workers)
  | step {cs cs' : Clocked} (a : ClockAct) :
      ClockedReach workers cs → clockStep cs a = some cs' → ClockedReach workers cs'

def clockRun : Clocked → List ClockAct → Option Clocked
  | cs, [] => some cs
  | cs, a :: acts => (clockStep cs a).bind (clockRun · acts)

theorem clockedReach_run {n : Nat} : ∀ {cs cs' : Clocked} {acts : List ClockAct},
    ClockedReach n cs → clockRun cs acts = some cs' → ClockedReach n cs'
  | _, _, [], hs, h => by cases h; exact hs
  | cs, _, a :: acts, hs, h => by
    simp only [clockRun] at h
    cases ha : clockStep cs a with
    | none => simp [ha] at h
    | some cs₁ => exact clockedReach_run (.step a hs ha) (by simpa [ha] using h)

theorem clockedReach_of_run {n : Nat} {cs : Clocked} (acts : List ClockAct)
    (h : clockRun (Clocked.init n) acts = some cs) : ClockedReach n cs :=
  clockedReach_run .init h

/-! ### The clocked system refines the system -/

theorem clockStep_sys {cs cs' : Clocked} {a : ClockAct} (h : clockStep cs a = some cs') :
    cs'.sys = cs.sys ∨ ∃ a', step cs.sys a' = some cs'.sys := by
  cases a with
  | elapse d => cases h; exact .inl rfl
  | sleep t delay partitions paused =>
    simp only [clockStep] at h
    split at h
    · cases h; exact .inr ⟨_, ‹_›⟩
    · cases h
  | act a =>
    cases a with
    | call c =>
      simp only [clockStep] at h
      obtain ⟨s', hs, rfl⟩ := Option.map_eq_some'.mp h
      exact .inr ⟨_, hs⟩
    | run t env =>
      simp only [clockStep] at h
      split at h
      · cases h
      · obtain ⟨s', hs, rfl⟩ := Option.map_eq_some'.mp h
        exact .inr ⟨_, hs⟩

/-- **Every clocked state is a state of the system.** -/
theorem ClockedReach.reach {n : Nat} {cs : Clocked} (h : ClockedReach n cs) : Reach n cs.sys := by
  induction h with
  | init => exact .init
  | step a _ ha ih =>
    rcases clockStep_sys ha with e | ⟨a', ha'⟩
    · exact e ▸ ih
    · exact .step a' ih ha'

/-! ### What the clock keeps -/

theorem Clocked.ready_sleep {cs : Clocked} {t i : Nat} {ps : List TopicPartition} {rest : List Frame}
    (ht : cs.sys.threads t = .sleepTimer i ps .sleep :: rest) (h : cs.ready t = true) :
    ∃ call, cs.sleeps t = some call ∧ call.time + call.delay ≤ cs.now := by
  unfold Clocked.ready at h
  rw [ht] at h
  cases hs : cs.sleeps t with
  | none => simp [hs] at h
  | some call => simp only [hs, decide_eq_true_eq] at h; exact ⟨call, rfl, h⟩

theorem Clocked.mem_resumeOf {cs : Clocked} {t : Nat} {r : ResumeCall} (h : r ∈ cs.resumeOf t) :
    ∃ i ps rest, cs.sys.threads t = .sleepTimer i ps .resume :: rest ∧ r = ⟨t, i, cs.now, ps⟩ := by
  unfold Clocked.resumeOf at h
  split at h
  · exact ⟨_, _, _, ‹_›, List.mem_singleton.mp h⟩
  · cases h

structure Timed (cs : Clocked) : Prop where
  /-- Every timer task was started by a recorded `Sleep` call of its consumer on its
  partitions, and one past its `time.Sleep` woke once that call's delay had passed. -/
  timers : ∀ u i ps pc, .sleepTimer i ps pc ∈ cs.sys.threads u → ∃ call, cs.sleeps u = some call ∧
    call.consumer = i ∧ call.partitions = ps ∧ (pc ≠ .sleep → call.time + call.delay ≤ cs.now)
  /-- Every `Resume` is of its task's `Sleep` call, on the call's partitions, made once the
  call's delay had passed. -/
  resumes : ∀ r ∈ cs.resumes, ∃ call, cs.sleeps r.task = some call ∧ call.consumer = r.consumer ∧
    r.partitions = call.partitions ∧ call.time + call.delay ≤ r.time
  /-- No unused task id has a `Sleep` call. -/
  fresh : ∀ u, cs.sys.next ≤ u → cs.sleeps u = none
  /-- A consumer whose context is done has its stamp. -/
  stamped : ∀ i, (cs.sys.shared i).cancelled = true → (cs.cancelledAt i).isSome

theorem timed_init (n : Nat) : Timed (Clocked.init n) :=
  ⟨fun _ _ _ _ h => (nomatch h), fun _ h => (nomatch h), fun _ _ => rfl, fun _ h => nomatch h⟩

theorem Clocked.advance_stamped (cs : Clocked) (s' : Sys) (i : Nat) (h : (s'.shared i).cancelled = true) :
    ((cs.advance s').cancelledAt i).isSome := by
  cases hc : cs.cancelledAt i <;> simp [Clocked.advance, hc, h]

namespace Timed

variable {cs : Clocked}

theorem elapse (h : Timed cs) (d : Nat) : Timed { cs with now := cs.now + d } := by
  refine ⟨fun u i ps pc hf => ?_, h.resumes, h.fresh, h.stamped⟩
  obtain ⟨call, hu, hi, hp, hd⟩ := h.timers u i ps pc hf
  exact ⟨call, hu, hi, hp, fun hpc => le_add_of_le_of_nonneg (hd hpc) (Int.natCast_nonneg d)⟩

theorem call (h : Timed cs) (c : Call) : Timed (cs.advance (cs.sys.spawn [c.frame])) := by
  refine ⟨fun u j ps pc hf => ?_, h.resumes, fun u hu => h.fresh u (Nat.le_of_succ_le hu),
    cs.advance_stamped _⟩
  change _ ∈ Function.update cs.sys.threads cs.sys.next [c.frame] u at hf
  rw [Function.update_apply] at hf
  split at hf
  · cases c <;> simp [Call.frame] at hf
  · exact h.timers u j ps pc hf

theorem sleep (h : Timed cs) {t i : Nat} {delay : Int} {ps : List TopicPartition} {paused : Bool}
    {s' : Sys} (hc : cs.sys.callbackOf t = some i)
    (hs : threadStep cs.sys t (.callSleep ps paused) = some s') :
    Timed { cs.advance s' with
      sleeps := if paused then Function.update cs.sleeps cs.sys.next (some ⟨i, cs.now, delay, ps⟩)
        else cs.sleeps } := by
  -- the new record is on a task id that had none
  have hkeep : ∀ u call, cs.sleeps u = some call →
      (if paused then Function.update cs.sleeps cs.sys.next (some ⟨i, cs.now, delay, ps⟩)
        else cs.sleeps) u = some call := by
    intro u call hu
    have hne : u ≠ cs.sys.next := fun e => by rw [e, h.fresh _ le_rfl] at hu; cases hu
    split <;> simp [Function.update_noteq hne, hu]
  obtain ⟨spc, rest, ht⟩ := Sys.callbackOf_start hc
  refine ⟨fun u j qs pc hf => ?_, fun r hr => ?_, fun u hu => ?_, cs.advance_stamped _⟩
  · rcases threadStep_timer hs hf with hf | ⟨rfl, -, pc₀, rest', ht'⟩ | ⟨rfl, rfl, he, spc', rest', ht'⟩
    · obtain ⟨call, hu, hrest⟩ := h.timers u j qs pc hf
      exact ⟨call, hkeep u call hu, hrest⟩
    · rw [ht] at ht'; cases ht'
    · -- the timer this `Sleep` started
      cases he
      rw [ht] at ht'; cases ht'
      exact ⟨⟨i, cs.now, delay, ps⟩, by simp, rfl, rfl, fun h => absurd rfl h⟩
  · obtain ⟨call, hu, hrest⟩ := h.resumes r hr
    exact ⟨call, hkeep _ call hu, hrest⟩
  · change s'.next ≤ u at hu
    rw [threadStep_callSleep_next hc hs] at hu
    cases paused
    · exact h.fresh u (by simpa using hu)
    · simp only [if_true]
      rw [Function.update_noteq (by simp at hu; omega)]
      exact h.fresh u (by simp at hu; omega)

theorem run (h : Timed cs) {t : Nat} {env : Env} {s' : Sys} (henv : env.callsSleep = false)
    (hr : cs.ready t = true) (hs : threadStep cs.sys t env = some s') :
    Timed { cs.advance s' with resumes := cs.resumes ++ cs.resumeOf t } := by
  refine ⟨fun u j ps pc hf => ?_, fun r hr' => ?_, fun u hu => h.fresh u ((threadStep_next hs).trans hu),
    cs.advance_stamped _⟩
  · rcases threadStep_timer hs hf with hf | ⟨rfl, -, pc₀, rest, ht⟩ | ⟨-, -, he, -⟩
    · exact h.timers u j ps pc hf
    · -- the timer that stepped: it wakes only once its delay has passed
      obtain ⟨call, hu, hj, hp, hd⟩ := h.timers u j ps pc₀ (ht ▸ List.mem_cons_self _ _)
      refine ⟨call, hu, hj, hp, fun _ => ?_⟩
      by_cases h0 : pc₀ = .sleep
      · subst h0
        obtain ⟨call', hu', hd'⟩ := Clocked.ready_sleep ht hr
        rw [hu] at hu'; cases hu'; exact hd'
      · exact hd h0
    · rw [he] at henv; cases henv
  · rcases List.mem_append.mp hr' with hr' | hr'
    · exact h.resumes r hr'
    · -- the `Resume` of this step
      obtain ⟨i, ps, rest, ht, rfl⟩ := Clocked.mem_resumeOf hr'
      obtain ⟨call, hu, hi, hp, hd⟩ := h.timers t i ps .resume (ht ▸ List.mem_cons_self _ _)
      exact ⟨call, hu, hi, hp.symm, hd (by simp)⟩

theorem step {cs' : Clocked} {a : ClockAct} (h : Timed cs) (hs : clockStep cs a = some cs') : Timed cs' := by
  cases a with
  | elapse d => cases hs; exact h.elapse d
  | sleep t delay ps paused =>
    simp only [clockStep] at hs
    split at hs
    · rename_i i s' hc hst
      cases hs
      exact h.sleep hc hst
    · cases hs
  | act a =>
    cases a with
    | call c =>
      simp only [clockStep] at hs
      obtain ⟨s', hst, rfl⟩ := Option.map_eq_some'.mp hs
      cases hst
      exact h.call c
    | run t env =>
      simp only [clockStep] at hs
      split at hs
      · cases hs
      · rename_i hg
        obtain ⟨s', hst, rfl⟩ := Option.map_eq_some'.mp hs
        simp only [Bool.or_eq_true, Bool.not_eq_true', not_or, Bool.not_eq_true, Bool.not_eq_false] at hg
        exact h.run hg.1 hg.2 hst

end Timed

theorem ClockedReach.timed {n : Nat} {cs : Clocked} (h : ClockedReach n cs) : Timed cs := by
  induction h with
  | init => exact timed_init n
  | step _ _ ha ih => exact ih.step ha

/-- **Each timer resumes the partitions of its own `Sleep` call, on its consumer, and no
earlier than the call's time plus its delay.** -/
theorem resume_after_delay {n : Nat} {cs : Clocked} (h : ClockedReach n cs) {u : Nat}
    {call : SleepCall} (hu : cs.sleeps u = some call) {r : ResumeCall} (hr : r ∈ cs.resumes)
    (hru : r.task = u) :
    r.consumer = call.consumer ∧ r.partitions = call.partitions ∧ call.time + call.delay ≤ r.time := by
  obtain ⟨call', hu', hi, hp, hd⟩ := h.timed.resumes r hr
  rw [hru, hu] at hu'
  cases hu'
  exact ⟨hi.symm, hp, hd⟩

/-! ### Two `Sleep` calls on one partition -/

/-- A callback calls `Sleep(10, [orders 0])` at time 0 and `Sleep(100, [orders 0])` at time
5; the first timer resumes the partition at time 10, and the clock runs on to 105. -/
def overlappingSleeps : List ClockAct :=
  [.act (.call (.start 0))] ++ (goSteps 0 5).map .act ++
    [.sleep 0 10 [ordersPartition] true, .elapse 5, .sleep 0 100 [ordersPartition] true, .elapse 5] ++
    (goSteps 1 3).map .act ++ [.elapse 95]

def overlappingClocked : Clocked :=
  (clockRun (Clocked.init 1) overlappingSleeps).getD (Clocked.init 1)

theorem resume_after_delay_overlapping :
    ClockedReach 1 overlappingClocked ∧ overlappingClocked.sleeps 1 = some ⟨0, 0, 10, [ordersPartition]⟩ ∧
      (⟨1, 0, 10, [ordersPartition]⟩ : ResumeCall) ∈ overlappingClocked.resumes ∧
      (0 = 0 ∧ [ordersPartition] = [ordersPartition] ∧ (0 : Int) + 10 ≤ 10) :=
  have h : ClockedReach 1 overlappingClocked := clockedReach_of_run overlappingSleeps rfl
  have hr : (⟨1, 0, 10, [ordersPartition]⟩ : ResumeCall) ∈ overlappingClocked.resumes :=
    List.mem_singleton.mpr rfl
  ⟨h, rfl, hr, resume_after_delay h
    (show overlappingClocked.sleeps 1 = some ⟨0, 0, 10, [ordersPartition]⟩ from rfl) hr rfl⟩

/-- The second call, made at time 5 with delay 100, names the partition that the first
call's timer resumes at time 10, its only `Resume`; at time 105 the consumer's context has
never been done. -/
theorem earlier_timer_resumes_later_sleep :
    ClockedReach 1 overlappingClocked ∧
      overlappingClocked.sleeps 2 = some ⟨0, 5, 100, [ordersPartition]⟩ ∧
      overlappingClocked.resumes = [⟨1, 0, 10, [ordersPartition]⟩] ∧ (10 : Int) < 5 + 100 ∧
      overlappingClocked.now = 5 + 100 ∧ overlappingClocked.cancelledAt 0 = none :=
  ⟨clockedReach_of_run overlappingSleeps rfl, rfl, rfl, by decide, rfl, rfl⟩

end KafkaConsumer
