import KafkaConsumer.Lifetime

/-! # The wait groups

Over every interleaving, each `sync.WaitGroup` counts exactly the calls it is meant to
count, so no `Done` takes a counter below zero, and a `Wait` that returns leaves nothing
behind.

* `stop_wait_never_blocks`: `c.wg` counts the `Start` call between its `c.wg.Add(1)` and
  its deferred `c.wg.Done()`, which holds `c.mu` all along, so `Stop`, which waits only
  once it holds `c.mu`, finds the count at zero;
* `group_wg_counts_workers`: `g.wg` counts the worker tasks that have not run their
  deferred `g.wg.Done()`.
-/

namespace KafkaConsumer

/-! ### `c.wg` -/

/-- `Start` is past its `c.wg.Add(1)` and has not run its deferred `c.wg.Done()`. -/
def StartPc.added : StartPc → Bool
  | .lock | .add | .unlock _ | .notifyClosed _ => false
  | _ => true

theorem StartPc.added_of_subscribed {pc : StartPc} (h : pc.subscribed = true) : pc.added = true := by
  cases pc <;> simp_all [StartPc.subscribed, StartPc.added]

theorem Moves.wg_eq {c c' : Shared} {hp hp' : Option StartPc} (h : Moves c hp c' hp')
    (hw : c.wg = (hp.any StartPc.added).toNat) : c'.wg = (hp'.any StartPc.added).toNat := by
  cases h <;> first | (simp_all [StartPc.added_of_subscribed]; done) | simp_all [StartPc.added]

/-- `c.wg` is one while the `Start` call that holds `c.mu` is between `Add` and `Done`,
and zero otherwise. -/
theorem Reach.wg_eq {n : Nat} {s : Sys} (hs : Reach n s) (i : Nat) :
    (s.shared i).wg = ((s.holderPc i).any StartPc.added).toNat := by
  induction hs with
  | init => rfl
  | step _ hr ha ih => exact ((hr.good i).1.step ha).2.wg_eq ih

/-- **`Stop` never waits at `c.wg.Wait()`**: it gets there holding `c.mu`, so no `Start`
call is between its `Add` and its `Done`, and its next step is taken whatever the
environment does. -/
theorem stop_wait_never_blocks {n : Nat} {s : Sys} {t i : Nat} {rest : List Frame} (hs : Reach n s)
    (ht : s.threads t = .stop i .wait :: rest) :
    (s.shared i).wg = 0 ∧
      ∀ env, threadStep s t env = some (s.apply t i rest ⟨s.shared i, [.stop i .unlock], none⟩) := by
  have hmu : (s.shared i).mu = some t :=
    (hs.good i).1.mu_of_holds (ht ▸ List.mem_cons_self _ _) (by simp [StopPc.locked])
  have hw : (s.shared i).wg = 0 := by
    rw [hs.wg_eq i]
    simp [Sys.holderPc, hmu, ht, heldPc, StopPc.locked, Frame.startPc]
  exact ⟨hw, fun env => by simp [threadStep, ht, stopMove, hw]⟩

/-- On one consumer: `Start` runs to its event loop; `Stop` cancels the context and
waits on `c.mu`; the loop takes `<-c.ctx.Done()`, `Start` returns, and `Stop` takes
`c.mu` and gets to its `c.wg.Wait()`. -/
def startThenStop : List Act :=
  [.call (.start 0)] ++ goSteps 0 5 ++ [.call (.stop 0), .run 1 .go, .run 0 (.exit (.returned none))] ++
    goSteps 0 7 ++ goSteps 1 1

def startThenStopSys : Sys := (run (Sys.init 1) startThenStop).getD (Sys.init 1)

theorem stop_wait_never_blocks_startThenStop :
    Reach 1 startThenStopSys ∧ startThenStopSys.threads 1 = [.stop 0 .wait] ∧
      (startThenStopSys.shared 0).wg = 0 ∧
      ∀ env, threadStep startThenStopSys 1 env =
        some (startThenStopSys.apply 1 0 [] ⟨startThenStopSys.shared 0, [.stop 0 .unlock], none⟩) :=
  have hr : Reach 1 startThenStopSys := reach_of_run startThenStop rfl
  have ht : startThenStopSys.threads 1 = [.stop 0 .wait] := rfl
  ⟨hr, ht, stop_wait_never_blocks hr ht⟩

/-! ### The group's frames -/

/-- A frame of the group: of `Group.Start`, of `Group.Stop`, or of a task that
`Group.Start` launched. -/
def Frame.ofGroup : Frame → Bool
  | .worker _ _ _ | .watcher _ | .groupStart _ | .groupStop _ => true
  | _ => false

/-- A move of a call on a consumer leaves no frame of the group. -/
def Move.Quiet (m : Move) : Prop :=
  (∀ g ∈ m.top, g.ofGroup = false) ∧ ∀ g, m.task = some g → g.ofGroup = false

theorem Move.quiet_of_all {m : Move}
    (h : (m.top.all fun g => !g.ofGroup) && (m.task.all fun g => !g.ofGroup) = true) : m.Quiet := by
  rcases m with ⟨_, _, _ | _⟩ <;> simp_all [Move.Quiet, Option.all]

section Quiet

variable {c : Shared} {t j : Nat} {m : Move}

theorem startMove_quiet {pc : StartPc} {env : Env} (h : startMove c t j pc env = some m) : m.Quiet := by
  cases pc <;> simp only [startMove, Shared.sleep] at h
  all_goals (repeat' split at h) <;> (try simp only [Option.some.injEq, reduceCtorEq] at h) <;> (try subst h)
  all_goals exact Move.quiet_of_all rfl

theorem stopMove_quiet {pc : StopPc} (h : stopMove c t j pc = some m) : m.Quiet := by
  cases pc <;> simp only [stopMove] at h <;> (try split at h) <;> cases h <;> exact Move.quiet_of_all rfl

theorem sleepTimerMove_quiet {ps : List TopicPartition} {pc : TimerPc} (h : sleepTimerMove c j ps pc = some m) : m.Quiet := by
  rcases pc with _ | _ | _ | _ | k <;> cases h <;> (try split) <;> exact Move.quiet_of_all rfl

end Quiet

/-! ### Counting over the tasks -/

/-- The sum of the weights `w u f` of the frames `f` of every task `u`. -/
def Sys.weigh (s : Sys) (w : Nat → Frame → Nat) : Nat :=
  ∑ u in Finset.range s.next, ((s.threads u).map (w u)).sum

/-- A weight that only the group's frames carry. -/
def GroupWeight (w : Nat → Frame → Nat) : Prop := ∀ u f, f.ofGroup = false → w u f = 0

section Weigh

variable (w : Nat → Frame → Nat)

@[simp] theorem Sys.weigh_setShared (s : Sys) (i : Nat) (c : Shared) : (s.setShared i c).weigh w = s.weigh w :=
  rfl

@[simp] theorem Sys.weigh_modifyGroup (s : Sys) (f : Group → Group) : (s.modifyGroup f).weigh w = s.weigh w :=
  rfl

theorem Sys.weigh_setThread (s : Sys) {t : Nat} (ht : t < s.next) (l : List Frame) :
    (s.setThread t l).weigh w + ((s.threads t).map (w t)).sum = s.weigh w + (l.map (w t)).sum := by
  have hmem : t ∈ Finset.range s.next := Finset.mem_range.mpr ht
  unfold Sys.weigh
  simp only [Sys.setThread_threads, Sys.setThread_next]
  rw [← Finset.add_sum_erase _ _ hmem, ← Finset.add_sum_erase _ _ hmem, Function.update_same,
    Finset.sum_congr rfl fun u hu => by rw [Function.update_noteq (Finset.ne_of_mem_erase hu)]]
  omega

theorem Sys.weigh_spawn (s : Sys) (l : List Frame) :
    (s.spawn l).weigh w = s.weigh w + (l.map (w s.next)).sum := by
  unfold Sys.weigh
  rw [Sys.spawn_next, Finset.sum_range_succ]
  simp only [Sys.spawn_threads, Function.update_same]
  rw [Finset.sum_congr rfl fun u hu => by rw [Function.update_noteq (Finset.mem_range.mp hu).ne]]

variable {w}

theorem Sys.le_weigh (s : Sys) {u : Nat} (hu : u < s.next) {f : Frame} (hf : f ∈ s.threads u) :
    w u f ≤ s.weigh w := by
  have h1 := s.weigh_setThread w hu []
  have h2 : w u f ≤ ((s.threads u).map (w u)).sum :=
    List.single_le_sum (fun _ _ => Nat.zero_le _) _ (List.mem_map.mpr ⟨f, hf, rfl⟩)
  simp only [List.map_nil, List.sum_nil, Nat.add_zero] at h1
  omega

theorem Sys.weigh_apply (hw : GroupWeight w) {s : Sys} {t i : Nat} {f : Frame} {rest : List Frame}
    {m : Move} (ht : s.threads t = f :: rest) (htn : t < s.next) (hf : f.ofGroup = false) (hm : m.Quiet) :
    (s.apply t i rest m).weigh w = s.weigh w := by
  have hsum : ∀ l : List Frame, (∀ g ∈ l, g.ofGroup = false) → (l.map (w t)).sum = 0 := fun l hl =>
    List.sum_eq_zero fun x hx => by
      obtain ⟨g, hg, rfl⟩ := List.mem_map.mp hx
      exact hw _ _ (hl g hg)
  have h1 := (s.setShared i m.shared).weigh_setThread w htn (m.top ++ rest)
  simp only [Sys.setShared_threads, ht, List.map_cons, List.sum_cons, hw t f hf, List.map_append,
    List.sum_append, hsum _ hm.1, Sys.weigh_setShared] at h1
  unfold Sys.apply
  cases hmt : m.task with
  | none => simp only; omega
  | some g =>
    simp only [Sys.weigh_spawn, List.map_cons, List.map_nil, List.sum_cons, List.sum_nil,
      hw _ g (hm.2 g hmt)]
    omega

end Weigh

/-! ### `g.wg` -/

def Frame.isWorker : Frame → Bool
  | .worker _ _ _ => true
  | _ => false

/-- The worker frames of the tasks: one per worker task that has not run its deferred
`g.wg.Done()`. -/
def Sys.workerCount (s : Sys) : Nat := s.weigh fun _ f => f.isWorker.toNat

theorem isWorker_groupWeight : GroupWeight fun _ f => f.isWorker.toNat := fun _ f hf => by
  cases f <;> simp_all [Frame.ofGroup, Frame.isWorker]

@[simp] theorem Sys.setThread_group (s : Sys) (t : Nat) (l : List Frame) : (s.setThread t l).group = s.group :=
  rfl

@[simp] theorem Sys.spawn_group (s : Sys) (l : List Frame) : (s.spawn l).group = s.group := rfl

@[simp] theorem Sys.modifyGroup_group (s : Sys) (f : Group → Group) : (s.modifyGroup f).group = f s.group := rfl

@[simp] theorem Sys.apply_group (s : Sys) (t i : Nat) (rest : List Frame) (m : Move) :
    (s.apply t i rest m).group = s.group := by
  unfold Sys.apply; cases m.task <;> rfl

@[simp] theorem Frame.isWorker_ret (r : Option Error) : (Frame.ret r).isWorker = false := rfl

@[simp] theorem Frame.isWorker_worker (i o : Nat) (pc : WorkerPc) : (Frame.worker i o pc).isWorker = true := rfl

@[simp] theorem Frame.isWorker_start (i : Nat) (pc : StartPc) : (Frame.start i pc).isWorker = false := rfl

@[simp] theorem Frame.isWorker_stop (i : Nat) (pc : StopPc) : (Frame.stop i pc).isWorker = false := rfl

@[simp] theorem Frame.isWorker_watcher (o : Nat) : (Frame.watcher o).isWorker = false := rfl

@[simp] theorem Frame.isWorker_groupStart (pc : GroupStartPc) : (Frame.groupStart pc).isWorker = false := rfl

@[simp] theorem Frame.isWorker_groupStop (pc : GroupStopPc) : (Frame.groupStop pc).isWorker = false := rfl

@[simp] theorem Sys.setThread_modifyGroup (s : Sys) (f : Group → Group) (t : Nat) (l : List Frame) :
    (s.modifyGroup f).setThread t l = (s.setThread t l).modifyGroup f := rfl

@[simp] theorem Sys.spawn_modifyGroup (s : Sys) (f : Group → Group) (l : List Frame) :
    (s.modifyGroup f).spawn l = (s.spawn l).modifyGroup f := rfl

theorem Frame.isWorker_resume (r : Option Error) (f : Frame) : (f.resume r).isWorker = f.isWorker := by
  unfold Frame.resume; split <;> rfl

theorem wg_step {n : Nat} {s s' : Sys} {a : Act} (hs : Reach n s) (ha : step s a = some s')
    (h : s.group.wg = s.workerCount) : s'.group.wg = s'.workerCount := by
  have hw := isWorker_groupWeight
  cases a with
  | call c =>
    cases ha
    have hc : c.frame.isWorker = false := by cases c <;> rfl
    simp only [Sys.workerCount, Sys.weigh_spawn, Sys.spawn_group, List.map_cons, List.map_nil, List.sum_cons,
      List.sum_nil, hc, Bool.toNat_false] at h ⊢
    exact h
  | run t env =>
    simp only [step, threadStep] at ha
    split at ha
    · cases ha
    · cases ha
    · rename_i r g rest ht
      cases ha
      have := s.weigh_setThread (fun _ f => f.isWorker.toNat) ((hs.good 0).1.lt_next ht) (g.resume r :: rest)
      simp only [ht, List.map_cons, List.sum_cons, Frame.isWorker_resume, Frame.isWorker_ret,
        Bool.toNat_false] at this
      unfold Sys.workerCount at h ⊢
      rw [Sys.setThread_group]
      omega
    · rename_i j pc rest ht
      obtain ⟨m, hm, rfl⟩ := Option.map_eq_some'.mp ha
      rw [Sys.workerCount, Sys.weigh_apply hw ht ((hs.good 0).1.lt_next ht) rfl (startMove_quiet hm)]
      simpa using h
    · rename_i j pc rest ht
      obtain ⟨m, hm, rfl⟩ := Option.map_eq_some'.mp ha
      rw [Sys.workerCount, Sys.weigh_apply hw ht ((hs.good 0).1.lt_next ht) rfl (stopMove_quiet hm)]
      simpa using h
    · rename_i j k pc rest ht
      obtain ⟨m, hm, rfl⟩ := Option.map_eq_some'.mp ha
      rw [Sys.workerCount, Sys.weigh_apply hw ht ((hs.good 0).1.lt_next ht) rfl (sleepTimerMove_quiet hm)]
      simpa using h
    all_goals
      rename_i rest ht
      have htn := (hs.good 0).1.lt_next ht
      have key : ∀ l, (s.setThread t l).weigh (fun _ f => f.isWorker.toNat) =
          s.weigh (fun _ f => f.isWorker.toNat) + (l.map fun f => f.isWorker.toNat).sum -
            ((s.threads t).map fun f => f.isWorker.toNat).sum := fun l => by
        have := s.weigh_setThread (fun _ f => f.isWorker.toNat) htn l; omega
      have hle := s.weigh_setThread (fun _ f => f.isWorker.toNat) htn []
      unfold Sys.workerCount at h ⊢
    · -- a worker of `Group.Start`
      cases ‹WorkerPc› <;> simp only [workerStep, Option.some.injEq, reduceCtorEq] at ha <;> subst ha <;>
        simp only [Sys.setThread_modifyGroup, Sys.weigh_modifyGroup, Sys.modifyGroup_group, Sys.setThread_group,
          key, ht, List.map_cons, List.map_nil, List.sum_cons, List.sum_nil, Frame.isWorker_worker,
          Frame.isWorker_start, Frame.isWorker_ret, Bool.toNat_true, Bool.toNat_false] at hle ⊢ <;> omega
    · -- the watcher of `Group.Start`
      simp only [watcherStep] at ha
      split at ha <;> simp only [Option.some.injEq, reduceCtorEq] at ha
      subst ha
      simp only [Sys.setThread_modifyGroup, Sys.weigh_modifyGroup, Sys.modifyGroup_group, Sys.setThread_group,
        key, ht, List.map_cons, List.sum_cons, Frame.isWorker_watcher, Frame.isWorker_ret,
        Bool.toNat_false] at hle ⊢
      omega
    · -- `Group.Start`
      cases ‹GroupStartPc› <;> simp only [groupStartStep] at ha <;> (try split at ha) <;>
        simp only [Option.some.injEq, reduceCtorEq] at ha <;> subst ha <;>
        simp only [Sys.setThread_modifyGroup, Sys.spawn_modifyGroup, Sys.weigh_modifyGroup, Sys.weigh_spawn,
          Sys.modifyGroup_group, Sys.setThread_group, Sys.spawn_group, Sys.setThread_next, key, ht,
          List.map_cons, List.map_nil, List.sum_cons, List.sum_nil, Frame.isWorker_worker, Frame.isWorker_stop,
          Frame.isWorker_groupStart, Frame.isWorker_watcher, Frame.isWorker_ret, Bool.toNat_true,
          Bool.toNat_false] at hle ⊢ <;> omega
    · -- `Group.Stop`
      cases ‹GroupStopPc› <;> simp only [groupStopStep] at ha <;> (try split at ha) <;>
        simp only [Option.some.injEq, reduceCtorEq] at ha <;> subst ha <;>
        simp only [Sys.setThread_modifyGroup, Sys.weigh_modifyGroup, Sys.modifyGroup_group, Sys.setThread_group,
          key, ht, List.map_cons, List.sum_cons, Frame.isWorker_groupStop, Frame.isWorker_ret,
          Bool.toNat_false] at hle ⊢ <;> omega

theorem Reach.wg_workers {n : Nat} {s : Sys} (hs : Reach n s) : s.group.wg = s.workerCount := by
  induction hs with
  | init => rfl
  | step _ hr ha ih => exact wg_step hr ha ih

theorem Sys.workerCount_pos {s : Sys} {u : Nat} (hu : u < s.next) {f : Frame} (hf : f ∈ s.threads u)
    (hw : f.isWorker = true) : 0 < s.workerCount :=
  Nat.lt_of_lt_of_le (by simp [hw]) (s.le_weigh (w := fun _ f => f.isWorker.toNat) hu hf)

/-- **`g.wg` counts the worker tasks.**  It is the number of worker frames, one on each
worker task until its deferred `g.wg.Done()`, and it is positive while any is left: no
`Done` takes it below zero, and a `g.wg.Wait()`, of `Group.Stop` or at the top of
`Group.Start`, returns only once no worker task is left. -/
theorem group_wg_counts_workers {n : Nat} {s : Sys} (hs : Reach n s) :
    s.group.wg = s.workerCount ∧ ∀ u, ∀ f ∈ s.threads u, f.isWorker = true → 0 < s.group.wg := by
  refine ⟨hs.wg_workers, fun u f hf hw => hs.wg_workers ▸ s.workerCount_pos ?_ hf hw⟩
  exact Nat.lt_of_not_le fun hn => by simp [(hs.good 0).1.fresh u hn] at hf

/-- On a group of two consumers: `Group.Start` launches both workers, and the first
worker's `Start` takes `c.mu`. -/
def groupLaunch : List Act :=
  [.call .groupStart] ++ goSteps 0 6 ++ goSteps 2 2

def groupLaunchSys : Sys := (run (Sys.init 2) groupLaunch).getD (Sys.init 2)

theorem group_wg_counts_workers_groupLaunch :
    Reach 2 groupLaunchSys ∧ groupLaunchSys.group.wg = 2 ∧
      groupLaunchSys.group.wg = groupLaunchSys.workerCount ∧
      ∀ u, ∀ f ∈ groupLaunchSys.threads u, f.isWorker = true → 0 < groupLaunchSys.group.wg :=
  have hr : Reach 2 groupLaunchSys := reach_of_run groupLaunch rfl
  ⟨hr, rfl, group_wg_counts_workers hr⟩

end KafkaConsumer
