import KafkaConsumer.WaitGroups
import KafkaConsumer.Clock

/-! # The `retval` channel of `Group.Start`

`Group.Start` makes `retval := make(chan error, g.consumers.Len()+1)`, launches a task per
consumer that sends the result of its `Start` on it and one more that sends nil once
`g.ctx` is done, receives one value and returns it.  A worker blocked on a full channel
never runs its deferred `g.wg.Done()`, so `Group.Stop` would wait for ever.

The model keeps `retval` unbounded.  Over every interleaving, the values on the `retval` of
a call and the sends still owed to it (`Frame.owed`) never pass `workers + 1`, so a send
always has room (`retval_sends_never_block`).
-/

namespace KafkaConsumer

/-- The senders that `Group.Start` at `pc` has still to launch: the watcher and every
worker until `watch` has run, the workers from `k` on at `launch k`. -/
def GroupStartPc.unlaunched (workers : Nat) : GroupStartPc → Nat
  | .wait | .check | .watch => workers + 1
  | .launch k => workers - k
  | _ => 0

/-- What a frame on task `u` still owes to the `retval` of the `Group.Start` call on task
`o`, for a group of `workers` consumers. -/
def Frame.owed (workers o u : Nat) : Frame → Nat
  | .watcher o' => if o' = o then 1 else 0
  | .worker _ o' pc => if o' = o ∧ pc ≠ .done then 1 else 0
  | .groupStart pc => if u = o then pc.unlaunched workers else 0
  | _ => 0

theorem Frame.owed_resume (workers o u : Nat) (r : Option Error) (f : Frame) :
    (f.resume r).owed workers o u = f.owed workers o u := by
  unfold Frame.resume; split <;> simp [Frame.owed, GroupStartPc.unlaunched]

theorem owed_groupWeight (workers o : Nat) : GroupWeight (Frame.owed workers o) := fun _ f hf => by
  cases f <;> simp_all [Frame.ofGroup, Frame.owed]

/-- What the `Group.Start` call on task `o` and the tasks it launched still owe to its
`retval`. -/
def Sys.owed (s : Sys) (o : Nat) : Nat := s.weigh (Frame.owed s.workers o)

/-- The values on the `retval` of the call on task `o`, sent or still owed. -/
def Sys.retvalDue (s : Sys) (o : Nat) : Nat := (s.group.retval o).length + s.owed o

/-- The invariant: what is sent and owed to a call's `retval` fits its capacity, and a task
id not yet used has nothing sent or owed. -/
def Sys.RetvalFits (s : Sys) : Prop := ∀ o, s.retvalDue o ≤ if o < s.next then s.workers + 1 else 0

/-! ### One step -/

section Step

variable {s : Sys} {t : Nat} (o : Nat)

theorem Sys.owed_setThread (ht : t < s.next) (l : List Frame) :
    (s.setThread t l).owed o + ((s.threads t).map (Frame.owed s.workers o t)).sum =
      s.owed o + (l.map (Frame.owed s.workers o t)).sum :=
  s.weigh_setThread _ ht l

theorem Sys.owed_spawn (l : List Frame) :
    (s.spawn l).owed o = s.owed o + (l.map (Frame.owed s.workers o s.next)).sum :=
  s.weigh_spawn _ l

@[simp] theorem Sys.owed_modifyGroup (f : Group → Group) : (s.modifyGroup f).owed o = s.owed o := rfl

@[simp] theorem Sys.setThread_workers (l : List Frame) : (s.setThread t l).workers = s.workers := rfl

@[simp] theorem Sys.spawn_workers (l : List Frame) : (s.spawn l).workers = s.workers := rfl

theorem Sys.apply_workers (t i : Nat) (rest : List Frame) (m : Move) : (s.apply t i rest m).workers = s.workers := by
  unfold Sys.apply; cases m.task <;> rfl

theorem Sys.owed_apply {i : Nat} {f : Frame} {rest : List Frame} {m : Move} (ht : s.threads t = f :: rest)
    (htn : t < s.next) (hf : f.ofGroup = false) (hm : m.Quiet) : (s.apply t i rest m).owed o = s.owed o := by
  rw [Sys.owed, Sys.apply_workers]
  exact Sys.weigh_apply (owed_groupWeight _ _) ht htn hf hm

/-- **No step of a task makes the values sent and owed to a `retval` grow**: a send moves
one value from owed to sent, a launch moves one from the call to the task it launches,
and a receive takes one away. -/
theorem Sys.retvalDue_step {s' : Sys} {env : Env} (htn : t < s.next) (ha : threadStep s t env = some s') :
    s'.retvalDue o ≤ s.retvalDue o := by
  unfold threadStep at ha
  split at ha
  · cases ha
  · cases ha
  · -- the caller takes a returned value
    rename_i r g rest ht
    cases ha
    have := s.owed_setThread o htn (g.resume r :: rest)
    simp only [ht, List.map_cons, List.sum_cons, Frame.owed_resume] at this
    simp only [Sys.retvalDue, Sys.setThread_group, Frame.owed] at this ⊢
    omega
  · rename_i i pc rest ht
    obtain ⟨m, hm, rfl⟩ := Option.map_eq_some'.mp ha
    rw [Sys.retvalDue, Sys.retvalDue, Sys.apply_group, Sys.owed_apply o ht htn rfl (startMove_quiet hm)]
  · rename_i i pc rest ht
    obtain ⟨m, hm, rfl⟩ := Option.map_eq_some'.mp ha
    rw [Sys.retvalDue, Sys.retvalDue, Sys.apply_group, Sys.owed_apply o ht htn rfl (stopMove_quiet hm)]
  · rename_i i k pc rest ht
    obtain ⟨m, hm, rfl⟩ := Option.map_eq_some'.mp ha
    rw [Sys.retvalDue, Sys.retvalDue, Sys.apply_group, Sys.owed_apply o ht htn rfl (sleepTimerMove_quiet hm)]
  all_goals
    rename_i rest ht
    have hle : ((s.threads t).map (Frame.owed s.workers o t)).sum ≤ s.owed o := by
      have := s.owed_setThread o htn []; simp only [List.map_nil, List.sum_nil] at this; omega
    have key : ∀ l, (s.setThread t l).owed o =
        s.owed o + (l.map (Frame.owed s.workers o t)).sum - ((s.threads t).map (Frame.owed s.workers o t)).sum :=
      fun l => by have := s.owed_setThread o htn l; omega
    simp only [ht, List.map_cons, List.sum_cons] at key hle
  · -- a worker of `Group.Start`
    cases ‹WorkerPc› <;> simp only [workerStep, Option.some.injEq, reduceCtorEq] at ha <;> subst ha <;>
      simp only [Sys.retvalDue, Sys.setThread_modifyGroup, Sys.owed_modifyGroup, Sys.modifyGroup_group,
        Sys.setThread_group, key, Function.update_apply, List.map_cons, List.sum_cons, Frame.owed, ne_eq,
        reduceCtorEq, not_false_eq_true, not_true_eq_false, and_true, and_false, reduceIte] at hle ⊢ <;>
      (try split_ifs at hle ⊢) <;> subst_vars <;> (try simp only [List.length_append, List.length_singleton]) <;> omega
  · -- the watcher of `Group.Start`
    simp only [watcherStep] at ha
    split at ha <;> simp only [Option.some.injEq, reduceCtorEq] at ha
    subst ha
    simp only [Sys.retvalDue, Sys.setThread_modifyGroup, Sys.owed_modifyGroup, Sys.modifyGroup_group,
      Sys.setThread_group, key, Function.update_apply, List.map_cons, List.sum_cons, Frame.owed] at hle ⊢
    (try split_ifs at hle ⊢) <;> subst_vars <;> (try simp only [List.length_append, List.length_singleton]) <;> omega
  · -- `Group.Start`
    cases ‹GroupStartPc› <;> simp only [groupStartStep] at ha <;> (try split at ha) <;>
      simp only [Option.some.injEq, reduceCtorEq] at ha <;> subst ha <;>
      simp only [Sys.retvalDue, Sys.setThread_modifyGroup, Sys.spawn_modifyGroup, Sys.owed_modifyGroup,
        Sys.modifyGroup_group, Sys.spawn_group, Sys.setThread_group, Sys.owed_spawn, Sys.setThread_workers,
        Sys.setThread_next, key, Function.update_apply, List.map_cons, List.sum_cons, List.map_nil,
        List.sum_nil, Frame.owed, GroupStartPc.unlaunched, ne_eq, reduceCtorEq, not_false_eq_true,
        and_true] at hle ⊢ <;>
      (try split_ifs at hle ⊢) <;> (try subst_vars) <;>
      (try simp only [‹s.group.retval _ = _ :: _›, List.length_cons]) <;> omega
  · -- `Group.Stop`
    cases ‹GroupStopPc› <;> simp only [groupStopStep] at ha <;> (try split at ha) <;>
      simp only [Option.some.injEq, reduceCtorEq] at ha <;> subst ha <;>
      simp only [Sys.retvalDue, Sys.setThread_modifyGroup, Sys.owed_modifyGroup, Sys.modifyGroup_group,
        Sys.setThread_group, key, List.map_cons, List.sum_cons, Frame.owed] at hle ⊢ <;> omega

theorem threadStep_workers {s' : Sys} {env : Env} (ha : threadStep s t env = some s') : s'.workers = s.workers := by
  unfold threadStep at ha
  split at ha
  · cases ha
  · cases ha
  · cases ha; rfl
  all_goals first
    | (obtain ⟨m, -, rfl⟩ := Option.map_eq_some'.mp ha; exact Sys.apply_workers _ _ _ m)
    | (simp only [workerStep, watcherStep, groupStartStep, groupStopStep] at ha
       repeat' split at ha
       all_goals (try cases ha)
       all_goals rfl)

end Step

/-! ### Every run -/

/-- Every step keeps the invariant: a call on a new task owes `workers + 1` on a `retval`
nobody has used, and a step of a task makes nothing grow. -/
theorem Sys.RetvalFits.step {n : Nat} {s s' : Sys} {a : Act} (hs : Reach n s) (h : s.RetvalFits)
    (ha : step s a = some s') : s'.RetvalFits := by
  intro o
  have ho := h o
  cases a with
  | call c =>
    cases ha
    simp only [Sys.retvalDue, Sys.spawn_group, Sys.owed_spawn, Sys.spawn_next, Sys.spawn_workers, List.map_cons,
      List.map_nil, List.sum_cons, List.sum_nil] at ho ⊢
    cases c <;> simp only [Call.frame, Frame.owed, GroupStartPc.unlaunched] <;> split_ifs at ho ⊢ <;> omega
  | run t env =>
    replace ha : threadStep s t env = some s' := ha
    have htn : t < s.next := Nat.lt_of_not_le fun hn => by
      simp [threadStep, (hs.good 0).1.fresh t hn] at ha
    have hd := Sys.retvalDue_step o htn ha
    have hn := threadStep_next ha
    rw [threadStep_workers ha]
    split_ifs at ho ⊢ <;> omega

theorem Reach.retvalFits {n : Nat} {s : Sys} (hs : Reach n s) : s.RetvalFits := by
  induction hs with
  | init => intro o; simp [Sys.retvalDue, Sys.owed, Sys.weigh, Sys.init]
  | step _ hr ha ih => exact ih.step hr ha

theorem Reach.workers_eq {n : Nat} {s : Sys} (hs : Reach n s) : s.workers = n := by
  induction hs with
  | init => rfl
  | step a _ ha ih =>
    cases a with
    | call c => cases ha; exact ih
    | run t env => exact (threadStep_workers ha).trans ih

/-- **No send on `retval` blocks.**  On the `retval` of the `Group.Start` call on task `o`,
the values sent and not received and the sends its tasks still owe never pass the
channel's capacity, `g.consumers.Len()+1`; so while any frame owes a send to it, fewer
than that many values wait on it, and the send finds room. -/
theorem retval_sends_never_block {n : Nat} {s : Sys} (hs : Reach n s) (o : Nat) :
    (s.group.retval o).length + s.owed o ≤ n + 1 ∧
      ∀ u, ∀ f ∈ s.threads u, 0 < f.owed n o u → (s.group.retval o).length < n + 1 := by
  have hfit : s.retvalDue o ≤ n + 1 := (hs.retvalFits o).trans (by rw [hs.workers_eq]; split <;> omega)
  refine ⟨hfit, fun u f hf hpos => ?_⟩
  have hu : u < s.next := Nat.lt_of_not_le fun hn => by simp [(hs.good 0).1.fresh u hn] at hf
  have hf := s.le_weigh (w := Frame.owed s.workers o) hu hf
  rw [Sys.retvalDue, Sys.owed] at hfit
  rw [hs.workers_eq] at hf hfit
  omega

/-- On a group of one consumer: the worker's `Start` fails to subscribe and returns, and the
worker is at its send on `retval`. -/
def workerSending : List Act :=
  [.call .groupStart] ++ goSteps 0 5 ++ [.run 2 .go] ++ goSteps 2 4 ++ [.run 2 (.fail (.new "broker down"))] ++
    goSteps 2 4

def workerSendingSys : Sys := (run (Sys.init 1) workerSending).getD (Sys.init 1)

theorem retval_sends_never_block_workerSending :
    Reach 1 workerSendingSys ∧
      workerSendingSys.threads 2 =
        [.worker 0 0 (.send (some (.wrap (.new "broker down") "subscribe to topics failed")))] ∧
      ((workerSendingSys.group.retval 0).length + workerSendingSys.owed 0 ≤ 1 + 1 ∧
        ∀ u, ∀ f ∈ workerSendingSys.threads u, 0 < f.owed 1 0 u → (workerSendingSys.group.retval 0).length < 1 + 1) :=
  have hr : Reach 1 workerSendingSys := reach_of_run workerSending rfl
  ⟨hr, rfl, retval_sends_never_block hr 0⟩

end KafkaConsumer
