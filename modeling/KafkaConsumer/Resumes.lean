import KafkaConsumer.WaitGroups
import KafkaConsumer.Clock

/-! # `Pause` and `Resume` of `Sleep`

`Sleep` pauses its partitions and, when that succeeds, starts a timer task that sleeps,
checks `c.ctx` and calls `c.reader.Resume` on the same partitions once.  Over every
interleaving, the `Resume` calls on a consumer, with those its timers have still to make
(`Frame.resumeOwed`), never outnumber its successful `Pause` calls
(`resumes_follow_pauses`).
-/

namespace KafkaConsumer

def TimerPc.beforeResume : TimerPc → Bool
  | .sleep | .check | .resume => true
  | .metadata _ => false

/-- The `Resume` that a frame still owes to consumer `i`: one for a timer of `i` before
its `Resume`. -/
def Frame.resumeOwed (i : Nat) : Frame → Nat
  | .sleepTimer j _ pc => if j = i then pc.beforeResume.toNat else 0
  | _ => 0

theorem Frame.resumeOwed_resume (i : Nat) (r : Option Error) (f : Frame) :
    (f.resume r).resumeOwed i = f.resumeOwed i := by
  unfold Frame.resume; split <;> rfl

def Sys.pendingResumes (s : Sys) (i : Nat) : Nat := s.weigh fun _ => Frame.resumeOwed i

theorem resumeOwed_sum_eq_zero {i : Nat} {l : List Frame} (h : ∀ n pc, .sleepTimer i n pc ∉ l) :
    (l.map (Frame.resumeOwed i)).sum = 0 :=
  List.sum_eq_zero fun x hx => by
    obtain ⟨f, hf, rfl⟩ := List.mem_map.mp hx
    cases f with
    | sleepTimer j n pc =>
      simp only [Frame.resumeOwed]
      split_ifs with hj
      · subst hj; exact absurd hf (h n pc)
      · rfl
    | _ => rfl

/-! ### The moves -/

section Moves

variable {c : Shared} {t j : Nat} {m : Move}

/-- **A `Start` move never resumes, and pauses before any timer it starts.** -/
theorem startMove_pauses {pc : StartPc} {env : Env} (h : startMove c t j pc env = some m) :
    m.shared.calls.count .resume = c.calls.count .resume ∧
      c.calls.count (.pause true) + m.task.isSome.toNat ≤ m.shared.calls.count (.pause true) := by
  cases pc <;> simp only [startMove, Shared.sleep] at h
  all_goals (repeat' split at h) <;> (try simp only [Option.some.injEq, reduceCtorEq] at h) <;> (try subst h)
  all_goals simp only [List.count_append, List.count_singleton', Option.isSome_none, Option.isSome_some,
    Bool.toNat_false, Bool.toNat_true, reduceCtorEq, ite_false, ite_true, Nat.add_zero, le_refl, and_self,
    true_and, Nat.le_add_right, ReaderOp.pause.injEq, *]

theorem startMove_owed {pc : StartPc} {env : Env} (h : startMove c t j pc env = some m) (i : Nat) :
    (m.top.map (Frame.resumeOwed i)).sum + (m.task.map (Frame.resumeOwed i)).getD 0 ≤
      if i = j then m.task.isSome.toNat else 0 := by
  have ht := startMove_timer h
  rw [resumeOwed_sum_eq_zero fun n pc => (ht i n pc).1, Nat.zero_add]
  cases hm : m.task with
  | none => simp
  | some g =>
    cases g with
    | sleepTimer i' n pc' =>
      obtain ⟨rfl, rfl, -⟩ := (ht i' n pc').2 hm
      rcases eq_or_ne i i' with rfl | hi
      · simp [Frame.resumeOwed, TimerPc.beforeResume]
      · simp [Frame.resumeOwed, hi, hi.symm]
    | _ => exact Nat.zero_le _

theorem stopMove_calls {pc : StopPc} (h : stopMove c t j pc = some m) : m.shared.calls = c.calls := by
  cases pc <;> simp only [stopMove] at h <;> (try split at h) <;> cases h <;> rfl

/-- **A timer's `Resume` is the one it owes**, and it pauses nothing. -/
theorem sleepTimerMove_resumes {ps : List TopicPartition} {pc : TimerPc} (h : sleepTimerMove c j ps pc = some m) :
    m.shared.calls.count (.pause true) = c.calls.count (.pause true) ∧
      m.shared.calls.count .resume + (m.top.map (Frame.resumeOwed j)).sum ≤
        c.calls.count .resume + (Frame.sleepTimer j ps pc).resumeOwed j := by
  rcases pc with _ | _ | _ | _ | k <;> simp only [sleepTimerMove, Option.some.injEq] at h <;> subst h <;>
    (try split) <;> simp [Frame.resumeOwed, TimerPc.beforeResume]

end Moves

/-- A move of a call on consumer `i` replaces the top frame of `t` by the move's frames,
and adds the task it starts. -/
theorem Sys.weigh_apply_eq (w : Nat → Frame → Nat) {s : Sys} {t i : Nat} {f : Frame} {rest : List Frame}
    {m : Move} (ht : s.threads t = f :: rest) (htn : t < s.next) :
    (s.apply t i rest m).weigh w + w t f =
      s.weigh w + (m.top.map (w t)).sum + (m.task.map (w s.next)).getD 0 := by
  have h1 := (s.setShared i m.shared).weigh_setThread w htn (m.top ++ rest)
  simp only [Sys.setShared_threads, ht, List.map_cons, List.sum_cons, List.map_append, List.sum_append,
    Sys.weigh_setShared] at h1
  unfold Sys.apply
  cases m.task with
  | none => simp only [Option.map_none', Option.getD_none]; omega
  | some g =>
    simp only [Sys.weigh_spawn, List.map_cons, List.map_nil, List.sum_cons, List.sum_nil, Option.map_some',
      Option.getD_some, Sys.setThread_next, Sys.setShared_next]
    omega

/-- The count for consumer `i`: `Resume` calls and the timers still to make one, against
`Pause` calls. -/
def Sys.ResumesFit (s : Sys) (i : Nat) : Prop :=
  (s.shared i).calls.count .resume + s.pendingResumes i ≤ (s.shared i).calls.count (.pause true)

/-! ### Every step -/

section Step

variable {s : Sys} {t : Nat} {i : Nat}

/-- A move of a call on consumer `j` keeps the count of consumer `i` when what it adds to
the timers owing a `Resume` to `i`, and on `j = i` the `Resume` calls it makes, are covered
by the top frame it replaces and the `Pause` calls it makes. -/
theorem Sys.ResumesFit.apply {j : Nat} {f : Frame} {rest : List Frame} {m : Move} (h : s.ResumesFit i)
    (ht : s.threads t = f :: rest) (htn : t < s.next)
    (hm : (m.top.map (Frame.resumeOwed i)).sum + (m.task.map (Frame.resumeOwed i)).getD 0 +
        (if i = j then m.shared.calls.count .resume + (s.shared i).calls.count (.pause true) else 0) ≤
      f.resumeOwed i + if i = j then (s.shared i).calls.count .resume + m.shared.calls.count (.pause true) else 0) :
    (s.apply t j rest m).ResumesFit i := by
  have hw := Sys.weigh_apply_eq (fun _ => Frame.resumeOwed i) (i := j) (m := m) ht htn
  dsimp only at hw
  unfold Sys.ResumesFit Sys.pendingResumes at h ⊢
  rw [Sys.apply_shared, Function.update_apply]
  split_ifs at hm ⊢ with hj
  · subst hj; omega
  · omega

/-- **Every step keeps the count.** -/
theorem Sys.ResumesFit.step {n : Nat} {s' : Sys} {a : Act} (hs : Reach n s) (h : s.ResumesFit i)
    (ha : step s a = some s') : s'.ResumesFit i := by
  cases a with
  | call c =>
    cases ha
    have hc : c.frame.resumeOwed i = 0 := by cases c <;> rfl
    unfold Sys.ResumesFit Sys.pendingResumes at h ⊢
    simpa [Sys.weigh_spawn, hc] using h
  | run t env =>
    replace ha : threadStep s t env = some s' := ha
    have htn : t < s.next := Nat.lt_of_not_le fun hn => by
      simp [threadStep, (hs.good 0).1.fresh t hn] at ha
    have key : ∀ l, (s.setThread t l).weigh (fun _ => Frame.resumeOwed i) =
        s.weigh (fun _ => Frame.resumeOwed i) + (l.map (Frame.resumeOwed i)).sum -
          ((s.threads t).map (Frame.resumeOwed i)).sum := fun l => by
      have := s.weigh_setThread (fun _ => Frame.resumeOwed i) htn l; omega
    have hle : ((s.threads t).map (Frame.resumeOwed i)).sum ≤ s.weigh (fun _ => Frame.resumeOwed i) := by
      have := s.weigh_setThread (fun _ => Frame.resumeOwed i) htn []
      simp only [List.map_nil, List.sum_nil] at this; omega
    unfold threadStep at ha
    split at ha
    · cases ha
    · cases ha
    · -- the caller takes a returned value
      rename_i r g rest ht
      cases ha
      unfold Sys.ResumesFit Sys.pendingResumes at h ⊢
      simp only [Sys.setThread_shared, key, ht, List.map_cons, List.sum_cons, Frame.resumeOwed_resume]
      omega
    · -- `Start`, with the `Sleep` calls of its callbacks
      rename_i j pc rest ht
      obtain ⟨m, hm, rfl⟩ := Option.map_eq_some'.mp ha
      refine h.apply ht htn ?_
      have hc := startMove_pauses hm
      have ho := startMove_owed hm i
      rw [show (Frame.start j pc).resumeOwed i = 0 from rfl]
      rcases eq_or_ne i j with rfl | hij
      · simp only [↓reduceIte] at ho ⊢; omega
      · simp only [if_neg hij] at ho ⊢; omega
    · -- `Stop`
      rename_i j pc rest ht
      obtain ⟨m, hm, rfl⟩ := Option.map_eq_some'.mp ha
      refine h.apply ht htn ?_
      rw [resumeOwed_sum_eq_zero fun n pc => (stopMove_timer hm i n pc).1, (stopMove_timer hm i [] .sleep).2,
        stopMove_calls hm]
      simp only [Option.map_none', Option.getD_none, Nat.zero_add, Frame.resumeOwed]
      rcases eq_or_ne i j with rfl | hij
      · simp only [↓reduceIte]; omega
      · simp only [if_neg hij]; omega
    · -- a timer of `Sleep`
      rename_i j k pc rest ht
      obtain ⟨m, hm, rfl⟩ := Option.map_eq_some'.mp ha
      refine h.apply ht htn ?_
      rw [(sleepTimerMove_timer hm i [] .sleep).1, Option.map_none', Option.getD_none, Nat.add_zero]
      rcases eq_or_ne i j with rfl | hij
      · have hc := sleepTimerMove_resumes hm
        simp only [↓reduceIte]
        omega
      · rw [resumeOwed_sum_eq_zero fun n pc hm' => hij ((sleepTimerMove_timer hm i n pc).2 hm').1]
        simp [hij, Frame.resumeOwed, Ne.symm hij]
    -- the group's tasks call nothing and move no timer
    all_goals
      rename_i rest ht
      unfold Sys.ResumesFit Sys.pendingResumes at h ⊢
      simp only [ht, List.map_cons, List.sum_cons] at key hle
    · cases ‹WorkerPc› <;> simp only [workerStep, Option.some.injEq, reduceCtorEq] at ha <;> subst ha <;>
        simp only [Sys.setThread_modifyGroup, Sys.weigh_modifyGroup, Sys.modifyGroup_shared, Sys.setThread_shared,
          key, List.map_cons, List.sum_cons, Frame.resumeOwed] <;> omega
    · simp only [watcherStep] at ha
      split at ha <;> simp only [Option.some.injEq, reduceCtorEq] at ha
      subst ha
      simp only [Sys.setThread_modifyGroup, Sys.weigh_modifyGroup, Sys.modifyGroup_shared, Sys.setThread_shared,
        key, List.map_cons, List.sum_cons, Frame.resumeOwed]
      omega
    · cases ‹GroupStartPc› <;> simp only [groupStartStep] at ha <;> (try split at ha) <;>
        simp only [Option.some.injEq, reduceCtorEq] at ha <;> subst ha <;>
        simp only [Sys.setThread_modifyGroup, Sys.spawn_modifyGroup, Sys.weigh_modifyGroup, Sys.modifyGroup_shared,
          Sys.weigh_spawn, Sys.spawn_shared, Sys.setThread_shared, key, List.map_cons, List.sum_cons,
          List.map_nil, List.sum_nil, Frame.resumeOwed] <;> omega
    · cases ‹GroupStopPc› <;> simp only [groupStopStep] at ha <;> (try split at ha) <;>
        simp only [Option.some.injEq, reduceCtorEq] at ha <;> subst ha <;>
        simp only [Sys.setThread_modifyGroup, Sys.weigh_modifyGroup, Sys.modifyGroup_shared, Sys.setThread_shared,
          key, List.map_cons, List.sum_cons, Frame.resumeOwed] <;> omega

end Step

/-- **Every `Resume` follows its own `Pause`.**  On every consumer, the `Resume` calls made
so far and those its timers have still to make are at most its `Pause` calls: a timer is
started only once its `Pause` has succeeded, and it resumes at most once. -/
theorem resumes_follow_pauses {n : Nat} {s : Sys} (hs : Reach n s) (i : Nat) :
    (s.shared i).calls.count .resume + s.pendingResumes i ≤ (s.shared i).calls.count (.pause true) := by
  induction hs with
  | init => simp [Sys.pendingResumes, Sys.weigh, Sys.init]
  | step _ hr ha ih => exact Sys.ResumesFit.step hr ih ha

/-- On one consumer: `Start` runs to its event loop, a callback calls `Sleep` on one
partition and `Pause` succeeds, and the timer wakes and resumes it. -/
def sleepResumed : List Act :=
  [.call (.start 0)] ++ goSteps 0 5 ++ [.run 0 (.callSleep [ordersPartition] true)] ++ goSteps 1 3

def sleepResumedSys : Sys := (run (Sys.init 1) sleepResumed).getD (Sys.init 1)

theorem resumes_follow_pauses_sleepResumed :
    Reach 1 sleepResumedSys ∧ (sleepResumedSys.shared 0).calls = [.subscribeTopics true, .pause true, .resume] ∧
      (sleepResumedSys.shared 0).calls.count .resume + sleepResumedSys.pendingResumes 0 ≤
        (sleepResumedSys.shared 0).calls.count (.pause true) :=
  have hr : Reach 1 sleepResumedSys := reach_of_run sleepResumed rfl
  ⟨hr, rfl, resumes_follow_pauses hr 0⟩

end KafkaConsumer
