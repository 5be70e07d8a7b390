import KafkaConsumer.WaitGroups
import KafkaConsumer.Clock

/-! # The shutdown of a group

`Group.Start` defers a loop that calls `Stop` on each consumer of the group in turn.  Over
every interleaving, when the frame of `Group.Start` is at `stopping k r`, a `Stop` call has
returned on each consumer below `k` (`group_start_stops_consumers`), so when `Group.Start`
returns, every consumer of the group is closed for good.  `GroupTask` gives the stacks
that a task of `Group.Start` goes through; every other task has no frame of `Group.Start`.
-/

namespace KafkaConsumer

/-- The consumers below `k` are stopped: on each, a `Stop` call has returned. -/
def Sys.StoppedBelow (s : Sys) (k : Nat) : Prop := ∀ j < k, (s.shared j).stopped = true

def Frame.isGroupStart : Frame → Bool
  | .groupStart _ => true
  | _ => false

/-- The stacks of the task of a `Group.Start` call, with what its deferred loop has done:
its own frame, then the `Stop` on consumer `k` it awaits, then that call's return. -/
inductive GroupTask (s : Sys) : List Frame → Prop
  | running {pc : GroupStartPc} : (∀ k r, pc ≠ .awaitStop k r) →
      (∀ k r, pc = .stopping k r → s.StoppedBelow k) → GroupTask s [.groupStart pc]
  | awaiting {k : Nat} {r : Option Error} {pc : StopPc} : s.StoppedBelow k →
      GroupTask s [.stop k pc, .groupStart (.awaitStop k r)]
  | returned {k : Nat} {r r' : Option Error} : s.StoppedBelow (k + 1) →
      GroupTask s [.ret r', .groupStart (.awaitStop k r)]

/-- Every task is a task of `Group.Start`, or has no frame of `Group.Start`. -/
def Shutdown (s : Sys) : Prop :=
  ∀ u, GroupTask s (s.threads u) ∨ ∀ f ∈ s.threads u, f.isGroupStart = false

theorem GroupTask.mono {s s' : Sys} {l : List Frame} (h : GroupTask s l)
    (hm : ∀ j, (s.shared j).stopped = true → (s'.shared j).stopped = true) : GroupTask s' l := by
  cases h with
  | running hpc hk => exact .running hpc fun k r e j hj => hm j (hk k r e j hj)
  | awaiting hk => exact .awaiting fun j hj => hm j (hk j hj)
  | returned hk => exact .returned fun j hj => hm j (hk j hj)

theorem Frame.isGroupStart_resume (r : Option Error) (f : Frame) :
    (f.resume r).isGroupStart = f.isGroupStart := by
  unfold Frame.resume; split <;> rfl

/-! ### One step -/

section Step

variable {s : Sys} {t i : Nat} {f : Frame} {rest : List Frame} {m : Move}

theorem Shutdown.keep {s' : Sys} (h : Shutdown s)
    (hm : ∀ j, (s.shared j).stopped = true → (s'.shared j).stopped = true) {u : Nat}
    (hu : s'.threads u = s.threads u) :
    GroupTask s' (s'.threads u) ∨ ∀ f ∈ s'.threads u, f.isGroupStart = false := by
  rw [hu]; exact (h u).imp (·.mono hm) id

theorem Sys.mem_setThread {u : Nat} {l : List Frame} {x : Frame} (h : x ∈ (s.setThread t l).threads u) :
    u = t ∧ x ∈ l ∨ x ∈ s.threads u := by
  rw [Sys.setThread_threads, Function.update_apply] at h
  split at h
  · exact .inl ⟨‹_›, h⟩
  · exact .inr h

theorem Sys.mem_spawn {u : Nat} {l : List Frame} {x : Frame} (h : x ∈ (s.spawn l).threads u) :
    x ∈ l ∨ x ∈ s.threads u := by
  rw [Sys.spawn_threads, Function.update_apply] at h
  split at h
  · exact .inl h
  · exact .inr h

/-- **Where frames of `Group.Start` come from.**  After a step of task `t`, a frame of
`Group.Start` was there before, or is on `t`, whose top two frames had one. -/
theorem threadStep_groupStart {s' : Sys} {u : Nat} {env : Env} {gpc : GroupStartPc}
    (ha : threadStep s t env = some s') (hx : .groupStart gpc ∈ s'.threads u) :
    .groupStart gpc ∈ s.threads u ∨ u = t ∧ ∃ g ∈ (s.threads t).take 2, g.isGroupStart = true := by
  have hquiet : ∀ {f rest i} {m : Move}, s.threads t = f :: rest → m.Quiet →
      .groupStart gpc ∈ (s.apply t i rest m).threads u → .groupStart gpc ∈ s.threads u := fun ht hq hx => by
    rcases Sys.mem_apply_threads ht hx with ⟨-, hx⟩ | ⟨-, hx⟩ | hx
    · exact absurd (hq.2 _ hx) (by simp [Frame.ofGroup])
    · exact absurd (hq.1 _ hx) (by simp [Frame.ofGroup])
    · exact hx
  -- a task of the group other than `Group.Start` only rewrites the frames above `rest`
  have hown : ∀ {f rest} {l : List Frame}, s.threads t = f :: rest → u = t → .groupStart gpc ∈ l ++ rest →
      .groupStart gpc ∉ l → .groupStart gpc ∈ s.threads u := fun ht hu hx hl => by
    rw [hu, ht]; exact List.mem_cons_of_mem _ ((List.mem_append.mp hx).resolve_left hl)
  unfold threadStep at ha
  split at ha
  · cases ha
  · cases ha
  · -- the caller takes a returned value
    rename_i r g rest ht
    cases ha
    rcases Sys.mem_setThread hx with ⟨hu, hx⟩ | hx
    · rcases List.mem_cons.mp hx with hx | hx
      · exact .inr ⟨hu, g, by simp [ht], by rw [← Frame.isGroupStart_resume r, ← hx]; rfl⟩
      · exact .inl (by rw [hu, ht]; simp [hx])
    · exact .inl hx
  · obtain ⟨m, hm, rfl⟩ := Option.map_eq_some'.mp ha
    exact .inl (hquiet ‹_› (startMove_quiet hm) hx)
  · obtain ⟨m, hm, rfl⟩ := Option.map_eq_some'.mp ha
    exact .inl (hquiet ‹_› (stopMove_quiet hm) hx)
  · obtain ⟨m, hm, rfl⟩ := Option.map_eq_some'.mp ha
    exact .inl (hquiet ‹_› (sleepTimerMove_quiet hm) hx)
  · -- a worker of `Group.Start`
    rename_i i o pc rest ht
    refine .inl ?_
    cases pc <;> simp only [workerStep, Option.some.injEq, reduceCtorEq] at ha <;> subst ha <;>
      rcases Sys.mem_setThread hx with ⟨hu, hx⟩ | hx
    all_goals first
      | exact hx
      | exact hown (l := [_]) ht hu hx (by simp)
      | exact hown (l := [_, _]) ht hu hx (by simp)
  · -- the watcher of `Group.Start`
    rename_i o rest ht
    simp only [watcherStep] at ha
    split at ha <;> simp only [Option.some.injEq, reduceCtorEq] at ha
    subst ha
    rcases Sys.mem_setThread hx with ⟨hu, hx⟩ | hx
    · exact .inl (hown (l := [_]) ht hu hx (by simp))
    · exact .inl hx
  · -- `Group.Start` itself, on top of `t`
    rename_i pc rest ht
    by_cases hu : u = t
    · exact .inr ⟨hu, .groupStart pc, by simp [ht], rfl⟩
    refine .inl ?_
    cases pc <;> simp only [groupStartStep] at ha <;> (try split at ha) <;>
      simp only [Option.some.injEq, reduceCtorEq] at ha <;> subst ha
    all_goals first
      | exact ((Sys.mem_setThread hx).resolve_left fun h => hu h.1)
      | (rcases Sys.mem_spawn hx with hx | hx
         · simp at hx
         · exact (Sys.mem_setThread hx).resolve_left fun h => hu h.1)
  · -- `Group.Stop`
    rename_i pc rest ht
    refine .inl ?_
    cases pc <;> simp only [groupStopStep] at ha <;> (try split at ha) <;>
      simp only [Option.some.injEq, reduceCtorEq] at ha <;> subst ha <;>
      rcases Sys.mem_setThread hx with ⟨hu, hx⟩ | hx
    all_goals first
      | exact hx
      | exact hown (l := [_]) ht hu hx (by simp)

end Step

theorem GroupTask.step {n : Nat} {s s' : Sys} {t : Nat} {env : Env} {l : List Frame} (hs : Reach n s)
    (hl : GroupTask s l) (ht : s.threads t = l) (ha : threadStep s t env = some s')
    (hm : ∀ j, (s.shared j).stopped = true → (s'.shared j).stopped = true) :
    GroupTask s' (s'.threads t) ∨ ∀ f ∈ s'.threads t, f.isGroupStart = false := by
  have htn : t ≠ s.next := by
    obtain ⟨f, l', hfl⟩ : ∃ f l', s.threads t = f :: l' := by rw [ht]; cases hl <;> exact ⟨_, _, rfl⟩
    exact Nat.ne_of_lt ((hs.good 0).1.lt_next hfl)
  cases hl with
  | running hpc hk =>
    simp only [threadStep, ht] at ha
    cases ‹GroupStartPc› <;> simp only [groupStartStep] at ha <;> (try split at ha) <;>
      simp only [Option.some.injEq, reduceCtorEq] at ha <;> subst ha <;>
      simp only [Sys.setThread_modifyGroup, Sys.spawn_modifyGroup, Sys.modifyGroup_threads, Sys.setThread_threads,
        Sys.spawn_threads, Sys.setThread_next, Function.update_same, Function.update_noteq htn]
    all_goals first
      | exact .inl (.running (by simp) (by simp [Sys.StoppedBelow]))
      | exact .inl (.awaiting fun j hj => hm j (hk _ _ rfl j hj))
      | exact .inr (by simp [Frame.isGroupStart])
  | awaiting hk =>
    simp only [threadStep, ht] at ha
    obtain ⟨m, hmv, rfl⟩ := Option.map_eq_some'.mp ha
    cases ‹StopPc› <;> simp only [stopMove] at hmv <;> (try split at hmv) <;>
      simp only [Option.some.injEq, reduceCtorEq] at hmv <;> subst hmv <;>
      simp only [Sys.apply, Sys.setThread_threads, Function.update_same, List.singleton_append]
    all_goals first
      | exact .inl (.awaiting fun j hj => hm j (hk j hj))
      | refine .inl (.returned fun j hj => ?_)
        rcases Nat.lt_succ_iff_lt_or_eq.mp hj with hj | rfl
        · exact hm j (hk j hj)
        · simp
  | returned hk =>
    simp only [threadStep, ht, Option.some.injEq] at ha
    subst ha
    simp only [Sys.setThread_threads, Function.update_same, Frame.resume]
    exact .inl (.running (by simp) fun k r e => by
      simp only [GroupStartPc.stopping.injEq] at e
      obtain ⟨rfl, rfl⟩ := e
      exact fun j hj => hm j (hk j hj))

/-- **Every step keeps `Shutdown`.** -/
theorem Shutdown.step {n : Nat} {s s' : Sys} {a : Act} (hs : Reach n s) (h : Shutdown s)
    (ha : step s a = some s') : Shutdown s' := by
  have hm : ∀ j, (s.shared j).stopped = true → (s'.shared j).stopped = true :=
    fun j => ((hs.good j).1.step ha).2.stopped_mono
  have hfresh : s.threads s.next = [] := (hs.good 0).1.fresh _ le_rfl
  intro u
  cases a with
  | call c =>
    cases ha
    by_cases hu : u = s.next
    · subst hu
      rw [Sys.spawn_threads, Function.update_same]
      cases c with
      | groupStart => exact .inl (.running (fun _ _ => by simp) fun _ _ e => by simp at e)
      | _ => exact .inr (by simp [Call.frame, Frame.isGroupStart])
    · exact h.keep hm (by rw [Sys.spawn_threads, Function.update_noteq hu])
  | run t env =>
    simp only [KafkaConsumer.step] at ha
    have hnone : ∀ {u}, (u = t → ∀ g ∈ (s.threads t).take 2, g.isGroupStart = false) →
        (∀ f ∈ s.threads u, f.isGroupStart = false) → ∀ f ∈ s'.threads u, f.isGroupStart = false := by
      intro u ht hu f hf
      cases f with
      | groupStart gpc =>
        rcases threadStep_groupStart ha hf with hf | ⟨hut, g, hg, hgs⟩
        · exact hu _ hf
        · rw [ht hut g hg] at hgs; cases hgs
      | _ => rfl
    by_cases hut : u = t
    · rw [hut]
      rcases h t with hg | hg
      · exact hg.step hs rfl ha hm
      · exact .inr (hnone (fun _ g hg' => hg g (List.mem_of_mem_take hg')) hg)
    · by_cases hn : u = s.next
      · exact .inr (hnone (fun e => absurd e hut) (by rw [hn, hfresh]; simp))
      · exact h.keep hm (threadStep_frame ha hut hn)

theorem Reach.shutdown {n : Nat} {s : Sys} (hs : Reach n s) : Shutdown s := by
  induction hs with
  | init => exact fun _ => .inr (by simp [Sys.init])
  | step _ hr ha ih => exact ih.step hr ha

/-! ### What `Group.Start` leaves behind -/

/-- **`Group.Start` stops every consumer it has passed.**  When its frame is at
`stopping k r`, a `Stop` call has returned on each consumer below `k`: each has a done
context, and every `Start` call on it that holds `c.mu` is one that returns "consumer
already closed" and never enters `listen`.  At `k = workers` its next step returns `r`. -/
theorem group_start_stops_consumers {n : Nat} {s : Sys} {u k : Nat} {r : Option Error}
    {rest : List Frame} (hs : Reach n s) (hu : s.threads u = .groupStart (.stopping k r) :: rest) :
    ∀ j < k, (s.shared j).stopped = true ∧ (s.shared j).cancelled = true ∧
      ∀ t pc, .start j pc ∈ s.threads t → pc.locked = true → pc.rejected = true := by
  have hk : s.StoppedBelow k := by
    rcases hs.shutdown u with hg | hg
    · rw [hu] at hg
      cases hg with
      | running _ hk => exact hk k r rfl
    · exact absurd (hg _ (hu ▸ List.mem_cons_self _ _)) (by simp [Frame.isGroupStart])
  intro j hj
  have hgood := hs.good j
  exact ⟨hk j hj, (hgood.2.after_stop (hk j hj)).1, fun t pc hpc hl => hgood.rejected (hk j hj) hpc hl⟩

/-- On a group of one consumer: `Group.Start` launches its worker, whose `Start` fails to
subscribe; `Group.Start` receives the error, and its deferred loop stops the consumer. -/
def groupShutdown : List Act :=
  [.call .groupStart] ++ goSteps 0 5 ++ [.run 2 .go] ++ goSteps 2 4 ++ [.run 2 (.fail (.new "broker down"))] ++
    goSteps 2 5 ++ goSteps 0 7

def groupShutdownSys : Sys := (run (Sys.init 1) groupShutdown).getD (Sys.init 1)

theorem group_start_stops_consumers_groupShutdown :
    Reach 1 groupShutdownSys ∧
      groupShutdownSys.threads 0 =
        [.groupStart (.stopping 1 (some (.wrap (.new "broker down") "subscribe to topics failed")))] ∧
      ∀ j < 1, (groupShutdownSys.shared j).stopped = true ∧ (groupShutdownSys.shared j).cancelled = true ∧
        ∀ t pc, .start j pc ∈ groupShutdownSys.threads t → pc.locked = true → pc.rejected = true :=
  have hr : Reach 1 groupShutdownSys := reach_of_run groupShutdown rfl
  have ht : groupShutdownSys.threads 0 =
      [.groupStart (.stopping 1 (some (.wrap (.new "broker down") "subscribe to topics failed")))] := rfl
  ⟨hr, ht, group_start_stops_consumers hr ht⟩

end KafkaConsumer
