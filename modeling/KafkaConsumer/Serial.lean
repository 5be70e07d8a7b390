import KafkaConsumer.Exclusion

/-!
# What a step does to one consumer

`Moves i` tells what one step of the system can do to consumer `i`, seen through its
fields and the pc of the `Start` call that holds `c.mu`: a step of that call, a `Start`
call taking the free `c.mu`, a `Start` call past its `Unlock` notifying `StateClosed`, a
step of a `Stop` call (past its cancel only with the context done and no `Start` call
holding `c.mu`), or a step of the task of `Sleep` (only after a `Pause`).

**`Frames.step`**: every step of the system keeps `Frames` and is one of these for every
consumer.
-/

namespace KafkaConsumer

def ReaderOp.plain : ReaderOp → Bool
  | .subscribeTopics _ | .close => false
  | _ => true

/-- The subscription succeeded and `Close` is still to come. -/
def StartPc.subscribed : StartPc → Bool
  | .loop | .flush _ | .unsubscribe _ | .unassign _ | .close _ => true
  | _ => false

/-- What one step of the system can do to a consumer, whose fields go from `c` to `c'`
while the pc of the `Start` call holding `c.mu` goes from `hp` to `hp'` (module doc). -/
inductive Moves : Shared → Option StartPc → Shared → Option StartPc → Prop
  | stay {c hp} : Moves c hp c hp
  /-- A `Start` call takes the free `c.mu`. -/
  | lock {c t} : c.mu = none → Moves c none { c with mu := some t } (some .add)
  | add {c} : Moves c (some .add) { c with wg := c.wg + 1 } (some .check)
  /-- The check finds the context done. -/
  | reject {c} : c.cancelled = true → Moves c (some .check) c (some (.done (some alreadyClosed)))
  | proceed {c} : c.cancelled = false → Moves c (some .check) c (some .notifyRun)
  | notifyRun {c} : Moves c (some .notifyRun)
      { c with notified := c.notified ++ [.run], entered := c.entered + 1 } (some .subscribe)
  | subscribe {c} : Moves c (some .subscribe)
      { c with calls := c.calls ++ [.subscribeTopics true] } (some .loop)
  | subscribeFailed {c r} : Moves c (some .subscribe)
      { c with calls := c.calls ++ [.subscribeTopics false] } (some (.done r))
  /-- A step of `listen` past the subscription that calls no reader operation. -/
  | listen {c pc pc'} : pc.subscribed = true → pc'.subscribed = true → Moves c (some pc) c (some pc')
  /-- A step of `listen` past the subscription that calls `op`. -/
  | call {c pc pc' op} : pc.subscribed = true → pc'.subscribed = true → op.plain = true →
      Moves c (some pc) { c with calls := c.calls ++ [op] } (some pc')
  | close {c e r} : Moves c (some (.close e)) { c with calls := c.calls ++ [.close] } (some (.done r))
  | done {c r} : Moves c (some (.done r)) { c with wg := c.wg - 1 } (some (.unlock r))
  /-- The defer of `Start` cancels the context and releases `c.mu`. -/
  | unlock {c r} : Moves c (some (.unlock r)) { c with cancelled := true, mu := none } none
  /-- A `Start` call past its `Unlock` notifies `StateClosed`. -/
  | closed {c hp} : Moves c hp { c with notified := c.notified ++ [.closed] } hp
  | stopCancel {c hp} : Moves c hp { c with cancelled := true } hp
  /-- A `Stop` call, past its cancel, takes the free `c.mu`. -/
  | stopLock {c t} : c.cancelled = true → c.mu = none → Moves c none { c with mu := some t } none
  /-- A `Stop` call, past its cancel and holding `c.mu`, releases it and returns. -/
  | stopUnlock {c} : c.cancelled = true → Moves c none { c with mu := none, stopped := true } none
  /-- The task of `Sleep`, which comes after a `Pause` that succeeded, calls `op`. -/
  | timer {c hp op} : .pause true ∈ c.calls → op.plain = true → Moves c hp { c with calls := c.calls ++ [op] } hp

@[simp] theorem heldPc_start {i : Nat} {pc : StartPc} (l : List Frame) (h : pc.locked = true) :
    heldPc i (.start i pc :: l) = some pc := by
  simp [heldPc, Frame.holds, h, Frame.startPc]

@[simp] theorem heldPc_cons_stop {i : Nat} (l : List Frame) :
    heldPc i (.stop i .cancel :: l) = heldPc i l := by
  simp [heldPc, Frame.holds, StopPc.locked]

@[simp] theorem heldPc_notifyClosed {i : Nat} {r : Option Error} :
    heldPc i [.start i (.notifyClosed r)] = none := by
  simp [heldPc, Frame.holds, StartPc.locked]

/-! ### Each move is one of `Moves` -/

section Moves

variable {c : Shared} {t i : Nat} {m : Move}

theorem moves_held {pc : StartPc} {env : Env} (hl : pc.locked = true) (hm : startMove c t i pc env = some m) :
    Moves c (some pc) m.shared (heldPc i m.top) := by
  cases pc <;> simp only [StartPc.locked, reduceCtorEq] at hl <;> simp only [startMove, Shared.sleep] at hm
  all_goals (repeat' split at hm) <;> (try simp only [Option.some.injEq, reduceCtorEq] at hm) <;> (try subst hm)
  all_goals simp only [heldPc_start, heldPc_cons_stop, StartPc.locked, heldPc_notifyClosed]
  all_goals first
    | exact .stay | exact .add | exact .notifyRun | exact .subscribe | exact .subscribeFailed
    | exact .reject ‹_› | exact .proceed (Bool.eq_false_iff.mpr ‹_›) | exact .listen rfl rfl
    | exact .call rfl rfl rfl | exact .close | exact .done | exact .unlock

theorem moves_lock {env : Env} (hm : startMove c t i .lock env = some m) : Moves c none m.shared (some .add) := by
  simp only [startMove] at hm
  split at hm
  · cases hm; exact .lock ‹_›
  · cases hm

theorem moves_closed {hp : Option StartPc} {r : Option Error} {env : Env}
    (hm : startMove c t i (.notifyClosed r) env = some m) : Moves c hp m.shared hp := by
  simp only [startMove, Option.some.injEq] at hm; subst hm; exact .closed

theorem moves_stop {hp : Option StartPc} {pc : StopPc} (hm : stopMove c t i pc = some m)
    (hg : pc ≠ .cancel → c.cancelled = true ∧ hp = none) : Moves c hp m.shared hp := by
  cases pc <;> simp only [stopMove] at hm <;> (try split at hm) <;>
    simp only [Option.some.injEq, reduceCtorEq] at hm <;> subst hm
  · exact .stopCancel
  · obtain ⟨hc, rfl⟩ := hg (by simp); exact .stopLock hc ‹_›
  · exact .stay
  · obtain ⟨hc, rfl⟩ := hg (by simp); exact .stopUnlock hc

theorem moves_timer {hp : Option StartPc} {ps : List TopicPartition} {pc : TimerPc}
    (hm : sleepTimerMove c i ps pc = some m) (hpause : .pause true ∈ c.calls) : Moves c hp m.shared hp := by
  rcases pc with _ | _ | _ | _ | k <;> simp only [sleepTimerMove, Option.some.injEq] at hm <;> subst hm <;>
    (try split) <;> first | exact .stay | exact .timer hpause rfl

end Moves

namespace Frames

variable {i t : Nat} {s : Sys} {rest : List Frame} {m : Move}

theorem rest_free (h : Frames i s) {f : Frame} (ht : s.threads t = f :: rest)
    (hf : (s.shared i).mu = none ∨ f.holds i = true) : holdCount i rest = 0 := by
  have := h.mutex t
  rw [ht, holdCount_cons] at this
  rcases hf with hf | hf
  · simp [hf] at this; omega
  · simp only [hf, Bool.toNat_true] at this; split at this <;> omega

theorem start_step {pc : StartPc} {env : Env} (h : Frames i s) (ht : s.threads t = .start i pc :: rest)
    (hm : startMove (s.shared i) t i pc env = some m) :
    Frames i (s.apply t i rest m) ∧
      Moves (s.shared i) (s.holderPc i) m.shared ((s.apply t i rest m).holderPc i) := by
  have hok := startMove_ok hm
  refine ⟨h.move ht hok, ?_⟩
  cases hl : pc.locked
  · cases pc <;> simp only [StartPc.locked, reduceCtorEq] at hl
    · -- `Lock`: `c.mu` is free
      have hfree : (s.shared i).mu = none := by simp only [startMove] at hm; split at hm <;> simp_all
      have htop : m.top = [.start i .add] := by
        simp only [startMove, hfree, if_true, Option.some.injEq] at hm; subst hm; rfl
      rw [h.holderPc_apply_top ht hok (h.rest_free ht (.inl hfree)) (.inl hfree), htop]
      have hadd : heldPc i [.start i .add] = some .add := by
        simp [heldPc, Frame.holds, StartPc.locked, Frame.startPc]
      simp only [Sys.holderPc, hfree, Option.none_bind, hadd]
      exact moves_lock hm
    · -- `notify(StateClosed)`
      rw [h.holderPc_apply_quiet ht hok (by simp [Frame.holds, StartPc.locked])
        (by simp [startMove] at hm; subst hm; rfl) (by simp [startMove] at hm; subst hm; rfl)]
      exact moves_closed hm
  · have hh : (Frame.start i pc).holds i = true := by simp [Frame.holds, hl]
    have hmem : Frame.start i pc ∈ s.threads t := ht ▸ List.mem_cons_self _ _
    rw [h.holderPc_apply_top ht hok (h.rest_free ht (.inr hh)) (.inr (h.mu_of_holds hmem hh)),
      h.holderPc_of_mem hmem hl]
    exact moves_held hl hm

theorem stop_step {pc : StopPc} (h : Frames i s) (ht : s.threads t = .stop i pc :: rest)
    (hm : stopMove (s.shared i) t i pc = some m) :
    Frames i (s.apply t i rest m) ∧
      Moves (s.shared i) (s.holderPc i) m.shared ((s.apply t i rest m).holderPc i) := by
  have hok := stopMove_ok hm
  refine ⟨h.move ht hok, ?_⟩
  have hmem : Frame.stop i pc ∈ s.threads t := ht ▸ List.mem_cons_self _ _
  by_cases hpc : pc = .cancel
  · subst hpc
    have he : m = ⟨{ s.shared i with cancelled := true }, [.stop i .lock], none⟩ := by
      simpa [stopMove] using hm.symm
    rw [h.holderPc_apply_quiet ht hok (by simp [Frame.holds, StopPc.locked])
      (by simp [he, Frame.holds, StopPc.locked]) (by simp [he])]
    exact moves_stop hm fun h => absurd rfl h
  · -- Past its cancel, `Stop` takes the free `c.mu` or holds it.
    have hmu : (s.shared i).mu = none ∨ (Frame.stop i pc).holds i = true := by
      cases pc
      · contradiction
      · left; simp only [stopMove] at hm; split at hm <;> simp_all
      all_goals exact .inr (by simp [Frame.holds, StopPc.locked])
    have hrest := h.rest_free ht hmu
    have hp : s.holderPc i = none := by
      rcases hmu with e | e
      · simp [Sys.holderPc, e]
      · simp [Sys.holderPc, h.mu_of_holds hmem e, ht, heldPc, e, Frame.startPc]
    have htop : heldPc i m.top = none := by
      cases pc <;> simp only [stopMove] at hm <;> (try split at hm) <;> simp only [Option.some.injEq,
        reduceCtorEq] at hm <;> subst hm <;> simp [heldPc, Frame.holds, StopPc.locked, Frame.startPc]
    rw [h.holderPc_apply_top ht hok hrest (hmu.imp_right (h.mu_of_holds hmem)), htop, hp]
    exact moves_stop hm fun _ => ⟨h.ok t _ hmem rfl hpc, rfl⟩

theorem timer_step {ps : List TopicPartition} {pc : TimerPc} (h : Frames i s)
    (ht : s.threads t = .sleepTimer i ps pc :: rest) (hm : sleepTimerMove (s.shared i) i ps pc = some m) :
    Frames i (s.apply t i rest m) ∧
      Moves (s.shared i) (s.holderPc i) m.shared ((s.apply t i rest m).holderPc i) := by
  have hok := sleepTimerMove_ok (t := t) hm
  have hq : holdCount i m.top = 0 ∧ m.shared.mu = (s.shared i).mu := by
    rcases pc with _ | _ | _ | _ | k <;> simp only [sleepTimerMove, Option.some.injEq] at hm <;> subst hm <;>
      (try split) <;> simp [Frame.holds]
  rw [h.holderPc_apply_quiet ht hok (by simp [Frame.holds]) hq.1 hq.2]
  exact ⟨h.move ht hok, moves_timer hm (h.ok t (.sleepTimer i ps pc) (ht ▸ List.mem_cons_self _ _) rfl)⟩

theorem quiet_step (h : Frames i s) {s' : Sys} {f : Frame} (new : List Frame) (ht : s.threads t = f :: rest)
    (hth : s'.threads = Function.update s.threads t (new ++ rest)) (hsh : s'.shared = s.shared)
    (hn : s'.next = s.next) (hf : f.idle = true) (hnew : new.all Frame.idle = true) :
    Frames i s' ∧ Moves (s.shared i) (s.holderPc i) (s'.shared i) (s'.holderPc i) := by
  obtain ⟨h', hh⟩ := h.quiet new ht hth hsh hn (Frame.holds_of_idle hf) fun g hg =>
    have hg := List.all_eq_true.mp hnew g hg
    ⟨Frame.holds_of_idle hg, Frame.frameOk_of_idle hg⟩
  rw [hsh, hh]; exact ⟨h', .stay⟩

theorem quiet_spawn_step (h : Frames i s) {s₁ : Sys} {f : Frame} (new : List Frame)
    (ht : s.threads t = f :: rest) (hth : s₁.threads = Function.update s.threads t (new ++ rest))
    (hsh : s₁.shared = s.shared) (hn : s₁.next = s.next) (hf : f.idle = true)
    (hnew : new.all Frame.idle = true) {g : Frame} (hg : g.idle = true) :
    Frames i (s₁.spawn [g]) ∧ Moves (s.shared i) (s.holderPc i) ((s₁.spawn [g]).shared i)
      ((s₁.spawn [g]).holderPc i) := by
  obtain ⟨h₁, hh₁⟩ := h.quiet new ht hth hsh hn (Frame.holds_of_idle hf) fun g hg =>
    have hg := List.all_eq_true.mp hnew g hg
    ⟨Frame.holds_of_idle hg, Frame.frameOk_of_idle hg⟩
  obtain ⟨h₂, hh₂⟩ := h₁.spawn (Frame.holds_of_idle hg) (Frame.frameOk_of_idle hg)
  rw [Sys.spawn_shared, hsh, hh₂, hh₁]; exact ⟨h₂, .stay⟩

/-- A move of a call on consumer `j` moves consumer `i` as `Moves` says: by the step lemma
of the call when `j = i`, and not at all otherwise. -/
theorem consumer_step {j : Nat} {f : Frame} (h : Frames i s) (ht : s.threads t = f :: rest)
    (hf : f.consumer = some j) (hm : m.Of j)
    (hself : j = i → Frames i (s.apply t j rest m) ∧
      Moves (s.shared i) (s.holderPc i) m.shared ((s.apply t j rest m).holderPc i)) :
    Frames i (s.apply t j rest m) ∧
      Moves (s.shared i) (s.holderPc i) ((s.apply t j rest m).shared i) ((s.apply t j rest m).holderPc i) := by
  by_cases hj : j = i
  · subst hj; rw [Sys.apply_shared, Function.update_same]; exact hself rfl
  · obtain ⟨h', hh⟩ := h.apply_other ht hj hf hm
    rw [hh, Sys.apply_shared, Function.update_noteq (Ne.symm hj)]; exact ⟨h', .stay⟩

/-- **Every step of the system keeps `Frames` and moves consumer `i` as `Moves` says.** -/
theorem step {s' : Sys} {a : Act} (h : Frames i s) (hs : step s a = some s') :
    Frames i s' ∧ Moves (s.shared i) (s.holderPc i) (s'.shared i) (s'.holderPc i) := by
  cases a with
  | call c =>
    cases hs
    have hc : c.frame.idle = true := by cases c <;> rfl
    obtain ⟨h', hh⟩ := h.spawn (Frame.holds_of_idle hc) (Frame.frameOk_of_idle hc)
    rw [hh]; exact ⟨h', .stay⟩
  | run t env =>
    simp only [KafkaConsumer.step, threadStep] at hs
    split at hs
    · cases hs
    · cases hs
    · -- the caller takes a returned value
      rename_i r g rest ht
      cases hs
      obtain ⟨h', hh⟩ := h.replace [g] [g.resume r] ht (Sys.setThread_threads s t _) rfl rfl
        (by rcases g.resume_eq_or r with e | ⟨e₁, e₂⟩
            · simp [e, Frame.holds]
            · simp only [List.filter_cons, List.filter_nil, Frame.holds_eq_false (f := g) (by simp [e₁]),
                Frame.holds_eq_false (f := g.resume r) (by simp [e₂])]; rfl)
        fun x hx => by
          rw [List.mem_singleton] at hx; subst hx
          rcases g.resume_eq_or r with e | ⟨-, e₂⟩
          · exact .inl (by simp [e])
          · exact .inr (frameOk_of_consumer (by simp [e₂]))
      rw [List.singleton_append] at h' hh
      rw [hh]; exact ⟨h', .stay⟩
    · rename_i j pc rest ht
      obtain ⟨m, hm, rfl⟩ := Option.map_eq_some'.mp hs
      exact h.consumer_step ht rfl (startMove_of hm) fun hj => by subst hj; exact h.start_step ht hm
    · rename_i j pc rest ht
      obtain ⟨m, hm, rfl⟩ := Option.map_eq_some'.mp hs
      exact h.consumer_step ht rfl (stopMove_of hm) fun hj => by subst hj; exact h.stop_step ht hm
    · rename_i j n pc rest ht
      obtain ⟨m, hm, rfl⟩ := Option.map_eq_some'.mp hs
      exact h.consumer_step ht rfl (sleepTimerMove_of hm) fun hj => by subst hj; exact h.timer_step ht hm
    · -- a worker of `Group.Start`
      rename_i k o pc rest ht
      cases pc <;> simp only [workerStep, Option.some.injEq, reduceCtorEq] at hs <;> subst hs
      · exact h.quiet_step [.start k .lock, .worker k o .awaitStart] ht rfl rfl rfl rfl rfl
      · exact h.quiet_step [.worker k o .done] ht rfl rfl rfl rfl rfl
      · exact h.quiet_step [.ret none] ht rfl rfl rfl rfl rfl
    · -- the watcher of `Group.Start`
      rename_i o rest ht
      simp only [watcherStep] at hs; split at hs <;> simp only [Option.some.injEq, reduceCtorEq] at hs
      subst hs
      exact h.quiet_step [.ret none] ht rfl rfl rfl rfl rfl
    · -- `Group.Start`
      rename_i pc rest ht
      cases pc <;> simp only [groupStartStep] at hs <;> (try split at hs) <;>
        simp only [Option.some.injEq, reduceCtorEq] at hs <;> subst hs
      · exact h.quiet_step [.groupStart .check] ht rfl rfl rfl rfl rfl
      · exact h.quiet_step [.ret _] ht rfl rfl rfl rfl rfl
      · exact h.quiet_step [.groupStart .watch] ht rfl rfl rfl rfl rfl
      · exact h.quiet_spawn_step [.groupStart (.launch 0)] ht (Sys.setThread_threads _ _ _) rfl rfl rfl rfl rfl
      · exact h.quiet_spawn_step [.groupStart (.launch (_ + 1))] ht
          (Sys.setThread_threads (s.modifyGroup _) _ _) rfl rfl rfl rfl rfl
      · exact h.quiet_step [.groupStart .recv] ht rfl rfl rfl rfl rfl
      · exact h.quiet_step [.groupStart (.stopping 0 _)] ht rfl rfl rfl rfl rfl
      · exact h.quiet_step [.stop _ .cancel, .groupStart (.awaitStop _ _)] ht rfl rfl rfl rfl rfl
      · exact h.quiet_step [.ret _] ht rfl rfl rfl rfl rfl
    · -- `Group.Stop`
      rename_i pc rest ht
      cases pc <;> simp only [groupStopStep] at hs <;> (try split at hs) <;>
        simp only [Option.some.injEq, reduceCtorEq] at hs <;> subst hs
      · exact h.quiet_step [.groupStop .wait] ht rfl rfl rfl rfl rfl
      · exact h.quiet_step [.ret none] ht rfl rfl rfl rfl rfl

end Frames

/-! ### What `Moves` keeps -/

/-- `listen` has been entered: from `SubscribeTopics` to the `Unlock` of `Start`'s defer. -/
def StartPc.entered : StartPc → Bool
  | .lock | .add | .check | .notifyRun | .notifyClosed _ => false
  | _ => true

/-- `listen` is running: from `SubscribeTopics` to `Close`. -/
def StartPc.listening : StartPc → Bool
  | .subscribe | .loop | .flush _ | .unsubscribe _ | .unassign _ | .close _ => true
  | _ => false

/-- A `Start` call that has not entered `listen` and, past its check, returns
"consumer already closed". -/
def StartPc.rejected : StartPc → Bool
  | .add | .check => true
  | .done r | .unlock r => r == some alreadyClosed
  | _ => false

section Subscribed

variable {pc : StartPc} (h : pc.subscribed = true)
include h

@[simp] theorem StartPc.listening_of_subscribed : pc.listening = true := by
  cases pc <;> simp_all [StartPc.subscribed, StartPc.listening]

@[simp] theorem StartPc.entered_of_subscribed : pc.entered = true := by
  cases pc <;> simp_all [StartPc.subscribed, StartPc.entered]

@[simp] theorem StartPc.rejected_of_subscribed : pc.rejected = false := by
  cases pc <;> simp_all [StartPc.subscribed, StartPc.rejected]

@[simp] theorem StartPc.ne_subscribe_of_subscribed : (pc = .subscribe) = False := by
  cases pc <;> simp_all [StartPc.subscribed]

@[simp] theorem StartPc.ne_notifyRun_of_subscribed : (pc = .notifyRun) = False := by
  cases pc <;> simp_all [StartPc.subscribed]

end Subscribed

def ReaderOp.subscribes : ReaderOp → Bool
  | .subscribeTopics _ => true
  | _ => false

/-- What holds of the fields `c` of a consumer and the pc `hp` of the `Start` call that holds
its `c.mu`, over every interleaving. -/
structure History (c : Shared) (hp : Option StartPc) : Prop where
  entered_le : c.entered ≤ 1
  /-- `listen` was entered and the context is not done: the call is still in `Start`. -/
  running : c.entered = 1 → c.cancelled = false → hp.any StartPc.entered = true
  notifyRun_first : hp = some .notifyRun → c.entered = 0
  listening : hp.any StartPc.listening = true → c.entered = 1
  untouched : c.entered = 0 → c.calls = []
  subscribe_count : c.calls.countP ReaderOp.subscribes + (if hp = some .subscribe then 1 else 0) = c.entered
  close_count :
    c.calls.count .close + (hp.any StartPc.subscribed).toNat = c.calls.count (.subscribeTopics true)
  /-- After a `Stop` call has returned, every `Start` call is rejected. -/
  after_stop : c.stopped = true → c.cancelled = true ∧ hp.all StartPc.rejected = true

theorem history_init : History {} none := by
  constructor <;> simp

theorem ReaderOp.plain_counts {op : ReaderOp} (h : op.plain = true) (l : List ReaderOp) :
    (l ++ [op]).countP ReaderOp.subscribes = l.countP ReaderOp.subscribes ∧
      (l ++ [op]).count .close = l.count .close ∧
      (l ++ [op]).count (.subscribeTopics true) = l.count (.subscribeTopics true) := by
  cases op <;> simp_all [ReaderOp.plain, ReaderOp.subscribes]

/-- **`Moves` keeps `History`.** -/
theorem History.moves {c c' : Shared} {hp hp' : Option StartPc} (h : History c hp)
    (hm : Moves c hp c' hp') : History c' hp' := by
  obtain ⟨h1, h2, h3, h4, h5, h7, h8, h9⟩ := h
  cases hm with
  | stay => exact ⟨h1, h2, h3, h4, h5, h7, h8, h9⟩
  | lock _ => exact ⟨h1, fun e hc => by simpa using h2 e hc, by simp, by simp [StartPc.listening], h5,
      by simpa using h7, by simpa using h8, fun hs => ⟨(h9 hs).1, rfl⟩⟩
  | add => exact ⟨h1, fun e hc => by simpa using h2 e hc, by simp, by simp [StartPc.listening], h5,
      by simpa using h7, by simpa using h8, fun hs => ⟨(h9 hs).1, rfl⟩⟩
  | reject hc => exact ⟨h1, fun _ e => by simp [hc] at e, by simp, by simp [StartPc.listening], h5,
      by simpa using h7, by simpa [StartPc.subscribed] using h8, fun hs => ⟨hc, by simp [StartPc.rejected]⟩⟩
  | proceed hc =>
    have h0 : c.entered = 0 := by
      have := mt (h2 · hc); simp [StartPc.entered] at this; omega
    exact ⟨h1, fun e => by omega, fun _ => h0, by simp [StartPc.listening], h5, by simpa using h7,
      by simpa [StartPc.subscribed] using h8, fun hs => by simp [(h9 hs).1] at hc⟩
  | notifyRun =>
    have h0 := h3 rfl
    refine ⟨by simp [h0], fun _ _ => rfl, by simp, fun _ => by simp [h0], fun e => by simp at e,
      by simpa [h0] using h7, by simpa [StartPc.subscribed] using h8, fun hs => ?_⟩
    simp [StartPc.rejected] at h9; simp [h9] at hs
  | subscribe =>
    have h0 := h4 rfl
    refine ⟨h1, fun _ _ => rfl, by simp, fun _ => h0, fun e => absurd h0 (by simp at e; omega), ?_, ?_, fun hs => ?_⟩
    · simp [ReaderOp.subscribes] at h7 ⊢; omega
    · simp [StartPc.subscribed] at h8 ⊢; omega
    · simp [StartPc.rejected] at h9; simp [h9] at hs
  | subscribeFailed =>
    have h0 := h4 rfl
    refine ⟨h1, fun _ _ => rfl, by simp, by simp [StartPc.listening], fun e => absurd h0 (by simp at e; omega), ?_, ?_, fun hs => ?_⟩
    · simp [ReaderOp.subscribes] at h7 ⊢; omega
    · simpa [StartPc.subscribed] using h8
    · simp [StartPc.rejected] at h9; simp [h9] at hs
  | listen hpc hpc' =>
    refine ⟨h1, fun _ _ => by simp [hpc'], by simp [hpc'], fun _ => h4 (by simp [hpc]), h5,
      by simpa [hpc, hpc'] using h7, by simpa [hpc, hpc'] using h8, fun hs => ?_⟩
    simp [hpc] at h9; simp [h9] at hs
  | call hpc hpc' hop =>
    have h0 := h4 (by simp [hpc])
    obtain ⟨e1, e2, e3⟩ := ReaderOp.plain_counts hop c.calls
    refine ⟨h1, fun _ _ => by simp [hpc'], by simp [hpc'], fun _ => h0, fun e => absurd h0 (by simp at e; omega), ?_, ?_, fun hs => ?_⟩
    · simp only [e1]; simpa [hpc, hpc'] using h7
    · simp only [e2, e3]; simpa [hpc, hpc'] using h8
    · simp [hpc] at h9; simp [h9] at hs
  | close =>
    have h0 := h4 rfl
    refine ⟨h1, fun _ _ => rfl, by simp, by simp [StartPc.listening], fun e => absurd h0 (by simp at e; omega), ?_, ?_, fun hs => ?_⟩
    · simpa [ReaderOp.subscribes] using h7
    · simp [StartPc.subscribed] at h8 ⊢; omega
    · simp [StartPc.rejected] at h9; simp [h9] at hs
  | done =>
    exact ⟨h1, fun _ _ => rfl, by simp, by simp [StartPc.listening], h5, by simpa using h7,
      by simpa [StartPc.subscribed] using h8,
      fun hs => ⟨(h9 hs).1, by simpa [StartPc.rejected] using (h9 hs).2⟩⟩
  | unlock =>
    exact ⟨h1, fun _ e => by simp at e, by simp, by simp, h5, by simpa using h7,
      by simpa [StartPc.subscribed] using h8, fun _ => ⟨rfl, rfl⟩⟩
  | closed => exact ⟨h1, h2, h3, h4, h5, h7, h8, h9⟩
  | stopCancel => exact ⟨h1, fun _ e => by simp at e, h3, h4, h5, h7, h8, fun hs => ⟨rfl, (h9 hs).2⟩⟩
  | stopLock _ _ => exact ⟨h1, h2, h3, h4, h5, h7, h8, h9⟩
  | stopUnlock hc => exact ⟨h1, h2, h3, h4, h5, h7, h8, fun _ => ⟨hc, rfl⟩⟩
  | timer hpause hop =>
    obtain ⟨e1, e2, e3⟩ := ReaderOp.plain_counts hop c.calls
    exact ⟨h1, h2, h3, h4, fun e => absurd (h5 e) (List.ne_nil_of_mem hpause), by simp only [e1]; exact h7,
      by simp only [e2, e3]; exact h8, h9⟩

/-! ### Every reachable state -/

/-- What holds of consumer `i` in every reachable state: `Frames`, and `History` of its
fields and the `Start` call that holds its `c.mu`. -/
def Good (i : Nat) (s : Sys) : Prop := Frames i s ∧ History (s.shared i) (s.holderPc i)

theorem good_init (n i : Nat) : Good i (Sys.init n) := ⟨frames_init n i, history_init⟩

theorem Good.step {i : Nat} {s s' : Sys} {a : Act} (h : Good i s) (hs : step s a = some s') : Good i s' :=
  have hf := h.1.step hs
  ⟨hf.1, h.2.moves hf.2⟩

theorem Reach.good {n : Nat} {s : Sys} (hs : Reach n s) (i : Nat) : Good i s := by
  induction hs with
  | init => exact good_init n i
  | step _ _ ha ih => exact ih.step ha

end KafkaConsumer
