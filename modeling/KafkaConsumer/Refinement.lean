import KafkaConsumer.Returns

/-! # The event loop as the stages of `Start`

In `Listen`, `start` runs alone on its task and returns with the trace of what it did.  In
`Lifecycle`, `Start` is interleaved with every other task, and of `listen` only the
subscription, how the loop ended, the last flush and the closing defer are kept.

`start_refines` joins the two in two stages: from its `SubscribeTopics`, the lifecycle's
`Start` steps past the subscription; from any state in which the task is back at its event
loop, it steps to where `start` ends, with its result and the calls of the closing defer.
The one premise is asked of the state in which the task leaves its event loop: if the loop
took `<-c.ctx.Done()`, the context is done there.  Both stages are steps of `Start`'s own
task, so from a reachable state they reach only reachable states.
-/

namespace KafkaConsumer

open Loop Keeps

/-! ### Entries of the loop -/

/-- `trace` is `T` followed by entries that the loop may make. -/
def Since (T trace : List Obs) : Prop := ∃ mid, trace = T ++ mid ∧ ∀ o ∈ mid, o.InLoop

theorem Since.refl (T : List Obs) : Since T T := ⟨[], by simp, by simp⟩

theorem Since.snoc {T trace : List Obs} (h : Since T trace) {o : Obs} (ho : o.InLoop) :
    Since T (trace ++ [o]) := by
  obtain ⟨mid, rfl, hmid⟩ := h
  refine ⟨mid ++ [o], by simp, ?_⟩
  simp only [List.mem_append, List.mem_singleton]
  rintro x (hx | rfl)
  exacts [hmid x hx, ho]

section Loop

variable {c : Consumer} (T : List Obs)

theorem since_loopStable : LoopStable fun s => Since T s.trace := fun _ _ _ hl h => h.snoc hl

theorem keeps_commitOffsets_since : Keeps c (fun s => Since T s.trace) commitOffsets :=
  keeps_commitOffsets_of_entries (fun _ _ _ h => h.snoc trivial) (fun _ _ _ h => h.snoc trivial)
    fun _ _ _ _ _ h => h.snoc trivial

/-- **The loop never subscribes, unsubscribes or closes.** -/
theorem keeps_loop_since (inputs : List Input) : Keeps c (fun s => Since T s.trace) (loop inputs) :=
  have hfc : Keeps c (fun s => Since T s.trace) (commitOffsets >>= fun _ => modifyOffsets (·.clear)) :=
    bind (keeps_commitOffsets_since T) fun _ => modifyOffsets' fun _ h => h
  keeps_loop (keeps_listenStep (since_loopStable T) (fun _ _ h => h.snoc trivial)
    (keeps_commitOffsets_since T) hfc
    (keeps_handleRebalance (since_loopStable T) (fun _ _ _ h => h.snoc trivial) hfc)
    fun _ => keeps_handleMessage_of (since_loopStable T) (fun _ _ _ h => h.snoc trivial)
      (fun _ _ h => h.snoc trivial) (keeps_commitOffsets_since T)) inputs

end Loop

/-! ### The closing defer -/

/-- The entries of `closeReader`: `Unsubscribe`, `Unassign` only when `Unsubscribe`
succeeded, and `Close`. -/
inductive Closing : List Obs → Prop
  | unassigned (e₂ e₃ : Option Error) : Closing [.unsubscribe none, .unassign e₂, .close e₃]
  | kept (err : Error) (e₃ : Option Error) : Closing [.unsubscribe (some err), .close e₃]

/-- `closeReader` returns, and adds the entries of one `Closing` to the trace. -/
theorem closeReader_apply (c : Consumer) (s : St) :
    ∃ closing, Closing closing ∧ closeReader c s = (.ok (), { s with trace := s.trace ++ closing }) := by
  cases h : c.reader.unsubscribe s.trace with
  | none =>
    exact ⟨_, .unassigned (c.reader.unassign (s.trace ++ [.unsubscribe none]))
      (c.reader.close (s.trace ++ [.unsubscribe none, .unassign (c.reader.unassign (s.trace ++ [.unsubscribe none]))])),
      by simp [closeReader, readerUnsubscribe, readerUnassign, readerClose, h]⟩
  | some err =>
    exact ⟨_, .kept err (c.reader.close (s.trace ++ [.unsubscribe (some err)])),
      by simp [closeReader, readerUnsubscribe, readerClose, h]⟩

/-! ### The two levels -/

/-- The reader call of the lifecycle model that an entry of the subscription or of the
closing defer is. -/
def Obs.readerOp : Obs → Option ReaderOp
  | .subscribeTopics _ err => some (.subscribeTopics err.isNone)
  | .unsubscribe _ => some .unsubscribe
  | .unassign _ => some .unassign
  | .close _ => some .close
  | _ => none

/-- Where the lifecycle's `Start` stands once `start` has got to `st`: in its event loop,
or in its defers holding the result. -/
def Status.startPc : Status → StartPc
  | .waiting => .loop
  | .returned r => .done r

/-- How a loop that ended with `o` left it, as the lifecycle's `Exit`. -/
def Outcome.exit : Outcome Status → Exit
  | .ok (.returned err) => .returned err
  | _ => .panicked

/-- The `Exit` that the closing defer sees once the last flush has ended with `f`: a panic
of the flush replaces how the loop ended. -/
def Exit.flushed (e : Exit) : Outcome Unit → Exit
  | .ok () => e
  | .panic _ => .panicked

/-- The environment's answer at the last flush that ended with `f`. -/
def flushEnv : Outcome Unit → Env
  | .ok () => .go
  | .panic v => .fail (.new v)

theorem Outcome.exit_eq_returned_none {o : Outcome Status} (h : o.exit = .returned none) :
    o = .ok (.returned none) := by
  rcases o with (_ | _) | _ <;> simp_all [Outcome.exit]

/-- `start` after a successful subscription and a loop that ended with `lo`: its result
is how the loop and the last flush ended. -/
theorem start_of_ended {c : Consumer} {inputs : List Input} {s s₁ s₂ s₃ : St} {lo : Outcome Status}
    {fo : Outcome Unit} (hsub : c.reader.subscribeTopics s.trace c.topics = none)
    (hlo : loop inputs c ⟨Offsets.empty, s.trace ++ [.subscribeTopics c.topics none]⟩ = (lo, s₁))
    (hw : lo ≠ .ok .waiting) (hf : commitOffsets c s₁ = (fo, s₂)) (hc : closeReader c s₂ = (.ok (), s₃)) :
    start false inputs c s = (.ok (.returned (lo.exit.flushed fo).result), s₃) := by
  rcases lo with (_ | err) | v <;> rcases fo with ⟨⟨⟩⟩ | v' <;>
    simp_all [start, listen_apply, deferring, Outcome.exit, Exit.flushed, Exit.result]

/-- Task `t` in `Start` on consumer `i` at `pc` over `rest`, with the consumer's fields
set to `c`. -/
def Sys.atStart (s : Sys) (t i : Nat) (rest : List Frame) (c : Shared) (pc : StartPc) : Sys :=
  (s.setShared i c).setThread t (.start i pc :: rest)

section Stages

variable {s : Sys} {t i : Nat} {rest : List Frame}

@[simp] theorem Sys.atStart_threads (c : Shared) (pc : StartPc) :
    (s.atStart t i rest c pc).threads t = .start i pc :: rest := by
  simp [Sys.atStart]

@[simp] theorem Sys.atStart_shared (c : Shared) (pc : StartPc) : (s.atStart t i rest c pc).shared i = c := by
  simp [Sys.atStart]

theorem Sys.atStart_self {pc : StartPc} (ht : s.threads t = .start i pc :: rest) :
    s.atStart t i rest (s.shared i) pc = s := by
  simp only [Sys.atStart, Sys.setShared, Sys.setThread, ← ht, Function.update_eq_self]

theorem Sys.atStart_atStart (c c' : Shared) (pc pc' : StartPc) :
    (s.atStart t i rest c pc).atStart t i rest c' pc' = s.atStart t i rest c' pc' := by
  simp [Sys.atStart, Sys.setShared, Sys.setThread]

theorem run_of_startMove {pc pc' : StartPc} {c' : Shared} (ht : s.threads t = .start i pc :: rest)
    (env : Env) (hm : startMove (s.shared i) t i pc env = some ⟨c', [.start i pc'], none⟩) (envs : List Env) :
    run s ((env :: envs).map (.run t)) = run (s.atStart t i rest c' pc') (envs.map (.run t)) := by
  simp only [List.map_cons, run, step, threadStep, ht, hm, Option.map_some', Option.some_bind]
  rfl

theorem run_atStart {c c' : Shared} (pc : StartPc) {pc' : StartPc} (env : Env)
    (hm : startMove c t i pc env = some ⟨c', [.start i pc'], none⟩) (envs : List Env) :
    run (s.atStart t i rest c pc) ((env :: envs).map (.run t)) =
      run (s.atStart t i rest c' pc') (envs.map (.run t)) := by
  rw [run_of_startMove (Sys.atStart_threads c pc) env (by rw [Sys.atStart_shared]; exact hm),
    Sys.atStart_atStart]

theorem run_closing (c : Shared) (e : Exit) {closing : List Obs} (h : Closing closing) :
    ∃ envs : List Env, run (s.atStart t i rest c (.unsubscribe e)) (envs.map (.run t)) =
      some (s.atStart t i rest { c with calls := c.calls ++ closing.filterMap Obs.readerOp } (.done e.result)) := by
  cases h with
  | unassigned =>
    refine ⟨[.go, .go, .go], ?_⟩
    rw [run_atStart (.unsubscribe e) .go rfl, run_atStart (.unassign e) .go rfl, run_atStart (.close e) .go rfl]
    simp [run, Obs.readerOp]
  | kept err =>
    refine ⟨[.fail err, .go], ?_⟩
    rw [run_atStart (.unsubscribe e) (.fail err) rfl, run_atStart (.close e) .go rfl]
    simp [run, Obs.readerOp]

/-- From the event loop: it ends with `e`, the last flush with `fo`, and the closing defer
makes the calls of `closing`. -/
theorem run_ended (c : Shared) (e : Exit) (he : e = .returned none → c.cancelled = true)
    (fo : Outcome Unit) {closing : List Obs} (h : Closing closing) :
    ∃ envs : List Env, run (s.atStart t i rest c .loop) (envs.map (.run t)) =
      some (s.atStart t i rest { c with calls := c.calls ++ closing.filterMap Obs.readerOp }
        (.done (e.flushed fo).result)) := by
  obtain ⟨envs, hc⟩ := @run_closing s t i rest c (e.flushed fo) _ h
  have hx : startMove c t i .loop (.exit e) = some ⟨c, [.start i (.flush e)], none⟩ :=
    if_neg fun h => by simp [he h.1] at h
  have hf : startMove c t i (.flush e) (flushEnv fo) = some ⟨c, [.start i (.unsubscribe (e.flushed fo))], none⟩ := by
    cases fo <;> rfl
  exact ⟨.exit e :: flushEnv fo :: envs, by rw [run_atStart .loop _ hx, run_atStart (.flush e) _ hf, hc]⟩

end Stages

/-- The lifecycle's `Start` on task `t`, at its `SubscribeTopics` on consumer `i` in `sys`,
simulates `start` from `s`: `start` returns `st`; the task steps past the subscription; and
when that succeeded, from any state in which the task is back at its event loop (with the
context done if the loop took `<-c.ctx.Done()`), it steps to where `start` ends. -/
def Simulates (c : Consumer) (inputs : List Input) (s : St) (sys : Sys) (t i : Nat)
    (rest : List Frame) : Prop :=
  ∃ st, (start false inputs c s).1 = .ok st ∧
    ∃ err mid closing,
      (start false inputs c s).2.trace = s.trace ++ .subscribeTopics c.topics err :: mid ++ closing ∧
      (∀ o ∈ mid, o.InLoop) ∧ (closing = [] ∨ Closing closing) ∧
      (∃ envs : List Env, run sys (envs.map (.run t)) = some (sys.atStart t i rest
        { sys.shared i with calls := (sys.shared i).calls ++ [.subscribeTopics err.isNone] }
        (if err.isNone then .loop else st.startPc))) ∧
      (err = none → ∀ sys₁ : Sys, sys₁.threads t = .start i .loop :: rest →
        (TookDone inputs c ⟨Offsets.empty, s.trace ++ [.subscribeTopics c.topics none]⟩ →
          (sys₁.shared i).cancelled = true) →
        ∃ envs : List Env, run sys₁ (envs.map (.run t)) = some (sys₁.atStart t i rest
          { sys₁.shared i with calls := (sys₁.shared i).calls ++ closing.filterMap Obs.readerOp } st.startPc))

/-- **The event loop refines the lifecycle's stages of `Start`.**  The one premise, that
the context is done when the loop takes `<-c.ctx.Done()`, is asked of the state in which
the lifecycle's task leaves its event loop. -/
theorem start_refines (c : Consumer) (inputs : List Input) (s : St) {sys : Sys} {t i : Nat}
    {rest : List Frame} (ht : sys.threads t = .start i .subscribe :: rest) :
    Simulates c inputs s sys t i rest := by
  cases hsub : c.reader.subscribeTopics s.trace c.topics with
  | some err =>
    have hst : start false inputs c s =
        (.ok (.returned (Errors.wrap (some err) "subscribe to topics failed")),
          { s with trace := s.trace ++ [.subscribeTopics c.topics (some err)] }) := by
      simp [start, listen_apply, hsub]
    refine ⟨_, by rw [hst], some err, [], [], by simp [hst], by simp, .inl rfl, ⟨[.fail err], ?_⟩,
      fun h => by cases h⟩
    rw [run_of_startMove ht (.fail err) rfl]
    rfl
  | none =>
    have hsys : ∃ envs : List Env, run sys (envs.map (.run t)) = some (sys.atStart t i rest
        { sys.shared i with calls := (sys.shared i).calls ++ [.subscribeTopics true] } .loop) :=
      ⟨[.go], by rw [run_of_startMove ht .go rfl]; rfl⟩
    rcases hlo : loop inputs c ⟨Offsets.empty, s.trace ++ [.subscribeTopics c.topics none]⟩ with ⟨lo, s₁⟩
    have hmid : Since (s.trace ++ [.subscribeTopics c.topics none]) s₁.trace := by
      have := keeps_loop_since (c := c) _ inputs ⟨Offsets.empty, s.trace ++ [.subscribeTopics c.topics none]⟩
        (Since.refl _)
      rwa [hlo] at this
    by_cases hw : lo = .ok .waiting
    · subst hw
      have hst : start false inputs c s = (.ok .waiting, s₁) := by
        simp [start, listen_apply, hsub, deferring, hlo]
      obtain ⟨mid, htr, hin⟩ := hmid
      refine ⟨.waiting, by rw [hst], none, mid, [], by simp [hst, htr], hin, .inl rfl, hsys,
        fun _ sys₁ ht₁ _ => ⟨[], ?_⟩⟩
      simp [run, Status.startPc, Sys.atStart_self ht₁]
    · rcases hf : commitOffsets c s₁ with ⟨fo, s₂⟩
      obtain ⟨mid, htr, hin⟩ : Since (s.trace ++ [.subscribeTopics c.topics none]) s₂.trace := by
        have := keeps_commitOffsets_since (c := c) (s.trace ++ [.subscribeTopics c.topics none]) s₁ hmid
        rwa [hf] at this
      obtain ⟨closing, hcl, hc⟩ := closeReader_apply c s₂
      have hst := start_of_ended hsub hlo hw hf hc
      refine ⟨_, by rw [hst], none, mid, closing, by simp [hst, htr], hin, .inr hcl, hsys,
        fun _ sys₁ ht₁ hdone => ?_⟩
      have he : lo.exit = .returned none → (sys₁.shared i).cancelled = true := fun h =>
        hdone (loop_returned_none (by rw [hlo]; exact Outcome.exit_eq_returned_none h))
      obtain ⟨envs, hrun⟩ := @run_ended sys₁ t i rest (sys₁.shared i) lo.exit he fo _ hcl
      rw [Sys.atStart_self ht₁] at hrun
      exact ⟨envs, by rw [hrun]; rfl⟩

/-- `Start` on consumer `0` of a group of one, at its `SubscribeTopics`. -/
def subscribingSys : Sys := (run (Sys.init 1) ([.call (.start 0)] ++ goSteps 0 4)).getD (Sys.init 1)

theorem start_refines_panicking :
    subscribingSys.threads 0 = [.start 0 .subscribe] ∧
      Simulates panickingConsumer ordersMessage ⟨Offsets.empty, []⟩ subscribingSys 0 0 [] :=
  have ht : subscribingSys.threads 0 = [.start 0 .subscribe] := rfl
  ⟨ht, start_refines panickingConsumer ordersMessage ⟨Offsets.empty, []⟩ ht⟩

end KafkaConsumer
