import KafkaConsumer.Listen

/-! # The errors that stop the event loop

Each handler passes its error to `OnError` just before returning it, except the error that
`OnProcess` returned.  So over every run of the loop, an error that ends it is the last
thing the trace shows: `OnError` called with it and returning, or `OnProcess` returning it
(`loop_errors_reported`).  `EndsReported` follows the shape of the handlers: a bind before
the part that decides, the report itself, and the call of `OnProcess`.
-/

namespace KafkaConsumer

open Loop

/-- The trace ends with `err` reported: `OnError` was called with it and returned, or
`OnProcess` returned it. -/
def Reported (err : Error) (trace : List Obs) : Prop :=
  trace.getLast? = some (.onError err (.ok ())) ∨ ∃ m, trace.getLast? = some (.onProcess m (.ok (some err)))

/-- When `x` ends normally with `a` and `stop a` is `err`, the trace ends with `err`
reported. -/
def EndsReported (stop : α → Option Error) (x : Loop α) : Prop :=
  ∀ c s a err, (x c s).1 = .ok a → stop a = some err → Reported err (x c s).2.trace

/-- The error a turn of the loop stops with. -/
def Status.error : Status → Option Error
  | .waiting => none
  | .returned err => err

namespace EndsReported

variable {stop : α → Option Error}

theorem pure {a : α} (h : stop a = none) : EndsReported stop (Pure.pure a) := fun _ _ _ _ hx hs => by
  cases hx; rw [h] at hs; cases hs

theorem bind {x : Loop β} {f : β → Loop α} (hf : ∀ b, EndsReported stop (f b)) :
    EndsReported stop (x >>= f) := by
  intro c s a err h hs
  obtain ⟨b, hx, hfb⟩ := bind_ok h
  rw [bind_of_ok hx]
  exact hf b c _ a err hfb hs

/-- A handler's error path: `c.onError(...)` on `err`, then `return err`. -/
theorem onError (err : Error) : EndsReported id (KafkaConsumer.onError err >>= fun _ => Pure.pure (some err)) := by
  intro c s a e h hs
  simp only [KafkaConsumer.onError, bind_apply, callback_apply] at h ⊢
  cases hc : c.onError s.trace err with
  | ok u =>
    simp only [hc, pure_apply, Outcome.ok.injEq] at h ⊢
    subst h; cases hs
    exact .inl (by simp)
  | panic v => simp [hc] at h

/-- The call of `OnProcess`, whose error the handler returns as it is. -/
theorem onProcess {e : Message} {f : Option Error → Loop (Option Error)}
    (hs : ∀ err, f (some err) = Pure.pure (some err)) (hn : EndsReported id (f none)) :
    EndsReported id (KafkaConsumer.onProcess e >>= f) := by
  intro c s a err h ha
  simp only [KafkaConsumer.onProcess, bind_apply, callback_apply] at h ⊢
  cases hp : c.onProcess s.trace e with
  | panic v => simp [hp] at h
  | ok r =>
    simp only [hp] at h ⊢
    cases r with
    | none => exact hn c _ a err h ha
    | some err' =>
      rw [hs] at h ⊢
      simp only [pure_apply, Outcome.ok.injEq] at h ⊢
      subst h; cases ha
      exact .inr ⟨e, by simp⟩

end EndsReported

/-! ### The handlers -/

theorem reports_handleRebalance (partitions : List TopicPartition) :
    EndsReported id (handleRebalance partitions) := by
  simp only [handleRebalance, Loop.pure_bind]
  refine .bind fun _ => .bind fun _ => ?_
  split
  · exact .onError _
  · refine .bind fun r => ?_
    cases r with
    | error err => exact .onError _
    | ok committed =>
      refine .bind fun r => ?_
      cases r with
      | some err => exact .onError _
      | none => exact .bind fun _ => .pure rfl

theorem reports_handleRevoke (partitions : List TopicPartition) : EndsReported id (handleRevoke partitions) := by
  simp only [handleRevoke, Loop.pure_bind]
  refine .bind fun _ => .bind fun _ => ?_
  split
  · exact .onError _
  · refine .bind fun r => ?_
    cases r with
    | some err => exact .onError _
    | none => exact .bind fun _ => .pure rfl

theorem reports_handleMessage (e : Message) : EndsReported id (handleMessage e) := by
  simp only [handleMessage, Loop.pure_bind]
  split
  · exact .onError _
  · refine .onProcess (fun _ => rfl) (.bind fun _ => .bind fun c => ?_)
    split
    · refine .bind fun _ => ?_
      split
      · exact .bind fun _ => .pure rfl
      · exact .pure rfl
    · exact .pure rfl

theorem reports_handlePartitionEOF (tp : TopicPartition) : EndsReported id (handlePartitionEOF tp) := by
  simp only [handlePartitionEOF, Loop.pure_bind]
  refine .bind fun _ => .bind fun _ => ?_
  split
  · split
    · exact .onError _
    · exact .pure rfl
  · exact .pure rfl

theorem reports_handleOffsetCommitted (error : Option Error) (offsets : List TopicPartition) :
    EndsReported id (handleOffsetCommitted error offsets) := by
  simp only [handleOffsetCommitted, Loop.pure_bind]
  split
  · exact .onError _
  · split
    · exact .onError _
    · exact .pure rfl

/-! ### The loop -/

theorem EndsReported.exitOnError {x : Loop (Option Error)} (hx : EndsReported id x) :
    EndsReported Status.error (exitOnError x) := by
  intro c s a err h ha
  obtain ⟨r, hr, hf⟩ := bind_ok h
  simp only [KafkaConsumer.exitOnError, bind_of_ok hr] at hf ⊢
  cases r with
  | none => cases hf; cases ha
  | some e =>
    cases hf; cases ha
    exact hx c s _ _ hr rfl

theorem reports_listenStep : ∀ i, EndsReported Status.error (listenStep i)
  | .done => .pure rfl
  | .tick => .bind fun _ => .bind fun _ => .pure rfl
  | .event ev => .bind fun _ => by
    cases ev with
    | assignedPartitions ps => exact (reports_handleRebalance ps).exitOnError
    | revokedPartitions ps => exact (reports_handleRevoke ps).exitOnError
    | message m => exact (reports_handleMessage m).exitOnError
    | partitionEOF tp => exact (reports_handlePartitionEOF tp).exitOnError
    | offsetsCommitted error offsets => exact (reports_handleOffsetCommitted error offsets).exitOnError
    | error code => exact .bind fun _ => .pure rfl
    | other => exact .pure rfl

/-- **Every error that ends the event loop was reported.**  The loop returns `err` only
right after `OnError` was called with `err` and returned, or `OnProcess` returned `err`. -/
theorem loop_errors_reported (inputs : List Input) (c : Consumer) (s : St) {err : Error}
    (h : (loop inputs c s).1 = .ok (.returned (some err))) : Reported err (loop inputs c s).2.trace := by
  induction inputs generalizing s with
  | nil => cases h
  | cons i is ih =>
    obtain ⟨st, hst, hf⟩ := bind_ok h
    simp only [loop, bind_of_ok hst] at hf ⊢
    cases st with
    | waiting => exact ih _ hf
    | returned e =>
      cases hf
      exact reports_listenStep i c s _ err hst rfl

def quietConsumer : Consumer where
  commitOffsetCount := 0
  topics := ["orders"]
  reader :=
    { subscribeTopics := fun _ _ => none, commitOffsets := fun _ l => .ok l, committed := fun _ l => .ok l,
      assign := fun _ _ => none, unassign := fun _ => none, unsubscribe := fun _ => none, close := fun _ => none }
  onCommit _ _ _ _ _ := .ok ()
  onError _ _ := .ok ()
  onProcess _ _ := .ok none
  onRevoke _ _ := .ok ()
  onRebalance _ _ := .ok ()

/-- A `PartitionEOF` event that carries an error other than the end of the partition. -/
def eofFailure : List Input := [.event (.partitionEOF ⟨some "orders", 0, 7, some (.new "broker down")⟩)]

theorem loop_errors_reported_eofFailure :
    (loop eofFailure quietConsumer ⟨Offsets.empty, []⟩).1 = .ok (.returned (some (.new "broker down"))) ∧
      Reported (.new "broker down") (loop eofFailure quietConsumer ⟨Offsets.empty, []⟩).2.trace :=
  have h : (loop eofFailure quietConsumer ⟨Offsets.empty, []⟩).1 = .ok (.returned (some (.new "broker down"))) := rfl
  ⟨h, loop_errors_reported eofFailure quietConsumer ⟨Offsets.empty, []⟩ h⟩

end KafkaConsumer
