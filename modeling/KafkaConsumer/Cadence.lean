import KafkaConsumer.Counts

/-!
# The commit cadence

With `commitOffsetCount = k > 0`, `handleMessage` flushes the tracker as soon as its
`Counter()` reaches `k`.  When every `CommitOffsets` call acknowledges its whole input,
`pending_below_commit_count` says that whenever `listen` is back at its select, fewer than
`k` accepted messages wait uncommitted.  The invariant is read only where the loop goes
round again: a handler that panics or returns an error ends `listen`.
-/

namespace KafkaConsumer

open Loop Keeps

/-- Fewer than `k` accepted messages wait in the tracker. -/
def Pending (k : Int) (s : St) : Prop := (s.offsets.counter : Int) < k

theorem pending_plainStable (k : Int) : PlainStable (Pending k) := fun _ _ _ h => h

theorem pending_of_empty {k : Int} (hk : 0 < k) {s : St} (h : Empty s) : Pending k s := by
  unfold Empty at h
  simp [Pending, Offsets.counter, h, hk]

variable {c : Consumer}

/-- `handleMessage` that returns nil leaves fewer than `k` messages pending: the flush it
starts once `Counter()` reaches `k` runs to its end and empties the tracker. -/
theorem handleMessage_pending (hk : 0 < c.commitOffsetCount) (hw : c.reader.CommitsWhole)
    {e : Message} {s s' : St} (h : handleMessage e c s = (.ok none, s')) :
    Pending c.commitOffsetCount s' := by
  obtain ⟨h, rfl⟩ := Prod.ext_iff.mp h
  unfold handleMessage at h ⊢
  cases herr : e.topicPartition.error with
  | some err =>
    simp only [herr] at h
    obtain ⟨_, -, h⟩ := bind_ok h
    cases h
  | none =>
    simp only [herr, Loop.pure_bind, bind_apply, onProcess, callback_apply] at h ⊢
    cases hp : c.onProcess s.trace e with
    | panic v => simp [hp] at h
    | ok r =>
      cases r with
      | some err => simp [hp] at h
      | none =>
        simp only [hp, bind_apply, modifyOffsets_apply, consumer_apply, if_pos hk, offsets_apply] at h ⊢
        by_cases hc : c.commitOffsetCount ≤ ((s.offsets.add e.topicPartition).counter : Int)
        · rw [if_pos hc] at h ⊢
          obtain ⟨_, hco, -⟩ := bind_ok h
          simp only [bind_apply] at hco ⊢
          have he := commitOffsets_ok_empty hw hco
          revert he
          rcases commitOffsets c _ with ⟨_ | _, s₂⟩ <;> exact pending_of_empty hk
        · rw [if_neg hc]
          exact not_le.mp hc

/-- One turn that leaves the select waiting keeps fewer than `k` messages pending: a
tick's flush that runs to its end, and the handlers that flush and `Clear`, empty the
tracker, and the other cases leave it as it is. -/
theorem listenStep_pending (hk : 0 < c.commitOffsetCount) (hw : c.reader.CommitsWhole) (i : Input)
    {s : St} (hs : Pending c.commitOffsetCount s) (h : (listenStep i c s).1 = .ok .waiting) :
    Pending c.commitOffsetCount (listenStep i c s).2 := by
  cases i with
  | done => cases h
  | tick =>
    simp only [listenStep, bind_apply (selected _), selected_apply] at h ⊢
    obtain ⟨_, hco, -⟩ := bind_ok h
    rw [bind_of_ok hco]
    exact pending_of_empty hk (commitOffsets_ok_empty hw hco)
  | event ev =>
    simp only [listenStep, bind_apply (selected _), selected_apply] at h ⊢
    cases ev with
    | assignedPartitions ps => exact pending_of_empty hk (handleRebalance_empty (exitOnError_waiting h))
    | revokedPartitions ps => exact pending_of_empty hk (handleRevoke_empty (exitOnError_waiting h))
    | message m => exact handleMessage_pending hk hw (exitOnError_waiting h)
    | partitionEOF tp => exact pending_of_empty hk (handlePartitionEOF_empty (exitOnError_waiting h))
    | offsetsCommitted err os =>
      exact keeps_exitOnError (keeps_handleOffsetCommitted (pending_plainStable _).loopStable err os) _ hs
    | error code => exact bind (onError' (pending_plainStable _).loopStable _) (fun _ => pure' _) _ hs
    | other => exact hs

theorem loop_pending (hk : 0 < c.commitOffsetCount) (hw : c.reader.CommitsWhole) :
    ∀ (inputs : List Input) {s : St}, Pending c.commitOffsetCount s →
      (loop inputs c s).1 = .ok .waiting → Pending c.commitOffsetCount (loop inputs c s).2
  | [], _, hs, _ => hs
  | i :: is, s, hs, h => by
    obtain ⟨st, hst, h⟩ := bind_ok h
    rw [loop, bind_of_ok hst]
    cases st with
    | waiting => exact loop_pending hk hw is (listenStep_pending hk hw i hs hst) h
    | returned err => cases h

/-- **Whenever `listen` is waiting at its select, its tracker holds fewer than
`commitOffsetCount` messages.**  This is for a positive count and a reader whose every
`CommitOffsets` call succeeds on its whole input. -/
theorem pending_below_commit_count (c : Consumer) (inputs : List Input) (s : St)
    (hk : 0 < c.commitOffsetCount) (hw : c.reader.CommitsWhole)
    (h : (listen inputs c s).1 = .ok .waiting) :
    ((listen inputs c s).2.offsets.counter : Int) < c.commitOffsetCount := by
  rw [listen_apply] at h ⊢
  cases hsub : c.reader.subscribeTopics s.trace c.topics with
  | some err => simp [hsub] at h
  | none =>
    simp only [hsub] at h ⊢
    have hl := deferring_ok (deferring_ok h)
    rw [deferring_waiting (deferring_ok h), deferring_waiting hl]
    exact loop_pending hk hw inputs (pending_of_empty hk rfl) hl

/-- Two messages of one partition: the second brings `Counter()` to 2 and flushes. -/
def twoMessages : List Input :=
  [.event (.message ⟨⟨some "orders", 0, 7, none⟩⟩), .event (.message ⟨⟨some "orders", 0, 8, none⟩⟩)]

theorem pending_below_commit_count_twoMessages :
    0 < acknowledgingConsumer.commitOffsetCount ∧ acknowledgingConsumer.reader.CommitsWhole ∧
      (listen twoMessages acknowledgingConsumer ⟨Offsets.empty, []⟩).1 = .ok .waiting ∧
      ((listen twoMessages acknowledgingConsumer ⟨Offsets.empty, []⟩).2.offsets.counter : Int) <
        acknowledgingConsumer.commitOffsetCount :=
  have h : (listen twoMessages acknowledgingConsumer ⟨Offsets.empty, []⟩).1 = .ok .waiting := rfl
  ⟨by decide, acknowledgingReader_commitsWhole, h,
    pending_below_commit_count _ _ _ (by decide) acknowledgingReader_commitsWhole h⟩

end KafkaConsumer
