import KafkaConsumer.Invariant

/-!
# What a commit carries

`commitOffsets_carry_latest_accepted`: in every run of `listen`, each descriptor passed to
`CommitOffsets` is the `TopicPartition` of the newest message on its partition that had no
error and that `OnProcess` accepted, counted back to the last `AssignedPartitions`,
`RevokedPartitions` or `PartitionEOF` event before the one being handled (`commitRef`).

The proof keeps `Safe`: every commit so far was right, and every entry of the tracker is
what `commitRef` expects.  A new event would break the second half if the newest event
were a boundary and the tracker were not empty; `Settled` says this cannot happen at the
select, because the boundary handlers clear the tracker and add nothing after.
-/

namespace KafkaConsumer

open Loop Keeps

/-! ### The reference -/

/-- The events the pending offsets are counted from: `AssignedPartitions`,
`RevokedPartitions` and `PartitionEOF`. -/
def Event.isBoundary : Event → Bool
  | .assignedPartitions _ | .revokedPartitions _ | .partitionEOF _ => true
  | _ => false

/-- The newest accepted descriptor of key `k` in a trace given newest entry first,
stopping at a boundary event once the newest event (`past = false`) is behind. -/
def expected (k : PartitionKey) : Bool → List Obs → Option TopicPartition
  | _, [] => none
  | past, .event ev :: rest => if past && ev.isBoundary then none else expected k true rest
  | past, o :: rest =>
    match o.accepted with
    | some tp => if tp.key = k then some tp else expected k past rest
    | none => expected k past rest

/-- What a commit made after trace `T` should carry for key `k`. -/
def commitRef (T : List Obs) (k : PartitionKey) : Option TopicPartition :=
  expected k false T.reverse

/-- Every descriptor passed to `CommitOffsets` in `T` is the one `commitRef` expects
for its key in the trace before the call. -/
def CommitsSafe (T : List Obs) : Prop :=
  ∀ A l r B, T = A ++ Obs.commitOffsets l r :: B → ∀ d ∈ l, commitRef A d.key = some d

/-! ### The reference along a trace -/

def newestEvent : List Obs → Option Event
  | [] => none
  | .event ev :: _ => some ev
  | _ :: rest => newestEvent rest

theorem expected_past (k : PartitionKey) :
    ∀ L, (∀ ev, newestEvent L = some ev → ev.isBoundary = false) →
      expected k true L = expected k false L
  | [] => fun _ => rfl
  | .event ev :: rest => fun h => by simp [expected, h ev rfl]
  | .tick :: rest | .subscribeTopics _ _ :: rest | .commitOffsets _ _ :: rest
  | .committed _ _ :: rest | .assign _ _ :: rest | .unassign _ :: rest
  | .unsubscribe _ :: rest | .close _ :: rest | .onProcess _ _ :: rest
  | .onCommit _ _ _ _ :: rest | .onError _ _ :: rest | .onRevoke _ _ :: rest
  | .onRebalance _ _ :: rest => fun h => by
    simp only [expected, expected_past k rest h]

theorem commitRef_append_of_accepted {o : Obs} (he : ∀ ev, o ≠ .event ev) (ho : o.accepted = none)
    (T : List Obs) (k : PartitionKey) : commitRef (T ++ [o]) k = commitRef T k := by
  cases o <;> first | exact absurd rfl (he _) | simp_all [commitRef, expected]

theorem commitRef_append_accepted {o : Obs} {tp : TopicPartition} (ho : o.accepted = some tp)
    (T : List Obs) (k : PartitionKey) :
    commitRef (T ++ [o]) k = if tp.key = k then some tp else commitRef T k := by
  cases o <;> simp_all [commitRef, expected, Obs.accepted]

theorem commitRef_append_event (T : List Obs) (ev : Event)
    (h : ∀ ev', newestEvent T.reverse = some ev' → ev'.isBoundary = false) (k : PartitionKey) :
    commitRef (T ++ [.event ev]) k = commitRef T k := by
  simp [commitRef, expected, expected_past k _ h]

theorem commitsSafe_append {T : List Obs} {o : Obs} (hT : CommitsSafe T)
    (ho : ∀ l r, o = .commitOffsets l r → ∀ d ∈ l, commitRef T d.key = some d) :
    CommitsSafe (T ++ [o]) := by
  intro A l r B h
  rcases snoc_eq_append_cons h with ⟨rfl, rfl, -⟩ | ⟨B', -, rfl⟩
  · exact ho l r rfl
  · exact hT A l r B' rfl

/-! ### The invariant -/

/-- Every commit so far was right, and every entry of the tracker is what
`commitRef` expects. -/
def Safe (s : St) : Prop :=
  CommitsSafe s.trace ∧ ∀ k e, s.offsets.find k = some e → commitRef s.trace k = some e.tp

def NotBoundary (s : St) : Prop :=
  ∀ ev, newestEvent s.trace.reverse = some ev → ev.isBoundary = false

/-- At the select: the newest event is not a boundary, or the tracker is empty. -/
def Settled (s : St) : Prop := NotBoundary s ∨ Empty s

theorem notBoundary_neutral : Neutral NotBoundary := by
  refine ⟨fun s o ho hs => ?_, fun s _ hs => hs⟩
  cases o <;> first | exact absurd rfl (ho _) | simpa [NotBoundary, newestEvent] using hs

theorem safe_append {s : St} {o : Obs} (hs : Safe s) (he : ∀ ev, o ≠ .event ev)
    (ha : o.accepted = none) (hc : ∀ l r, o ≠ .commitOffsets l r) :
    Safe { s with trace := s.trace ++ [o] } := by
  refine ⟨commitsSafe_append hs.1 fun l r h => absurd h (hc l r), fun k e hk => ?_⟩
  rw [commitRef_append_of_accepted he ha]
  exact hs.2 k e hk

theorem safe_plainStable : PlainStable Safe := fun s o ho hs =>
  safe_append hs (by rintro ev rfl; exact ho) (by cases o <;> simp_all [Obs.Plain, Obs.accepted])
    (by rintro l r rfl; exact ho)

theorem safe_clearStable : ClearStable Safe := fun _ hs =>
  ⟨hs.1, fun k e hk => by simp at hk⟩

theorem safe_onCommit {s : St} (hs : Safe s) (topic : String) (tp : TopicPartition) (n : Nat)
    (r : Outcome Unit) : Safe { s with trace := s.trace ++ [.onCommit topic tp n r] } :=
  safe_append hs (by simp) rfl (by simp)

theorem safe_remove {s : St} (hs : Safe s) (tp : TopicPartition) :
    Safe { s with offsets := s.offsets.remove tp } := by
  refine ⟨hs.1, fun k e hk => hs.2 k e ?_⟩
  rw [Offsets.find_remove] at hk
  split at hk
  · cases hk
  · exact hk

variable {c : Consumer}

theorem keeps_commitOffsets : Keeps c Safe commitOffsets := by
  intro s hs
  simp only [commitOffsets, Loop.pure_bind, bind_apply, offsets_apply]
  split
  · simp only [readerCommitOffsets, bind_apply, readerCall_apply]
    have hs1 : Safe { s with trace := s.trace ++ [.commitOffsets s.offsets.get.1
        (c.reader.commitOffsets s.trace s.offsets.get.1)] } := by
      refine ⟨commitsSafe_append hs.1 fun l r h d hd => ?_, fun k e hk => ?_⟩
      · obtain ⟨rfl, -⟩ := Obs.commitOffsets.inj h
        obtain ⟨n, hn⟩ := Offsets.find_of_mem_get hd
        exact hs.2 _ _ hn
      · rw [commitRef_append_of_accepted (o := .commitOffsets _ _) (by simp) rfl]
        exact hs.2 k e hk
    refine (?_ : Keeps c Safe _) _ hs1
    split
    · exact onError' safe_plainStable.loopStable _
    · split
      · exact onError' safe_plainStable.loopStable _
      · exact keeps_commitEach (fun _ item _ _ _ hs => safe_onCommit (safe_remove hs item) _ _ _ _) _ _ _
  · exact hs

theorem safe_flushClear : Keeps c Safe (commitOffsets >>= fun _ => modifyOffsets (·.clear)) :=
  bind keeps_commitOffsets fun _ => modifyOffsets' safe_clearStable

theorem safe_accept {s : St} (hs : Safe s) {e : Message} (he : e.topicPartition.error = none) :
    Safe ⟨s.offsets.add e.topicPartition, s.trace ++ [.onProcess e (.ok none)]⟩ := by
  have hacc : (Obs.onProcess e (.ok none)).accepted = some e.topicPartition := by
    simp [Obs.accepted, he]
  refine ⟨commitsSafe_append hs.1 (by simp), fun k en hk => ?_⟩
  rw [commitRef_append_accepted hacc]
  rw [Offsets.find_add] at hk
  split at hk
  · cases hk
    simp [*]
  · rw [if_neg ‹_›]
    exact hs.2 k en hk

theorem keeps_handleMessage (e : Message) : Keeps c Safe (handleMessage e) :=
  keeps_handleMessage_of safe_plainStable.loopStable
    (fun _ r hr hs => safe_append hs (by simp) (by cases r <;> simp_all [Obs.accepted]) (by simp))
    (fun _ he hs => safe_accept hs he) keeps_commitOffsets

/-! ### A turn of the loop -/

theorem safe_event {s : St} (hs : Safe s) (hset : Settled s) (ev : Event) :
    Safe { s with trace := s.trace ++ [.event ev] } := by
  refine ⟨commitsSafe_append hs.1 (by simp), fun k e hk => ?_⟩
  rcases hset with hnb | hem
  · rw [commitRef_append_event _ _ hnb]
    exact hs.2 k e hk
  · simp [Empty] at hem
    simp [Offsets.find, hem] at hk

/-- A turn of the loop keeps `Safe`, and `Settled` when the loop goes round again. -/
theorem listenStep_safe (i : Input) {s : St} (hs : Safe s) (hset : Settled s) :
    Safe (listenStep i c s).2 ∧
      ((listenStep i c s).1 = .ok .waiting → Settled (listenStep i c s).2) := by
  have hN := notBoundary_neutral
  cases i with
  | done => exact ⟨hs, fun _ => hset⟩
  | tick =>
    refine ⟨bind (selected' safe_plainStable.loopStable .tick trivial trivial)
      (fun _ => bind keeps_commitOffsets fun _ => pure' _) s hs, fun _ => ?_⟩
    exact Keeps.or
      (bind (selected' hN.plainStable.loopStable .tick trivial trivial) fun _ => bind hN.keeps_commitOffsets fun _ => pure' _)
      (bind (selected' empty_plainStable.loopStable .tick trivial trivial) fun _ => bind keeps_commitOffsets_empty fun _ => pure' _)
      s hset
  | event ev =>
    have hs1 := safe_event hs hset ev
    have hnb : ev.isBoundary = false → NotBoundary { s with trace := s.trace ++ [.event ev] } :=
      fun h ev' h' => by simp [newestEvent] at h'; exact h' ▸ h
    simp only [listenStep, bind_apply, selected_apply]
    cases ev with
    | assignedPartitions ps =>
      exact ⟨keeps_exitOnError (keeps_handleRebalance safe_plainStable.loopStable
        (fun _ _ _ hs => safe_append hs (by simp) rfl (by simp)) safe_flushClear ps) _ hs1,
        fun hw => .inr (handleRebalance_empty (exitOnError_waiting hw))⟩
    | revokedPartitions ps =>
      exact ⟨keeps_exitOnError (keeps_handleRevoke safe_plainStable.loopStable safe_flushClear ps) _ hs1,
        fun hw => .inr (handleRevoke_empty (exitOnError_waiting hw))⟩
    | partitionEOF tp =>
      exact ⟨keeps_exitOnError (keeps_handlePartitionEOF safe_plainStable.loopStable safe_flushClear tp) _ hs1,
        fun hw => .inr (handlePartitionEOF_empty (exitOnError_waiting hw))⟩
    | message m =>
      exact ⟨keeps_exitOnError (keeps_handleMessage m) _ hs1,
        fun _ => .inl (keeps_exitOnError (hN.keeps_handleMessage m) _ (hnb rfl))⟩
    | offsetsCommitted err os =>
      exact ⟨keeps_exitOnError (keeps_handleOffsetCommitted safe_plainStable.loopStable err os) _ hs1,
        fun _ => .inl (keeps_exitOnError (keeps_handleOffsetCommitted hN.plainStable.loopStable err os) _
          (hnb rfl))⟩
    | error code =>
      exact ⟨bind (onError' safe_plainStable.loopStable _) (fun _ => pure' _) _ hs1,
        fun _ => .inl (bind (onError' hN.plainStable.loopStable _) (fun _ => pure' _) _ (hnb rfl))⟩
    | other => exact ⟨hs1, fun _ => .inl (hnb rfl)⟩

theorem loop_safe : ∀ (inputs : List Input) (s : St), Safe s → Settled s → Safe (loop inputs c s).2
  | [], _, hs, _ => hs
  | i :: is, s, hs, hset => by
    obtain ⟨h1, h2⟩ := listenStep_safe (c := c) i hs hset
    simp only [loop, bind_apply]
    revert h1 h2
    rcases listenStep i c s with ⟨o, s₁⟩
    cases o with
    | ok st =>
      cases st with
      | waiting => exact fun h1 h2 => loop_safe is s₁ h1 (h2 rfl)
      | returned err => exact fun h1 _ => h1
    | panic v => exact fun h1 _ => h1

/-- **At-least-once safety.**  Every descriptor that `listen` passes to
`CommitOffsets`, in the handlers, on a tick or in the deferred last flush, is the
`TopicPartition` of the newest accepted message on its partition since the last
boundary event before the one being handled. -/
theorem commitOffsets_carry_latest_accepted (c : Consumer) (inputs : List Input) (o : Offsets) :
    CommitsSafe (listen inputs c ⟨o, []⟩).2.trace := by
  simp only [listen, bind_apply, consumer_apply, readerSubscribeTopics, readerCall_apply]
  cases h : c.reader.subscribeTopics [] c.topics with
  | some err => exact commitsSafe_append (T := []) (fun _ _ _ _ h => by simp at h) (by simp)
  | none =>
    have hs : Safe ⟨Offsets.empty, [.subscribeTopics c.topics none]⟩ :=
      ⟨commitsSafe_append (T := []) (fun _ _ _ _ h => by simp at h) (by simp),
        by simp [Offsets.find, Offsets.empty]⟩
    simp only [Loop.pure_bind, bind_apply, modifyOffsets_apply, List.nil_append]
    exact (deferring' (P := fun s => Safe s ∧ Settled s)
      (deferring' (fun s hs => loop_safe inputs s hs.1 hs.2) keeps_commitOffsets)
      (keeps_closeReader safe_plainStable fun _ _ hs => safe_append hs (by simp) rfl (by simp)) _ ⟨hs, .inr rfl⟩).1

end KafkaConsumer
