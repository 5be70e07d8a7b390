import KafkaConsumer.Invariant

/-!
# Resuming after a rebalance

`handleRebalance` flushes the tracker and clears it, reads the committed offsets of
the assigned partitions and assigns them one past each offset that is not negative.

* `CommitsOnAssign`: every `AssignedPartitions` event whose partitions pass
  `checkPartitions` is followed by the flush and a `Committed` call on them, unless a
  callback of the flush panicked;
* `rebalance_resumes_after_last_commit`: that, and at every `Committed` call the reply
  carries the offsets the broker holds, and `Assign` gets each of them resumed;
* `assign_wraps_at_max_offset`: a message at offset `2^63 - 1` is assigned at `-2^63`.
-/

namespace KafkaConsumer

open Loop Keeps

/-! ### The offset `Assign` gets -/

/-- `a` is `d` resumed: the same partition, at the next offset in `int64` arithmetic
when `d`'s is not negative, and at the same offset when it is. -/
def Resumed (d a : TopicPartition) : Prop :=
  a.topic = d.topic ∧ a.partition = d.partition ∧
    (0 ≤ d.offset.toInt → d.offset.toInt < 2 ^ 63 - 1 → a.offset.toInt = d.offset.toInt + 1) ∧
    (d.offset.toInt = 2 ^ 63 - 1 → a.offset.toInt = -2 ^ 63) ∧
    (d.offset.toInt < 0 → a.offset = d.offset)

theorem incrementOffset_resumed (d : TopicPartition) : Resumed d (incrementOffset d) := by
  have hx := d.offset.isLt
  have h0 : (0 : Offset).toInt = 0 := rfl
  unfold incrementOffset
  split
  · rename_i h
    have h1 : (1 : Offset).toNat = 1 := rfl
    simp only [BitVec.sle, h0, decide_eq_true_eq] at h
    refine ⟨rfl, rfl, fun _ hlt => offset_succ_toInt _ hlt, fun heq => ?_, fun hneg => by omega⟩
    simp only [BitVec.toInt_eq_toNat_cond, BitVec.toNat_add, h1] at heq ⊢
    split at heq <;> split <;> omega
  · rename_i h
    simp only [BitVec.sle, h0, decide_eq_true_eq] at h
    exact ⟨rfl, rfl, fun h0 => absurd h0 (by simpa using h), fun heq => by omega, fun _ => rfl⟩

/-! ### The last commit and the last accepted message -/

def Obs.acceptedAt (k : PartitionKey) (o : Obs) : Option TopicPartition :=
  o.accepted.filter fun tp => tp.key = k

/-- The descriptor of key `k` passed at this entry to a `CommitOffsets` call that
went through. -/
def Obs.committedAt (k : PartitionKey) : Obs → Option TopicPartition
  | .commitOffsets l (.ok _) => l.find? fun d => d.key = k
  | _ => none

def lastAccepted (k : PartitionKey) (T : List Obs) : Option TopicPartition :=
  T.foldl (fun acc o => (o.acceptedAt k).or acc) none

/-- The descriptor of key `k` in the last commit of it that went through. -/
def lastCommitted (k : PartitionKey) (T : List Obs) : Option TopicPartition :=
  T.foldl (fun acc o => (o.committedAt k).or acc) none

@[simp] theorem lastAccepted_append (k : PartitionKey) (T : List Obs) (o : Obs) :
    lastAccepted k (T ++ [o]) = (o.acceptedAt k).or (lastAccepted k T) := by
  simp [lastAccepted]

@[simp] theorem lastCommitted_append (k : PartitionKey) (T : List Obs) (o : Obs) :
    lastCommitted k (T ++ [o]) = (o.committedAt k).or (lastCommitted k T) := by
  simp [lastCommitted]

/-- The offset the broker holds for key `k` after trace `T`: the last one committed,
or `init k` from before the run (`kafka.OffsetInvalid` when there is none). -/
def committedOffset (init : PartitionKey → Offset) (T : List Obs) (k : PartitionKey) : Offset :=
  ((lastCommitted k T).map TopicPartition.offset).getD (init k)

/-- An entry that neither accepts a message nor commits. -/
def Obs.Quiet (o : Obs) : Prop :=
  ∀ k, o.acceptedAt k = none ∧ o.committedAt k = none

theorem Obs.quiet_of {o : Obs} (ha : o.accepted = none) (hc : ∀ l r, o ≠ .commitOffsets l r) :
    o.Quiet := fun k => by
  cases o <;> first | exact absurd rfl (hc _ _) | simp_all [Obs.acceptedAt, Obs.committedAt]

theorem Obs.Plain.quiet {o : Obs} (ho : o.Plain) : o.Quiet :=
  Obs.quiet_of (by cases o <;> simp_all [Obs.Plain, Obs.accepted]) (by rintro _ _ rfl; exact ho)

/-! ### The invariant -/

/-- Each key's last accepted message is what the tracker holds for it or, when it
holds nothing, the key's last commit. -/
def Synced (s : St) : Prop :=
  ∀ k, lastAccepted k s.trace = ((s.offsets.find k).map Entry.tp).or (lastCommitted k s.trace)

/-- Every key's last commit is its last accepted message. -/
def CaughtUp (T : List Obs) : Prop :=
  ∀ k, lastCommitted k T = lastAccepted k T

/-- At every successful `Committed` call in `T` the consumer had caught up, the reply
is the reader's answer there, and the next call is `Assign` with the reply resumed. -/
def ResumesAfter (r : Reader) (T : List Obs) : Prop :=
  ∀ A ps reply B, T = A ++ .committed ps (.ok reply) :: B →
    CaughtUp A ∧ r.committed A ps = .ok reply ∧
      ∃ err B', B = .assign (reply.map incrementOffset) err :: B'

def Resumable (r : Reader) (s : St) : Prop :=
  Synced s ∧ ResumesAfter r s.trace

theorem caughtUp_of_synced {s : St} (hs : Synced s) (he : Empty s) : CaughtUp s.trace := fun k => by
  rw [hs k, show s.offsets.find k = none by simp [Offsets.find, show s.offsets.entries = [] from he]]
  rfl

theorem synced_quiet {s : St} {o : Obs} (hs : Synced s) (ho : o.Quiet) :
    Synced { s with trace := s.trace ++ [o] } := fun k => by
  simp [(ho k).1, (ho k).2, hs k]

theorem resumesAfter_append {r : Reader} {T : List Obs} {o : Obs} (hT : ResumesAfter r T)
    (ho : ∀ ps reply, o ≠ .committed ps (.ok reply)) : ResumesAfter r (T ++ [o]) := by
  intro A ps reply B h
  rcases snoc_eq_append_cons h with ⟨-, h', -⟩ | ⟨B', rfl, hT'⟩
  · exact absurd h'.symm (ho ps reply)
  · obtain ⟨hc, hr, err, B'', rfl⟩ := hT A ps reply B' hT'
    exact ⟨hc, hr, err, B'' ++ [o], rfl⟩

theorem resumable_append {r : Reader} {s : St} {o : Obs} (hs : Resumable r s) (ho : o.Quiet)
    (hc : ∀ ps reply, o ≠ .committed ps (.ok reply)) :
    Resumable r { s with trace := s.trace ++ [o] } :=
  ⟨synced_quiet hs.1 ho, resumesAfter_append hs.2 hc⟩

theorem resumable_plainStable (r : Reader) : PlainStable (Resumable r) := fun _ _ ho hs =>
  resumable_append hs ho.quiet (by rintro _ _ rfl; exact ho)

theorem resumable_accept {r : Reader} {s : St} (hs : Resumable r s) {e : Message}
    (he : e.topicPartition.error = none) :
    Resumable r ⟨s.offsets.add e.topicPartition, s.trace ++ [.onProcess e (.ok none)]⟩ := by
  refine ⟨fun k => ?_, resumesAfter_append hs.2 (by simp)⟩
  simp only [lastAccepted_append, lastCommitted_append, Obs.acceptedAt, Obs.committedAt,
    Obs.accepted, he, if_true, Option.filter_some, decide_eq_true_eq, Offsets.find_add, Option.none_or]
  split
  · rfl
  · exact hs.1 k

/-! ### The flush -/

theorem resumable_commit {r : Reader} {s : St} (hs : Resumable r s) (success : List TopicPartition) :
    Resumable r { s with trace := s.trace ++ [.commitOffsets s.offsets.get.1 (.ok success)] } ∧
      CaughtUp (s.trace ++ [.commitOffsets s.offsets.get.1 (.ok success)]) := by
  have hc : ∀ k, (Obs.commitOffsets s.offsets.get.1 (.ok success)).committedAt k =
      (s.offsets.find k).map Entry.tp := Offsets.find?_get _
  refine ⟨⟨fun k => ?_, resumesAfter_append hs.2 (by simp)⟩, fun k => ?_⟩ <;>
    simp only [lastAccepted_append, lastCommitted_append, hc, hs.1 k]
  · cases s.offsets.find k <;> rfl
  · rfl

theorem resumable_commitStep {r : Reader} {s : St} (hs : Resumable r s ∧ CaughtUp s.trace)
    (item : TopicPartition) (t : String) (n : Nat) (res : Outcome Unit) :
    Resumable r ⟨s.offsets.remove item, s.trace ++ [.onCommit t item n res]⟩ ∧
      CaughtUp (s.trace ++ [.onCommit t item n res]) := by
  have hq : (Obs.onCommit t item n res).Quiet := Obs.quiet_of rfl (by simp)
  refine ⟨⟨fun k => ?_, resumesAfter_append hs.1.2 (by simp)⟩, fun k => ?_⟩ <;>
    simp only [lastAccepted_append, lastCommitted_append, (hq k).1, (hq k).2, Option.none_or]
  · rw [Offsets.find_remove]
    split
    · exact (hs.2 k).symm
    · exact hs.1.1 k
  · exact hs.2 k

theorem resumable_clear {r : Reader} {s : St} (hs : Resumable r s ∧ CaughtUp s.trace) :
    Resumable r { s with offsets := s.offsets.clear } :=
  ⟨fun k => by simp [hs.2 k], hs.1.2⟩

variable {c : Consumer}

/-- When every commit goes through, the flush leaves every key caught up. -/
theorem resumable_commitOffsets (hw : c.reader.CommitsWhole) (s : St) (hs : Resumable c.reader s) :
    Resumable c.reader (commitOffsets c s).2 ∧ CaughtUp (commitOffsets c s).2.trace := by
  by_cases hl : 0 < s.offsets.get.1.length
  · obtain ⟨success, -, heq⟩ := commitOffsets_of_whole hw s hl
    rw [heq]
    exact keeps_commitEach (I := fun s => Resumable c.reader s ∧ CaughtUp s.trace)
      (fun _ item _ _ _ hs => resumable_commitStep hs item _ _ _) _ _ _ _ (resumable_commit hs success)
  · have he : s.offsets.entries = [] := by simpa [Offsets.get] using hl
    rw [commitOffsets_of_empty he]
    exact ⟨hs, caughtUp_of_synced hs.1 he⟩

theorem resumable_flushClear (hw : c.reader.CommitsWhole) :
    Keeps c (Resumable c.reader) (commitOffsets >>= fun _ => modifyOffsets (·.clear)) :=
  seq (Q := fun s => Resumable c.reader s ∧ CaughtUp s.trace) (resumable_commitOffsets hw)
    (fun _ _ hs => resumable_clear hs) (fun _ hs => hs.1)

/-! ### `handleRebalance` -/

theorem resumable_committed_assign {r : Reader} {s : St} (hs : Resumable r s) (he : Empty s)
    {ps reply : List TopicPartition} (hr : r.committed s.trace ps = .ok reply) (err : Option Error) :
    Resumable r { s with trace := s.trace ++ [.committed ps (.ok reply)] ++
      [.assign (reply.map incrementOffset) err] } := by
  refine ⟨synced_quiet (synced_quiet hs.1 (Obs.quiet_of (o := .committed ps (.ok reply)) rfl (by simp)))
    (Obs.quiet_of (o := .assign _ err) rfl (by simp)), fun A ps' reply' B h => ?_⟩
  rcases snoc_eq_append_cons h with ⟨-, h', -⟩ | ⟨B', rfl, h2⟩
  · cases h'
  · rcases snoc_eq_append_cons h2 with ⟨rfl, h3, rfl⟩ | ⟨B'', rfl, h4⟩
    · cases h3
      exact ⟨caughtUp_of_synced hs.1 he, hr, err, [], rfl⟩
    · obtain ⟨hc, hr', err', B3, rfl⟩ := hs.2 A ps' reply' B'' h4
      exact ⟨hc, hr', err', B3 ++ [.committed ps (.ok reply), .assign (reply.map incrementOffset) err],
        by simp⟩

/-- The invariant with an empty tracker, as the tail of `handleRebalance` keeps it. -/
theorem resumable_empty_plainStable (r : Reader) :
    PlainStable fun s => Resumable r s ∧ Empty s := fun s o ho hs =>
  ⟨resumable_plainStable r s o ho hs.1, hs.2⟩

theorem keeps_handleRebalance_resumable (hw : c.reader.CommitsWhole) (ps : List TopicPartition) :
    Keeps c (Resumable c.reader) (handleRebalance ps) := by
  have hP := resumable_empty_plainStable c.reader
  simp only [handleRebalance, Loop.pure_bind]
  refine seq (Q := fun s => Resumable c.reader s ∧ CaughtUp s.trace) (resumable_commitOffsets hw) ?_
    (fun _ hs => hs.1)
  intro _ s hs
  simp only [bind_apply (modifyOffsets _), modifyOffsets_apply]
  refine ((?_ : Keeps c (fun s => Resumable c.reader s ∧ Empty s) _) _ ⟨resumable_clear hs, rfl⟩).1
  split
  · exact bind (onError' hP.loopStable _) fun _ => pure' _
  · intro s hs
    simp only [bind_apply, readerCommitted, readerCall_apply]
    cases hr : c.reader.committed s.trace ps with
    | error err =>
      simp only [hr]
      exact bind (onError' hP.loopStable _) (fun _ => pure' _) _
        ⟨resumable_append hs.1 (Obs.quiet_of rfl (by simp)) (by simp), hs.2⟩
    | ok reply =>
      have h2 := resumable_committed_assign hs.1 hs.2 hr
      simp only [hr, readerAssign, bind_apply, readerCall_apply]
      cases ha : c.reader.assign (s.trace ++ [.committed ps (.ok reply)]) (reply.map incrementOffset) with
      | some err =>
        simp only [ha]
        exact bind (onError' hP.loopStable _) (fun _ => pure' _) _ ⟨ha ▸ h2 _, hs.2⟩
      | none =>
        simp only [ha]
        exact bind (onRebalance' hP.loopStable _) (fun _ => pure' _) _ ⟨ha ▸ h2 _, hs.2⟩

/-! ### Whole runs -/

theorem keeps_loop_resumable (hw : c.reader.CommitsWhole) (inputs : List Input) :
    Keeps c (Resumable c.reader) (loop inputs) :=
  keeps_loop (keeps_listenStep (resumable_plainStable _).loopStable
    (fun _ _ hs => resumable_append hs (Obs.quiet_of rfl (by simp)) (by simp))
    (fun s hs => (resumable_commitOffsets hw s hs).1) (resumable_flushClear hw)
    (keeps_handleRebalance_resumable hw)
    (fun _ => keeps_handleMessage_of (resumable_plainStable _).loopStable
      (fun _ r _ hs => resumable_append hs
        (Obs.quiet_of (by cases r <;> simp_all [Obs.accepted]) (by simp)) (by simp))
      (fun _ he hs => resumable_accept hs he) fun s hs => (resumable_commitOffsets hw s hs).1)) inputs

/-! ### Every rebalance reads the committed offsets -/

/-- An entry of the flush: `CommitOffsets` and the callbacks after it. -/
def Obs.Flush : Obs → Prop
  | .commitOffsets _ _ | .onError _ _ | .onCommit _ _ _ _ => True
  | _ => False

/-- A callback of the flush that panicked. -/
def Obs.Panicked : Obs → Prop
  | .onError _ (.panic _) | .onCommit _ _ _ (.panic _) => True
  | _ => False

/-- What follows an `AssignedPartitions` event of `ps` in `B`: the entries of the flush,
and then the `Committed` call on `ps`, unless a callback of the flush panicked. -/
def ReadsCommitted (ps : List TopicPartition) (B : List Obs) : Prop :=
  ∃ F B', B = F ++ B' ∧ (∀ o ∈ F, o.Flush) ∧ ((∃ r B'', B' = .committed ps r :: B'') ∨ ∃ o ∈ F, o.Panicked)

theorem ReadsCommitted.append {ps : List TopicPartition} {B : List Obs} (h : ReadsCommitted ps B)
    (X : List Obs) : ReadsCommitted ps (B ++ X) := by
  obtain ⟨F, B', rfl, hF, (⟨r, B'', rfl⟩ | hp)⟩ := h
  · exact ⟨F, _, by simp, hF, .inl ⟨r, B'' ++ X, rfl⟩⟩
  · exact ⟨F, B' ++ X, by simp, hF, .inr hp⟩

/-- Every `AssignedPartitions` event of `T` whose partitions pass `checkPartitions` is
followed by the flush and the `Committed` call on its partitions. -/
def CommitsOnAssign (T : List Obs) : Prop :=
  ∀ A ps B, T = A ++ .event (.assignedPartitions ps) :: B → checkPartitions ps = none → ReadsCommitted ps B

/-- `x` adds only entries of the flush, and panics only after one that panicked. -/
def Flushes (x : Loop α) : Prop :=
  ∀ c s, ∃ F, (x c s).2.trace = s.trace ++ F ∧ (∀ o ∈ F, o.Flush) ∧
    ∀ v, (x c s).1 = .panic v → ∃ o ∈ F, o.Panicked

namespace Flushes

theorem pure (a : α) : Flushes (Pure.pure a) := fun _ _ => ⟨[], by simp, by simp, by simp⟩

theorem bind {x : Loop α} {f : α → Loop β} (hx : Flushes x) (hf : ∀ a, Flushes (f a)) :
    Flushes (x >>= f) := by
  intro c s
  obtain ⟨F, hF, hfl, hp⟩ := hx c s
  simp only [bind_apply]
  rcases h : x c s with ⟨a | v, s₁⟩ <;> rw [h] at hF hp
  · obtain ⟨G, hG, hgl, hq⟩ := hf a c s₁
    refine ⟨F ++ G, by rw [hG, hF, List.append_assoc], fun o ho => ?_, fun v hv => ?_⟩
    · rcases List.mem_append.mp ho with ho | ho
      exacts [hfl o ho, hgl o ho]
    · obtain ⟨o, ho, hpo⟩ := hq v hv
      exact ⟨o, List.mem_append_right _ ho, hpo⟩
  · exact ⟨F, hF, hfl, fun _ _ => hp v rfl⟩

theorem callback {answer : Consumer → List Obs → Outcome α} {record : Outcome α → Obs}
    (hr : ∀ a, (record a).Flush) (hp : ∀ v, (record (.panic v)).Panicked) :
    Flushes (Loop.callback answer record) := fun c s => by
  refine ⟨[record (answer c s.trace)], rfl, by simpa using hr _, fun v hv => ?_⟩
  simp only [callback_apply] at hv
  exact ⟨_, List.mem_singleton_self _, hv ▸ hp v⟩

theorem readerCall {answer : Reader → List Obs → α} {record : α → Obs} (hr : ∀ a, (record a).Flush) :
    Flushes (Loop.readerCall answer record) := fun c s =>
  ⟨[record (answer c.reader s.trace)], rfl, by simpa using hr _, by simp⟩

theorem offsets : Flushes Loop.offsets := fun _ _ => ⟨[], by simp, by simp, by simp⟩

theorem modifyOffsets (f : Offsets → Offsets) : Flushes (Loop.modifyOffsets f) :=
  fun _ _ => ⟨[], by simp, by simp, by simp⟩

theorem onError (err : Error) : Flushes (KafkaConsumer.onError err) :=
  callback (fun _ => trivial) fun _ => trivial

theorem commitEach (count : PartitionKey → Nat) :
    ∀ topic items, Flushes (KafkaConsumer.commitEach count topic items)
  | _, [] => pure _
  | _, _ :: rest => bind (modifyOffsets _) fun _ =>
      bind (callback (fun _ => trivial) fun _ => trivial) fun _ => commitEach count _ rest

theorem commitOffsets : Flushes KafkaConsumer.commitOffsets := by
  refine bind offsets fun o => ?_
  dsimp only
  split
  · refine bind (readerCall fun _ => trivial) fun r => ?_
    split
    · exact onError _
    · split
      exacts [onError _, commitEach _ _ _]
  · exact pure _

end Flushes

theorem readerCall_bind (answer : Reader → List Obs → α) (record : α → Obs) (f : α → Loop β) (c : Consumer)
    (s : St) : (Loop.readerCall answer record >>= f) c s =
      f (answer c.reader s.trace) c { s with trace := s.trace ++ [record (answer c.reader s.trace)] } := rfl

theorem callback_bind_pure_state (answer : Consumer → List Obs → Outcome α) (record : Outcome α → Obs)
    (b : β) (c : Consumer) (s : St) :
    ((Loop.callback answer record >>= fun _ => Pure.pure b) c s).2 =
      { s with trace := s.trace ++ [record (answer c s.trace)] } := by
  simp only [bind_apply, callback_apply]
  cases answer c s.trace <;> rfl

/-- **`handleRebalance` flushes and then calls `Committed` on its partitions**, unless a
callback of the flush panics, when they pass `checkPartitions`. -/
theorem handleRebalance_readsCommitted {ps : List TopicPartition} (hck : checkPartitions ps = none)
    (c : Consumer) (s : St) : ∃ H, (handleRebalance ps c s).2.trace = s.trace ++ H ∧ ReadsCommitted ps H := by
  obtain ⟨F, hF, hfl, hp⟩ := Flushes.commitOffsets c s
  simp only [handleRebalance, Loop.pure_bind, bind_apply]
  rcases h : commitOffsets c s with ⟨u | v, s₁⟩ <;> rw [h] at hF hp
  · simp only [modifyOffsets_apply, hck, readerCommitted, readerCall_bind]
    have hc : ∀ r X, ReadsCommitted ps (F ++ .committed ps r :: X) := fun r X => ⟨F, _, rfl, hfl, .inl ⟨r, X, rfl⟩⟩
    simp only at hF
    cases hr : c.reader.committed s₁.trace ps with
    | error err =>
      exact ⟨_, by simp only [hr, onError, callback_bind_pure_state, hF, List.append_assoc]; rfl, hc _ _⟩
    | ok reply =>
      simp only [hr, readerAssign, readerCall_bind]
      cases c.reader.assign _ _ <;>
        exact ⟨_, by simp only [onError, onRebalance, callback_bind_pure_state, hF, List.append_assoc]; rfl, hc _ _⟩
  · exact ⟨F, hF, F, [], by simp, hfl, .inr (hp v rfl)⟩

theorem commitsOnAssign_snoc {T : List Obs} (hT : CommitsOnAssign T) {o : Obs}
    (ho : ∀ ps, o ≠ .event (.assignedPartitions ps)) : CommitsOnAssign (T ++ [o]) := by
  intro A ps B h hck
  rcases snoc_eq_append_cons h with ⟨-, rfl, -⟩ | ⟨B', rfl, hT'⟩
  · exact absurd rfl (ho ps)
  · exact (hT A ps B' hT' hck).append [o]

/-- A trace with one more entry and then entries `H` that are no events, split around an
event. -/
theorem append_cons_eq_append_cons {T H A B : List Obs} {x y : Obs} (h : T ++ x :: H = A ++ y :: B)
    (hH : y ∉ H) : (A = T ∧ y = x ∧ B = H) ∨ ∃ B₀, B = B₀ ++ x :: H ∧ T = A ++ y :: B₀ := by
  rcases List.append_eq_append_iff.mp h with ⟨a', rfl, h'⟩ | ⟨c', rfl, h'⟩
  · cases a' with
    | nil => obtain ⟨rfl, rfl⟩ := List.cons.inj h'; exact .inl ⟨by simp, rfl, rfl⟩
    | cons z a'' =>
      obtain ⟨-, rfl⟩ := List.cons.inj h'
      exact absurd (List.mem_append_right _ (List.mem_cons_self _ _)) hH
  · cases c' with
    | nil => obtain ⟨rfl, rfl⟩ := List.cons.inj h'; exact .inl ⟨by simp, rfl, rfl⟩
    | cons z c'' => obtain ⟨rfl, rfl⟩ := List.cons.inj h'; exact .inr ⟨c'', rfl, rfl⟩

/-- `s`'s trace is `T` followed by entries that are no events. -/
def EventFree (T : List Obs) (s : St) : Prop := ∃ H, s.trace = T ++ H ∧ ∀ o ∈ H, ∀ ev, o ≠ .event ev

theorem eventFree_neutral (T : List Obs) : Neutral (EventFree T) := by
  refine ⟨fun s o ho ⟨H, hs, hH⟩ => ⟨H ++ [o], by simp [hs], fun x hx => ?_⟩, fun s _ h => h⟩
  rcases List.mem_append.mp hx with hx | hx
  exacts [hH x hx, List.mem_singleton.mp hx ▸ ho]

theorem exitOnError_state (x : Loop (Option Error)) (c : Consumer) (s : St) :
    (exitOnError x c s).2 = (x c s).2 := by
  simp only [exitOnError, bind_apply]
  rcases x c s with ⟨(_ | _) | _, _⟩ <;> rfl

/-- The `AssignedPartitions` event and its handler keep `CommitsOnAssign`. -/
theorem commitsOnAssign_rebalance (c : Consumer) (ps : List TopicPartition) (s : St)
    (hs : CommitsOnAssign s.trace) :
    CommitsOnAssign ((selected (.event (.assignedPartitions ps)) >>= fun _ =>
      exitOnError (handleRebalance ps)) c s).2.trace := by
  simp only [bind_apply, selected_apply, exitOnError_state]
  set s₁ : St := { s with trace := s.trace ++ [.event (.assignedPartitions ps)] }
  obtain ⟨H, hH, hev⟩ := (eventFree_neutral s₁.trace).keeps_handleRebalance (c := c) ps s₁ ⟨[], by simp, by simp⟩
  rw [hH]
  intro A ps' B h hck
  rw [List.append_assoc, List.singleton_append] at h
  rcases append_cons_eq_append_cons h fun hm => hev _ hm _ rfl with ⟨rfl, he, rfl⟩ | ⟨B₀, rfl, hT⟩
  · cases he
    obtain ⟨H', hH', hr⟩ := handleRebalance_readsCommitted hck c s₁
    exact List.append_cancel_left (hH'.symm.trans hH) ▸ hr
  · exact (hs A ps' B₀ hT hck).append _

theorem commitsOnAssign_neutral : Neutral fun s => CommitsOnAssign s.trace :=
  ⟨fun _ _ ho hs => commitsOnAssign_snoc hs fun _ e => ho _ e, fun _ _ h => h⟩

theorem keeps_loop_commitsOnAssign (inputs : List Input) :
    Keeps c (fun s => CommitsOnAssign s.trace) (loop inputs) :=
  have hN := commitsOnAssign_neutral
  keeps_loop (keeps_listenStep_of hN.plainStable.loopStable
    (fun _ _ hev hs => commitsOnAssign_snoc hs fun ps e => hev ps (Obs.event.inj e))
    hN.keeps_commitOffsets (bind hN.keeps_commitOffsets fun _ => modifyOffsets' fun s hs => hN.2 s _ hs)
    (fun ps s hs => commitsOnAssign_rebalance c ps s hs) hN.keeps_handleMessage) inputs

/-- **Resuming after a rebalance.**  In every run of `listen`, each `AssignedPartitions`
event whose partitions pass `checkPartitions` is followed by the flush and then a
`Committed` call on exactly those partitions, unless a callback of the flush panicked.
When every commit goes through and the broker answers `Committed` with the offsets it
holds, at every `Committed` call the last commit of each partition is its last accepted
message, the reply carries the offsets committed last (or held from before the run), and
the next call is `Assign` with the reply resumed: the same partitions in the same order,
each one past its offset in `int64` arithmetic, or at it when it is negative. -/
theorem rebalance_resumes_after_last_commit (c : Consumer) (inputs : List Input) (o : Offsets)
    (init : PartitionKey → Offset) (hw : c.reader.CommitsWhole)
    (hcom : ∀ h ps reply, c.reader.committed h ps = .ok reply →
      ∀ d ∈ reply, d.offset = committedOffset init h d.key) :
    (∀ A ps B, (listen inputs c ⟨o, []⟩).2.trace = A ++ .event (.assignedPartitions ps) :: B →
      checkPartitions ps = none →
      ∃ F B', B = F ++ B' ∧ (∀ e ∈ F, e.Flush) ∧
        ((∃ r B'', B' = .committed ps r :: B'') ∨ ∃ e ∈ F, e.Panicked)) ∧
    ∀ A ps reply B, (listen inputs c ⟨o, []⟩).2.trace = A ++ .committed ps (.ok reply) :: B →
      CaughtUp A ∧ (∀ d ∈ reply, d.offset = committedOffset init A d.key) ∧
        ∃ err B', B = .assign (reply.map incrementOffset) err :: B' ∧
          List.Forall₂ Resumed reply (reply.map incrementOffset) := by
  have hN := commitsOnAssign_neutral
  have hq : ∀ err, (Obs.subscribeTopics c.topics err).Quiet := fun _ => Obs.quiet_of rfl (by simp)
  have h0 : ∀ err, Resumable c.reader ⟨Offsets.empty, [] ++ [.subscribeTopics c.topics err]⟩ ∧
      CommitsOnAssign ([] ++ [.subscribeTopics c.topics err]) :=
    fun _ => ⟨resumable_append (s := ⟨Offsets.empty, []⟩) ⟨fun _ => rfl, fun _ _ _ _ h => by simp at h⟩
      (hq _) (by simp), commitsOnAssign_snoc (fun _ _ _ h => by simp at h) (by simp)⟩
  have hrun : ResumesAfter c.reader (listen inputs c ⟨o, []⟩).2.trace ∧
      CommitsOnAssign (listen inputs c ⟨o, []⟩).2.trace := by
    rw [listen_apply]
    cases c.reader.subscribeTopics [] c.topics with
    | some err => exact ⟨(h0 _).1.2, (h0 _).2⟩
    | none =>
      exact ⟨(deferring' (deferring' (keeps_loop_resumable hw inputs)
        fun s hs => (resumable_commitOffsets hw s hs).1)
        (keeps_closeReader (resumable_plainStable _)
          fun _ _ hs => resumable_append hs (Obs.quiet_of rfl (by simp)) (by simp)) _ (h0 _).1).2,
        deferring' (I := fun s => CommitsOnAssign s.trace)
          (deferring' (I := fun s => CommitsOnAssign s.trace) (keeps_loop_commitsOnAssign inputs)
            hN.keeps_commitOffsets)
          (keeps_closeReader hN.plainStable fun s _ hs => hN.1 s _ (by simp) hs) _ (h0 _).2⟩
  refine ⟨hrun.2, fun A ps reply B h => ?_⟩
  obtain ⟨hc, hr, err, B', hB⟩ := hrun.1 A ps reply B h
  exact ⟨hc, hcom A ps reply hr, err, B', hB,
    List.forall₂_map_right_iff.mpr (List.forall₂_same.mpr fun d _ => incrementOffset_resumed d)⟩

/-- A broker serving one consumer: no call fails, every commit is taken whole, and
`Committed` answers with the offsets held, `init` for those never committed. -/
def brokerReader (init : PartitionKey → Offset) : Reader where
  subscribeTopics _ _ := none
  commitOffsets _ l := .ok (l.map fun d => { d with error := none })
  committed h ps := .ok (ps.map fun p => { p with offset := committedOffset init h p.key })
  assign _ _ := none
  unassign _ := none
  unsubscribe _ := none
  close _ := none

/-- A consumer of topic `orders` on `brokerReader` whose callbacks accept every message
and return normally; it commits on the ticker and at the boundaries only. -/
def brokerConsumer (init : PartitionKey → Offset) : Consumer where
  commitOffsetCount := 0
  topics := ["orders"]
  reader := brokerReader init
  onCommit _ _ _ _ _ := .ok ()
  onError _ _ := .ok ()
  onProcess _ _ := .ok none
  onRevoke _ _ := .ok ()
  onRebalance _ _ := .ok ()

theorem brokerReader_commitsWhole (init : PartitionKey → Offset) : (brokerReader init).CommitsWhole :=
  fun _ _ => ⟨_, rfl, by simp, fun d hd => List.mem_map.mpr ⟨_, List.mem_map_of_mem _ hd, rfl⟩⟩

theorem brokerReader_committed (init : PartitionKey → Offset) (h : List Obs)
    (ps reply : List TopicPartition) (hr : (brokerReader init).committed h ps = .ok reply) :
    ∀ d ∈ reply, d.offset = committedOffset init h d.key := by
  cases hr
  intro d hd
  obtain ⟨p, -, rfl⟩ := List.mem_map.mp hd
  rfl

/-- Partition 0 of topic `orders` at `offset`. -/
def ordersAt (offset : Offset) : TopicPartition := ⟨some "orders", 0, offset, none⟩

theorem rebalance_resumes_after_last_commit_broker :
    (brokerReader fun _ => offsetInvalid).CommitsWhole ∧
      (∀ h ps reply, (brokerReader fun _ => offsetInvalid).committed h ps = .ok reply →
        ∀ d ∈ reply, d.offset = committedOffset (fun _ => offsetInvalid) h d.key) ∧
      (∀ A ps B, (listen [.event (.message ⟨ordersAt 41⟩), .event (.assignedPartitions [ordersAt offsetInvalid])]
          (brokerConsumer fun _ => offsetInvalid) ⟨Offsets.empty, []⟩).2.trace =
          A ++ .event (.assignedPartitions ps) :: B →
        checkPartitions ps = none →
        ∃ F B', B = F ++ B' ∧ (∀ e ∈ F, e.Flush) ∧
          ((∃ r B'', B' = .committed ps r :: B'') ∨ ∃ e ∈ F, e.Panicked)) ∧
      ∀ A ps reply B, (listen [.event (.message ⟨ordersAt 41⟩), .event (.assignedPartitions [ordersAt offsetInvalid])]
          (brokerConsumer fun _ => offsetInvalid) ⟨Offsets.empty, []⟩).2.trace =
          A ++ .committed ps (.ok reply) :: B →
        CaughtUp A ∧ (∀ d ∈ reply, d.offset = committedOffset (fun _ => offsetInvalid) A d.key) ∧
          ∃ err B', B = .assign (reply.map incrementOffset) err :: B' ∧
            List.Forall₂ Resumed reply (reply.map incrementOffset) :=
  ⟨brokerReader_commitsWhole _, brokerReader_committed _,
    rebalance_resumes_after_last_commit _ _ _ _ (brokerReader_commitsWhole _) (brokerReader_committed _)⟩

/-- The events of the wrap-around run: a message at the largest `int64` offset, then a
rebalance that assigns its partition. -/
def wrapInputs : List Input :=
  [.event (.message ⟨ordersAt (BitVec.ofInt 64 (2 ^ 63 - 1))⟩),
    .event (.assignedPartitions [ordersAt offsetInvalid])]

theorem assign_wraps_at_max_offset :
    (brokerReader fun _ => offsetInvalid).CommitsWhole ∧
      ∃ A B, (listen wrapInputs (brokerConsumer fun _ => offsetInvalid) ⟨Offsets.empty, []⟩).2.trace =
          A ++ .committed [ordersAt offsetInvalid] (.ok [ordersAt (BitVec.ofInt 64 (2 ^ 63 - 1))]) ::
            .assign [ordersAt (BitVec.ofInt 64 (-2 ^ 63))] none :: B ∧
        (committedOffset (fun _ => offsetInvalid) A (ordersAt 0).key).toInt = 2 ^ 63 - 1 ∧
        (ordersAt (BitVec.ofInt 64 (-2 ^ 63))).offset.toInt ≠ 2 ^ 63 - 1 + 1 :=
  -- the run's trace, evaluated once
  have htr : (listen wrapInputs (brokerConsumer fun _ => offsetInvalid) ⟨Offsets.empty, []⟩).2.trace =
      [.subscribeTopics ["orders"] none, .event (.message ⟨ordersAt (BitVec.ofInt 64 (2 ^ 63 - 1))⟩),
        .onProcess ⟨ordersAt (BitVec.ofInt 64 (2 ^ 63 - 1))⟩ (.ok none),
        .event (.assignedPartitions [ordersAt offsetInvalid]),
        .commitOffsets [ordersAt (BitVec.ofInt 64 (2 ^ 63 - 1))] (.ok [ordersAt (BitVec.ofInt 64 (2 ^ 63 - 1))]),
        .onCommit "orders" (ordersAt (BitVec.ofInt 64 (2 ^ 63 - 1))) 1 (.ok ())] ++
      .committed [ordersAt offsetInvalid] (.ok [ordersAt (BitVec.ofInt 64 (2 ^ 63 - 1))]) ::
        .assign [ordersAt (BitVec.ofInt 64 (-2 ^ 63))] none :: [.onRebalance [ordersAt offsetInvalid] (.ok ())] :=
    rfl
  ⟨brokerReader_commitsWhole _, _, _, htr, by decide, by decide⟩

end KafkaConsumer
