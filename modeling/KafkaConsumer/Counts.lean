import KafkaConsumer.Invariant

/-!
# Commit counts

`commit_counts_match_accepted`: whenever each `CommitOffsets` call fails or acknowledges
distinct partitions of its input, the counts passed to `OnCommit` for a partition never add
up to more than the messages on it that `OnProcess` accepted; when every call acknowledges
its whole input and `OnCommit` returns normally, the two are equal when `listen` calls
`Close`.  Both halves are invariants of the loop, `Bounded` and `Exact`, over
`St.reported`: the counts reported so far plus the counts still in the tracker.
-/

namespace KafkaConsumer

open Loop Keeps

/-! ### Counting along the trace -/

/-- `1` at an entry that accepts a message on key `k`. -/
def Obs.acceptedFor (k : PartitionKey) (o : Obs) : Nat :=
  if o.accepted.map TopicPartition.key = some k then 1 else 0

/-- The count an entry passes to `OnCommit` for a descriptor of key `k`. -/
def Obs.committedFor (k : PartitionKey) : Obs → Nat
  | .onCommit _ tp n _ => if tp.key = k then n else 0
  | _ => 0

def acceptedCount (k : PartitionKey) (T : List Obs) : Nat :=
  (T.map (Obs.acceptedFor k)).sum

def committedCount (k : PartitionKey) (T : List Obs) : Nat :=
  (T.map (Obs.committedFor k)).sum

@[simp] theorem acceptedCount_append (k : PartitionKey) (T : List Obs) (o : Obs) :
    acceptedCount k (T ++ [o]) = acceptedCount k T + o.acceptedFor k := by
  simp [acceptedCount, List.sum_append]

@[simp] theorem committedCount_append (k : PartitionKey) (T : List Obs) (o : Obs) :
    committedCount k (T ++ [o]) = committedCount k T + o.committedFor k := by
  simp [committedCount, List.sum_append]

def Obs.Uncounted (o : Obs) : Prop :=
  ∀ k, o.acceptedFor k = 0 ∧ o.committedFor k = 0

theorem Obs.uncounted_of {o : Obs} (ha : o.accepted = none)
    (hc : ∀ t tp n r, o ≠ .onCommit t tp n r) : o.Uncounted := fun k => by
  cases o <;> first | exact absurd rfl (hc _ _ _ _) | simp_all [Obs.acceptedFor, Obs.committedFor]

theorem Obs.Plain.uncounted {o : Obs} (ho : o.Plain) : o.Uncounted :=
  Obs.uncounted_of (by cases o <;> simp_all [Obs.Plain, Obs.accepted]) (by rintro _ _ _ _ rfl; exact ho)

/-- What the loop has reported to `OnCommit` for key `k`, or still holds for it. -/
def St.reported (s : St) (k : PartitionKey) : Nat :=
  committedCount k s.trace + s.offsets.count k

theorem reported_uncounted {s : St} {o : Obs} (ho : o.Uncounted) (k : PartitionKey) :
    St.reported { s with trace := s.trace ++ [o] } k = s.reported k ∧
      acceptedCount k (s.trace ++ [o]) = acceptedCount k s.trace := by
  simp [St.reported, (ho k).1, (ho k).2]

/-- A turn of the `for` over the success list, `Remove` then `OnCommit` with the count
the tracker held, moves that count from the tracker to `OnCommit`. -/
theorem reported_commitStep (s : St) (item : TopicPartition) (t : String) (r : Outcome Unit)
    (k : PartitionKey) :
    St.reported ⟨s.offsets.remove item, s.trace ++ [.onCommit t item (s.offsets.count item.key) r]⟩ k =
      s.reported k ∧
    acceptedCount k (s.trace ++ [.onCommit t item (s.offsets.count item.key) r]) =
      acceptedCount k s.trace := by
  simp only [St.reported, committedCount_append, acceptedCount_append, Obs.committedFor,
    Obs.acceptedFor, Obs.accepted, Offsets.count_remove, Option.map_none]
  constructor
  · split <;> simp_all
  · simp

/-- An accepted message counts one more for its key, in the tracker and in the trace. -/
theorem reported_accept (s : St) {e : Message} (he : e.topicPartition.error = none)
    (k : PartitionKey) :
    St.reported ⟨s.offsets.add e.topicPartition, s.trace ++ [.onProcess e (.ok none)]⟩ k =
      s.reported k + (if e.topicPartition.key = k then 1 else 0) ∧
    acceptedCount k (s.trace ++ [.onProcess e (.ok none)]) =
      acceptedCount k s.trace + (if e.topicPartition.key = k then 1 else 0) := by
  simp only [St.reported, committedCount_append, acceptedCount_append, Obs.committedFor,
    Obs.acceptedFor, Obs.accepted, he, Offsets.count_add, if_true, Option.map_some', Option.some.injEq]
  exact ⟨by split <;> omega, trivial⟩

/-! ### The flush, for any invariant of its steps -/

/-- Each `CommitOffsets` call the loop can make (distinct partitions) fails or
acknowledges distinct partitions of its input. -/
def Reader.CommitsDistinct (r : Reader) : Prop :=
  ∀ h l, (l.map TopicPartition.key).Nodup → ∀ success, r.commitOffsets h l = .ok success →
    (success.map TopicPartition.key).Nodup ∧ ∀ d ∈ success, d.key ∈ l.map TopicPartition.key

variable {c : Consumer} {I : St → Prop}

/-- The `for` over distinct partitions keeps every invariant that one of its turns
keeps, while the tracker still holds the snapshot's count of each item to come. -/
theorem keeps_commitEach_of {cnt : PartitionKey → Nat}
    (hstep : ∀ s item t r, I s →
      I ⟨s.offsets.remove item, s.trace ++ [.onCommit t item (s.offsets.count item.key) r]⟩) :
    ∀ topic items, (items.map TopicPartition.key).Nodup → ∀ s, I s →
      (∀ d ∈ items, s.offsets.count d.key = cnt d.key) → I (commitEach cnt topic items c s).2
  | _, [], _, _, hs, _ => hs
  | topic, item :: rest, hnd, s, hs, hcnt => by
    rw [List.map_cons, List.nodup_cons] at hnd
    simp only [commitEach, bind_apply (modifyOffsets _), modifyOffsets_apply]
    refine seq (P := (· = _)) (Q := fun s' => I s' ∧ ∀ d ∈ rest, s'.offsets.count d.key = cnt d.key)
      ?_ (fun _ s' hs' => keeps_commitEach_of hstep _ rest hnd.2 s' hs'.1 hs'.2)
      (fun _ hs' => hs'.1) _ rfl
    rintro _ rfl
    simp only [onCommit, callback_apply, getPartitionKey_eq_key]
    refine ⟨?_, fun d hd => ?_⟩
    · rw [← hcnt item (List.mem_cons_self _ _)]
      exact hstep s item _ _ hs
    · have hne : item.key ≠ d.key := fun h => hnd.1 (h ▸ List.mem_map_of_mem _ hd)
      simp only [Offsets.count_remove, hne, if_false]
      exact hcnt d (List.mem_cons_of_mem _ hd)

/-- `commitOffsets` keeps every invariant that its entries and the turns of its `for`
keep, when the reader acknowledges distinct partitions. -/
theorem keeps_commitOffsets_of (hdist : c.reader.CommitsDistinct) (hI : PlainStable I)
    (hcall : ∀ s l r, I s → I { s with trace := s.trace ++ [.commitOffsets l r] })
    (hstep : ∀ s item t r, I s →
      I ⟨s.offsets.remove item, s.trace ++ [.onCommit t item (s.offsets.count item.key) r]⟩) :
    Keeps c I commitOffsets := by
  intro s hs
  simp only [commitOffsets, Loop.pure_bind, bind_apply, offsets_apply]
  split
  · simp only [readerCommitOffsets, bind_apply, readerCall_apply]
    have hs1 := hcall s s.offsets.get.1 (c.reader.commitOffsets s.trace s.offsets.get.1) hs
    cases hr : c.reader.commitOffsets s.trace s.offsets.get.1 with
    | error err =>
      simp only [hr] at hs1 ⊢
      exact onError' hI.loopStable _ _ hs1
    | ok success =>
      simp only [hr] at hs1 ⊢
      obtain ⟨hnd, -⟩ := hdist _ _ (Offsets.get_nodup _) _ hr
      cases hc : checkPartitions success with
      | some err =>
        simp only [hc]
        exact onError' hI.loopStable _ _ hs1
      | none =>
        simp only [hc]
        exact keeps_commitEach_of hstep _ _ hnd _ hs1 fun _ _ => rfl
  · exact hs

/-! ### Never more than accepted -/

/-- At every prefix of the trace, the counts passed to `OnCommit` for a key are at
most the messages accepted on it. -/
def ReportsBounded (T : List Obs) : Prop :=
  ∀ n k, committedCount k (T.take n) ≤ acceptedCount k (T.take n)

theorem reportsBounded_append {T : List Obs} {o : Obs} (hT : ReportsBounded T)
    (h : ∀ k, committedCount k (T ++ [o]) ≤ acceptedCount k (T ++ [o])) :
    ReportsBounded (T ++ [o]) := fun n k => by
  rcases Nat.lt_or_ge T.length n with hn | hn
  · rw [List.take_of_length_le (by simp; omega)]
    exact h k
  · rw [List.take_append_of_le_length hn]
    exact hT n k

/-- The bound, on the counts still pending too, and at every prefix. -/
def Bounded (s : St) : Prop :=
  (∀ k, s.reported k ≤ acceptedCount k s.trace) ∧ ReportsBounded s.trace

theorem bounded_empty : Bounded ⟨Offsets.empty, []⟩ :=
  ⟨fun _ => Nat.le_refl _, fun _ _ => by simp [committedCount]⟩

theorem bounded_snoc {s s' : St} {o : Obs} (hs : Bounded s) (htr : s'.trace = s.trace ++ [o])
    (h : ∀ k, s'.reported k ≤ acceptedCount k s'.trace) : Bounded s' :=
  ⟨h, htr ▸ reportsBounded_append hs.2 fun k => htr ▸ (Nat.le_add_right _ _).trans (h k)⟩

theorem bounded_uncounted {s : St} {o : Obs} (hs : Bounded s) (ho : o.Uncounted) :
    Bounded { s with trace := s.trace ++ [o] } :=
  bounded_snoc hs rfl fun k => by
    dsimp only
    rw [(reported_uncounted ho k).1, (reported_uncounted ho k).2]
    exact hs.1 k

theorem bounded_plainStable : PlainStable Bounded := fun _ _ ho hs =>
  bounded_uncounted hs ho.uncounted

theorem bounded_offsets {s : St} (hs : Bounded s) {o : Offsets} (ho : ∀ k, o.count k ≤ s.offsets.count k) :
    Bounded { s with offsets := o } :=
  ⟨fun k => (Nat.add_le_add_left (ho k) _).trans (hs.1 k), hs.2⟩

theorem keeps_commitOffsets_bounded (hdist : c.reader.CommitsDistinct) :
    Keeps c Bounded commitOffsets :=
  keeps_commitOffsets_of hdist bounded_plainStable
    (fun _ _ _ hs => bounded_uncounted hs (Obs.uncounted_of rfl (by simp)))
    fun s item t r hs => bounded_snoc hs rfl fun k => by
      dsimp only
      rw [(reported_commitStep s item t r k).1, (reported_commitStep s item t r k).2]
      exact hs.1 k

theorem keeps_handleMessage_bounded (hdist : c.reader.CommitsDistinct) (e : Message) :
    Keeps c Bounded (handleMessage e) :=
  keeps_handleMessage_of bounded_plainStable.loopStable
    (fun _ r hr hs => bounded_uncounted hs
      (Obs.uncounted_of (by cases r <;> simp_all [Obs.accepted]) (by simp)))
    (fun s he hs => bounded_snoc hs rfl fun k => by
      dsimp only
      rw [(reported_accept s he k).1, (reported_accept s he k).2]
      exact Nat.add_le_add_right (hs.1 k) _)
    (keeps_commitOffsets_bounded hdist)

theorem bounded_flushClear (hdist : c.reader.CommitsDistinct) :
    Keeps c Bounded (commitOffsets >>= fun _ => modifyOffsets (·.clear)) :=
  bind (keeps_commitOffsets_bounded hdist) fun _ =>
    modifyOffsets' fun _ hs => bounded_offsets hs fun _ => by simp

theorem keeps_loop_bounded (hdist : c.reader.CommitsDistinct) (inputs : List Input) :
    Keeps c Bounded (loop inputs) :=
  keeps_loop (keeps_listenStep bounded_plainStable.loopStable
    (fun _ _ hs => bounded_uncounted hs (Obs.uncounted_of rfl (by simp)))
    (keeps_commitOffsets_bounded hdist)
    (bounded_flushClear hdist)
    (keeps_handleRebalance bounded_plainStable.loopStable
      (fun _ _ _ hs => bounded_uncounted hs (Obs.uncounted_of rfl (by simp))) (bounded_flushClear hdist))
    (keeps_handleMessage_bounded hdist)) inputs

/-! ### Exactly the accepted ones at `Close` -/

/-- Where the trace calls `Close`, the counts passed to `OnCommit` for each key so far
are the messages accepted on it. -/
def ReportsExact (T : List Obs) : Prop :=
  ∀ A r B, T = A ++ .close r :: B → ∀ k, committedCount k A = acceptedCount k A

/-- Reported plus pending is exactly accepted, and every `Close` so far came when the
two agreed. -/
def Exact (s : St) : Prop :=
  (∀ k, s.reported k = acceptedCount k s.trace) ∧ ReportsExact s.trace

def Consumer.CommitReturns (c : Consumer) : Prop :=
  ∀ h t p x n, c.onCommit h t p x n = .ok ()

theorem reportsExact_append {T : List Obs} {o : Obs} (hT : ReportsExact T) (hc : ∀ r, o ≠ .close r) :
    ReportsExact (T ++ [o]) := fun A r B h => by
  rcases snoc_eq_append_cons h with ⟨-, rfl, -⟩ | ⟨B', -, hT'⟩
  · exact absurd rfl (hc r)
  · exact hT A r B' hT'

theorem exact_append {s : St} {o : Obs} (hs : Exact s) (ho : o.Uncounted) (hc : ∀ r, o ≠ .close r) :
    Exact { s with trace := s.trace ++ [o] } := by
  refine ⟨fun k => ?_, reportsExact_append hs.2 hc⟩
  dsimp only
  rw [(reported_uncounted ho k).1, (reported_uncounted ho k).2]
  exact hs.1 k

theorem exact_empty : Exact ⟨Offsets.empty, []⟩ :=
  ⟨fun _ => rfl, fun _ _ _ h => by simp at h⟩

theorem exact_plainStable : PlainStable Exact := fun _ o ho hs =>
  exact_append hs ho.uncounted (by rintro r rfl; exact ho)

/-- `Close` on an empty tracker comes when the counts reported are the accepted ones. -/
theorem exact_close {s : St} (hs : Exact s) (he : Empty s) (r : Option Error) :
    Exact { s with trace := s.trace ++ [.close r] } := by
  have hu : (Obs.close r).Uncounted := Obs.uncounted_of rfl (by simp)
  refine ⟨fun k => ?_, fun A r' B h => ?_⟩
  · dsimp only
    rw [(reported_uncounted hu k).1, (reported_uncounted hu k).2]
    exact hs.1 k
  · rcases snoc_eq_append_cons h with ⟨rfl, -, -⟩ | ⟨B', -, hT⟩
    · intro k
      simpa [St.reported, Offsets.count_of_entries_nil he] using hs.1 k
    · exact hs.2 A r' B' hT

theorem commitEach_ok_find {cnt : PartitionKey → Nat} :
    ∀ {topic : String} {items : List TopicPartition} {s : St},
      (commitEach cnt topic items c s).1 = .ok () → ∀ k,
        (commitEach cnt topic items c s).2.offsets.find k =
          if k ∈ items.map TopicPartition.key then none else s.offsets.find k
  | _, [], _, _, k => by simp [commitEach]
  | topic, item :: rest, s, h, k => by
    simp only [commitEach, bind_apply, modifyOffsets_apply, onCommit, callback_apply] at h ⊢
    generalize c.onCommit s.trace (item.topic.getD topic) item.partition item.offset
      (cnt (getPartitionKey item.topic item.partition)) = r at h ⊢
    cases r with
    | panic v => cases h
    | ok u =>
      rw [commitEach_ok_find h, Offsets.find_remove]
      by_cases e : item.key = k
      · simp [e]
      · simp [e, Ne.symm e]

theorem commitEach_ok (hoc : c.CommitReturns) (cnt : PartitionKey → Nat) :
    ∀ topic items s, (commitEach cnt topic items c s).1 = .ok ()
  | _, [], _ => rfl
  | topic, item :: rest, s => by
    simp only [commitEach, bind_apply, modifyOffsets_apply, onCommit, callback_apply,
      show ∀ h t p x n, c.onCommit h t p x n = .ok () from hoc]
    exact commitEach_ok hoc cnt _ rest _

/-- When every commit goes through, a flush that runs to its end empties the tracker. -/
theorem commitOffsets_ok_empty (hw : c.reader.CommitsWhole) {s : St} (h : (commitOffsets c s).1 = .ok ()) :
    Empty (commitOffsets c s).2 := by
  by_cases hl : 0 < s.offsets.get.1.length
  · obtain ⟨success, hcov, heq⟩ := commitOffsets_of_whole hw s hl
    rw [heq] at h ⊢
    refine Offsets.entries_eq_nil fun k => ?_
    rw [commitEach_ok_find h]
    split
    · rfl
    · rename_i hk
      exact Offsets.find_eq_none fun hmem => by
        obtain ⟨d, hd, rfl⟩ := List.mem_map.mp hmem
        exact hk (hcov d hd)
  · have he : s.offsets.entries = [] := by simpa [Offsets.get] using hl
    rw [commitOffsets_of_empty he]
    exact he

/-- When every commit goes through and `OnCommit` returns, the flush empties the tracker. -/
theorem commitOffsets_empty (hw : c.reader.CommitsWhole) (hoc : c.CommitReturns) (s : St) :
    Empty (commitOffsets c s).2 := by
  refine commitOffsets_ok_empty hw ?_
  by_cases hl : 0 < s.offsets.get.1.length
  · obtain ⟨_, -, heq⟩ := commitOffsets_of_whole hw s hl
    rw [heq]
    exact commitEach_ok hoc _ _ _ _
  · rw [commitOffsets_of_empty (by simpa [Offsets.get] using hl)]

theorem keeps_commitOffsets_exact (hdist : c.reader.CommitsDistinct) :
    Keeps c Exact commitOffsets :=
  keeps_commitOffsets_of hdist exact_plainStable
    (fun _ _ _ hs => exact_append hs (Obs.uncounted_of rfl (by simp)) (by simp))
    fun s item t r hs => ⟨fun k => by
      dsimp only
      rw [(reported_commitStep s item t r k).1, (reported_commitStep s item t r k).2]
      exact hs.1 k, reportsExact_append hs.2 (by simp)⟩

theorem exact_flushClear (hdist : c.reader.CommitsDistinct) (hw : c.reader.CommitsWhole)
    (hoc : c.CommitReturns) : Keeps c Exact (commitOffsets >>= fun _ => modifyOffsets (·.clear)) :=
  seq (Q := fun s => Exact s ∧ Empty s)
    (fun s hs => ⟨keeps_commitOffsets_exact hdist s hs, commitOffsets_empty hw hoc s⟩)
    (fun _ s hs => by simp only [modifyOffsets_apply, clear_of_empty hs.2]; exact hs.1)
    (fun _ hs => hs.1)

theorem keeps_loop_exact (hdist : c.reader.CommitsDistinct) (hw : c.reader.CommitsWhole)
    (hoc : c.CommitReturns) (inputs : List Input) : Keeps c Exact (loop inputs) :=
  keeps_loop (keeps_listenStep exact_plainStable.loopStable
    (fun _ _ hs => exact_append hs (Obs.uncounted_of rfl (by simp)) (by simp))
    (keeps_commitOffsets_exact hdist) (exact_flushClear hdist hw hoc)
    (keeps_handleRebalance exact_plainStable.loopStable
      (fun _ _ _ hs => exact_append hs (Obs.uncounted_of rfl (by simp)) (by simp))
      (exact_flushClear hdist hw hoc))
    (fun _ => keeps_handleMessage_of exact_plainStable.loopStable
      (fun _ r _ hs => exact_append hs
        (Obs.uncounted_of (by cases r <;> simp_all [Obs.accepted]) (by simp)) (by simp))
      (fun s he hs => ⟨fun k => by
        dsimp only
        rw [(reported_accept s he k).1, (reported_accept s he k).2, hs.1 k],
        reportsExact_append hs.2 (by simp)⟩)
      (keeps_commitOffsets_exact hdist))) inputs

/-- The loop with its two defers: the last flush empties the tracker, so `Close`
comes when every accepted message has been reported. -/
theorem exact_deferred (hdist : c.reader.CommitsDistinct) (hw : c.reader.CommitsWhole)
    (hoc : c.CommitReturns) (inputs : List Input) {s : St} (hs : Exact s) :
    Exact (deferring (deferring (loop inputs) commitOffsets) closeReader c s).2 := by
  have hloop := keeps_loop_exact hdist hw hoc inputs s hs
  rcases deferring_cases (loop inputs) commitOffsets c s with ⟨hwait, h1⟩ | ⟨-, h1⟩
  · rcases deferring_cases (deferring (loop inputs) commitOffsets) closeReader c s with
      ⟨-, h2⟩ | ⟨hrun, -⟩
    · rw [h2, h1]
      exact hloop
    · exact absurd (by rw [h1]; exact hwait) hrun
  · have hin : Exact (deferring (loop inputs) commitOffsets c s).2 ∧
        Empty (deferring (loop inputs) commitOffsets c s).2 := by
      rw [h1]
      exact ⟨keeps_commitOffsets_exact hdist _ hloop, commitOffsets_empty hw hoc _⟩
    rcases deferring_cases (deferring (loop inputs) commitOffsets) closeReader c s with
      ⟨-, h2⟩ | ⟨-, h2⟩
    · rw [h2]
      exact hin.1
    · rw [h2]
      exact (keeps_closeReader (I := fun s => Exact s ∧ Empty s)
        (fun s o ho hs => ⟨exact_plainStable s o ho hs.1, hs.2⟩)
        (fun s r hs => ⟨exact_close hs.1 hs.2 r, hs.2⟩) _ hin).1

/-- **Commit counts are neither lost nor duplicated.**  When every `CommitOffsets` call
fails or acknowledges distinct partitions of its input, at every point of every run
of `listen` the counts passed to `OnCommit` for a partition are at most the messages
on it that `OnProcess` accepted; when moreover every call acknowledges its whole input
and `OnCommit` returns normally, the two are equal wherever `listen` calls `Close`. -/
theorem commit_counts_match_accepted (c : Consumer) (inputs : List Input) (o : Offsets)
    (hdist : c.reader.CommitsDistinct) :
    ReportsBounded (listen inputs c ⟨o, []⟩).2.trace ∧
      (c.reader.CommitsWhole → c.CommitReturns →
        ReportsExact (listen inputs c ⟨o, []⟩).2.trace) := by
  have hu : ∀ err, (Obs.subscribeTopics c.topics err).Uncounted :=
    fun _ => Obs.uncounted_of rfl (by simp)
  have hb : ∀ err, Bounded ⟨Offsets.empty, [] ++ [.subscribeTopics c.topics err]⟩ :=
    fun _ => bounded_uncounted bounded_empty (hu _)
  have he : ∀ err, Exact ⟨Offsets.empty, [] ++ [.subscribeTopics c.topics err]⟩ :=
    fun _ => exact_append exact_empty (hu _) (by simp)
  rw [listen_apply]
  cases c.reader.subscribeTopics [] c.topics with
  | some err => exact ⟨(hb _).2, fun _ _ => (he _).2⟩
  | none =>
    refine ⟨(deferring' (deferring' (keeps_loop_bounded hdist inputs) (keeps_commitOffsets_bounded hdist))
      (keeps_closeReader bounded_plainStable fun _ _ hs =>
        bounded_uncounted hs (Obs.uncounted_of rfl (by simp))) _ (hb _)).2, fun hw hoc => ?_⟩
    exact (exact_deferred hdist hw hoc inputs (he _)).2

/-- A reader that subscribes, assigns and closes without errors, and acknowledges every
commit on its whole input, clearing the descriptors' errors. -/
def acknowledgingReader : Reader where
  subscribeTopics _ _ := none
  commitOffsets _ l := .ok (l.map fun d => { d with error := none })
  committed _ l := .ok l
  assign _ _ := none
  unassign _ := none
  unsubscribe _ := none
  close _ := none

theorem acknowledgingReader_commitsWhole : acknowledgingReader.CommitsWhole := fun _ l =>
  ⟨_, rfl, by simp, fun d hd => List.mem_map.mpr ⟨_, List.mem_map_of_mem _ hd, rfl⟩⟩

/-- A consumer whose callbacks accept every message and return normally, committing
after every second message. -/
def acknowledgingConsumer : Consumer where
  commitOffsetCount := 2
  topics := ["orders"]
  reader := acknowledgingReader
  onCommit _ _ _ _ _ := .ok ()
  onError _ _ := .ok ()
  onProcess _ _ := .ok none
  onRevoke _ _ := .ok ()
  onRebalance _ _ := .ok ()

theorem commit_counts_match_accepted_acknowledged :
    acknowledgingConsumer.reader.CommitsDistinct ∧ acknowledgingConsumer.reader.CommitsWhole ∧
      acknowledgingConsumer.CommitReturns ∧
      ReportsBounded (listen [.event (.message ⟨⟨some "orders", 0, 7, none⟩⟩), .tick, .done]
        acknowledgingConsumer ⟨Offsets.empty, []⟩).2.trace ∧
      ReportsExact (listen [.event (.message ⟨⟨some "orders", 0, 7, none⟩⟩), .tick, .done]
        acknowledgingConsumer ⟨Offsets.empty, []⟩).2.trace := by
  have hd : acknowledgingConsumer.reader.CommitsDistinct := by
    rintro _ l hl _ ⟨⟩
    have hkey : (l.map fun d => { d with error := none }).map TopicPartition.key =
        l.map TopicPartition.key := by
      simp only [List.map_map]
      rfl
    exact ⟨hkey ▸ hl, fun d hd => hkey ▸ List.mem_map_of_mem _ hd⟩
  have hw : acknowledgingConsumer.reader.CommitsWhole := acknowledgingReader_commitsWhole
  have hoc : acknowledgingConsumer.CommitReturns := fun _ _ _ _ _ => rfl
  exact ⟨hd, hw, hoc, (commit_counts_match_accepted _ _ _ hd).1,
    (commit_counts_match_accepted _ _ _ hd).2 hw hoc⟩

end KafkaConsumer
